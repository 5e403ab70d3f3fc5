import Flint.Basic.Fencing
import Flint.Syncer.Lease

/-!
# A deposed holder does not install

A takeover acquires the cell in a later epoch and then moves the pointer. A commit loads the
document and then reads the cell. So a commit that still found its own epoch in the cell has loaded
a document from before the takeover moved the pointer, and its write fails (`Writer.Sound.commits`).

It fails where the takeover moves nothing (`deposed_installs_in_empty_workspace`). `Entitled`: a
rotation was not overtaken by a second takeover.
-/

namespace Flint.Syncer

open Outcome EpochCell List Option Function

variable {ι : Type}

namespace WriterPhase

@[simp] def cells : WriterPhase ι → List (Observed ι)
  | .observed (some o) _ => [o]
  | .rotating lease _ | .rotateLoad lease _ | .rotateLegacy lease _ | .rotateCas lease _ _ =>
    [lease]
  | .renewAgain _ _ adopted => [adopted]
  | .releasing current _ | .rereading current _ => [current]
  | _ => []

@[simp] def doc : WriterPhase ι → Option Opened
  | .rotateCas _ _ doc | .opened _ doc | .renewRead _ doc | .renewAgain _ doc _ | .verified _ doc =>
    some doc
  | _ => none

def rotation : WriterPhase ι → Option (Observed ι)
  | .rotating lease _ | .rotateLoad lease _ | .rotateLegacy lease _ => some lease
  | _ => none

def readsLegacy : WriterPhase ι → Bool
  | .rotateLegacy _ _ => true
  | _ => false

@[simp] def writes : WriterPhase ι → Bool
  | .rotateCas _ _ _ | .verified _ _ => true
  | _ => false

end WriterPhase

namespace Writer

@[simp] def commits (w : Writer ι) : Option (ℕ × Opened) :=
  match w.phase, w.lease with
  | .verified _ doc, some l => some (l.2.epoch, doc)
  | _, _ => none

@[simp] def rotates (w : Writer ι) : Option (ℕ × Opened) :=
  match w.phase with
  | .rotateCas lease _ doc => some (lease.2.epoch, doc)
  | _ => none

end Writer

/-! ### What a request does to the workspace -/

abbrev Past (cell : Register (EpochCell ι)) (o : Observed ι) : Prop := cell.Held epoch o

/-- A request moves the cell on, or the pointer, or neither. If it ends a takeover, it moves the
pointer. -/
structure Advance (b b' : Workspace ι) (fence : Option ℕ) : Prop where
  cell : b.cell.Grows epoch b'.cell
  pointer : fence = none ∧ b'.pointer = b.pointer ∨ ∃ g, b'.pointer = b.pointer.put g
  fence : ∀ e ∈ fence, b'.cell.AtLeast epoch e

variable {x : Option (ℕ × Generation)}

namespace Advance

variable {b b' : Workspace ι} {fence : Option ℕ}

theorem refl (b : Workspace ι) : Advance b b none := ⟨.refl _, .inl ⟨rfl, rfl⟩, by simp⟩

variable (h : Advance b b' fence)

include h

theorem seen (hx : b.pointer.Seen x) : b'.pointer.Seen x := by
  rcases h.pointer with ⟨-, hptr⟩ | ⟨g, hptr⟩
  · rwa [hptr]
  · rw [hptr]
    exact hx.put g

theorem stale (hx : b.pointer.Seen x) {fences : List ℕ} {P : ℕ → Prop}
    (hstl : ∀ e ∈ fences, P e → b.pointer.current x = false) :
    ∀ e ∈ fence.toList ++ fences, P e → b'.pointer.current x = false := by
  intro e he hP
  rcases h.pointer with ⟨rfl, hptr⟩ | ⟨g, hptr⟩
  · rw [hptr]
    exact hstl e he hP
  · rw [hptr]
    exact hx.not_current_put g

end Advance

variable {lease : Observed ι}

section Cas

variable {b : Workspace ι}

variable {c : EpochCell ι}

theorem advance_cas {x : Option (Observed ι)} (fate : CasFate)
    (hc : b.cell.current x → b.cell.AtMost epoch c.epoch) :
    Advance b { b with cell := (casWith b.cell x c fate).1 } none := by
  rcases casWith_cases b.cell x c fate with heq | ⟨hcur, ok, heq⟩
  · rw [heq]
    exact .refl b
  · rw [heq]
    exact ⟨.inr ⟨c, rfl, hc hcur⟩, .inl ⟨rfl, rfl⟩, by simp⟩

theorem advance_cas_cell {o : Observed ι} (ho : Past b.cell o) (hc : o.2.epoch ≤ c.epoch)
    (fate : CasFate) :
    Advance b { b with cell := (casWith b.cell (some o) c fate).1 } none := by
  exact advance_cas fate fun hcur c₀ hc₀ => (ho.atMost hcur c₀ hc₀).trans hc

theorem advance_cas_fresh (c : EpochCell ι) (fate : CasFate) :
    Advance b { b with cell := (casWith b.cell none c fate).1 } none :=
  advance_cas fate Register.atMost_of_current_none

theorem past_of_ok {x : Option (Observed ι)} {fate : CasFate} (hok : (casWith b.cell x c fate).2) :
    Past (casWith b.cell x c fate).1 ((casWith b.cell x c fate).1.version, c) := by
  rw [casWith_of_ok hok]
  exact Register.held_put c

theorem advance_cas_pointer (x : Option (ℕ × Generation)) (g : Generation) (fate : CasFate) :
    Advance b { b with pointer := (casWith b.pointer x g fate).1 } none := by
  rcases casWith_cases b.pointer x g fate with heq | ⟨-, ok, heq⟩
  · rw [heq]
    exact .refl b
  · rw [heq]
    exact ⟨.refl _, .inr ⟨g, rfl⟩, by simp⟩

theorem advance_rotated (hls : Past b.cell lease) {g : Generation} {fate : CasFate}
    (hok : (casWith b.pointer x g fate).2) :
    Advance b { b with pointer := (casWith b.pointer x g fate).1 } (some lease.2.epoch) := by
  refine ⟨.refl _, .inr ⟨g, casWith_of_ok hok⟩, fun e he => ?_⟩
  cases he
  exact hls.atLeast

end Cas

/-! ### One writer -/

variable {phase : WriterPhase ι}

namespace Writer

variable {strict : Prop} {b b' : Workspace ι} {fences : List ℕ} {w : Writer ι}

/-- A writer has in hand what it has read or written. What its next write of the pointer expects is
stale for every takeover of a later epoch; with `strict`, of rotations too. -/
structure Sound (strict : Prop) (b : Workspace ι) (fences : List ℕ) (w : Writer ι) : Prop where
  lease : ∀ o ∈ w.lease, Past b.cell o
  cells : ∀ o ∈ w.phase.cells, Past b.cell o
  doc : ∀ d ∈ w.phase.doc, b.pointer.Seen d.expected
  commits : ∀ p ∈ w.commits, ∀ e ∈ fences, p.1 < e → b.pointer.current p.2.expected = false
  rotates : strict → ∀ p ∈ w.rotates, ∀ e ∈ fences, p.1 < e → b.pointer.current p.2.expected = false

theorem doc_of_commits {p : ℕ × Opened} (h : p ∈ w.commits) : p.2 ∈ w.phase.doc := by
  grind [commits, WriterPhase.doc]

theorem doc_of_rotates {p : ℕ × Opened} (h : p ∈ w.rotates) : p.2 ∈ w.phase.doc := by
  grind [rotates, WriterPhase.doc]

theorem Sound.advance (h : w.Sound strict b fences) {fence : Option ℕ} (hadv : Advance b b' fence)
    : w.Sound strict b' (fence.toList ++ fences) where
  lease o ho := (h.lease o ho).grows hadv.cell
  cells o ho := (h.cells o ho).grows hadv.cell
  doc d hd := hadv.seen (h.doc d hd)
  commits p hp := hadv.stale (h.doc p.2 (doc_of_commits hp)) (h.commits p hp)
  rotates hstrict p hp := hadv.stale (h.doc p.2 (doc_of_rotates hp)) (h.rotates hstrict p hp)

theorem sound_of_not_writes (hwrs : w.phase.writes = false) (hls : ∀ o ∈ w.lease, Past b.cell o)
    (hcel : ∀ o ∈ w.phase.cells, Past b.cell o)
    (hdoc : ∀ d ∈ w.phase.doc, b.pointer.Seen d.expected) : w.Sound strict b fences := by
  refine ⟨hls, hcel, hdoc, fun p hp => ?_, fun _ p hp => ?_⟩
  all_goals cases hph : w.phase <;> simp_all

theorem sound_idle (hph : w.phase = .idle) (hls : ∀ o ∈ w.lease, Past b.cell o) :
    w.Sound strict b fences := by
  exact sound_of_not_writes (by simp [hph]) hls (by simp [hph]) (by simp [hph])

theorem sound_claimed (h : Past b.cell lease) : (claimed lease).Sound strict b fences := by
  exact sound_idle rfl (by simpa [claimed])

structure Good (strict : Prop) (b : Workspace ι) (fences : List ℕ) (r : Reply ι) : Prop where
  advance : Advance b r.workspace r.fence
  sound : r.writer.Sound strict r.workspace (r.fence.toList ++ fences)

theorem good_read {w' : Writer ι} (h : w'.Sound strict b fences) :
    Good strict b fences ⟨b, w', none⟩ := ⟨.refl b, h⟩

theorem Sound.setPhase (h : w.Sound strict b fences) (hwrs : phase.writes = false)
    (hcel : ∀ o ∈ phase.cells, Past b.cell o) (hdoc : ∀ d ∈ phase.doc, b.pointer.Seen d.expected) :
    Sound strict b fences { w with phase } :=
  sound_of_not_writes hwrs h.lease hcel hdoc

theorem Sound.toIdle (h : w.Sound strict b fences) :
    Sound strict b fences { w with phase := .idle } := sound_idle rfl h.lease

theorem Sound.toCell (h : w.Sound strict b fences) {l : Observed ι} (hl : Past b.cell l)
    (hcel : phase.cells ⊆ [l]) (hdoc : phase.doc = none) :
    Sound strict b fences { w with phase } := by
  refine h.setPhase ?_ (fun o ho => ?_) (by rw [hdoc]; nofun)
  · cases phase <;> simp_all
  · obtain rfl := mem_singleton.mp (hcel ho)
    exact hl

theorem seen_behind {p : ℕ × Generation} (h : b.pointer.read = some p) :
    b.pointer.Seen (behind p).expected := by
  have hsn := b.pointer.seen_read
  rwa [h] at hsn

theorem sound_waiting (h : w.Sound strict b fences) (o : Observed ι) (token : ℕ) (count : Bool) :
    (w.waiting o token count).Sound strict b fences := by
  rw [waiting]
  split
  · exact sound_idle rfl h.lease
  · exact h.toIdle

variable {doc : Opened}

theorem Sound.toRotateCas (h : w.Sound strict b fences) (hls : Past b.cell lease)
    (hdoc : b.pointer.Seen doc.expected) (hent : strict → ∀ e ∈ fences, e ≤ lease.2.epoch)
    (tries : ℕ) : Sound strict b fences { w with phase := .rotateCas lease tries doc } := by
  refine ⟨h.lease, by simpa, by simpa, by simp, fun hstrict p hp e he hlt => ?_⟩
  cases hp
  exact absurd hlt (Nat.not_lt.mpr (hent hstrict e he))

theorem Sound.toVerified (h : w.Sound strict b fences) (hdoc : b.pointer.Seen doc.expected)
    (hent : ∀ l ∈ w.lease, ∀ e ∈ fences, e ≤ l.2.epoch) (attempt : ℕ) :
    Sound strict b fences { w with phase := .verified attempt doc } := by
  refine ⟨h.lease, by simp, by simpa, fun p hp e he hlt => ?_, by simp⟩
  rw [Writer.commits] at hp
  split at hp
  · next _ doc' l hph hl =>
    cases hp
    exact absurd hlt (Nat.not_lt.mpr (hent l hl e he))
  · cases hp

theorem good_renew (h : w.Sound strict b fences) (fate : CasFate) :
    Good strict b fences (w.renew fate b) := by
  rw [renew]
  split
  · next attempt doc l hph hl =>
    have hdoc := h.doc doc (by rw [hph]; rfl)
    have hadv := advance_cas_cell (h.lease l hl) (c := renewed l) le_rfl fate
    have hsnd := h.advance hadv
    dsimp only
    split
    · next hok =>
      refine ⟨hadv, sound_of_not_writes (by simp [hph]) ?_ hsnd.cells hsnd.doc⟩
      simpa using past_of_ok hok
    · split
      · exact good_read h
      · exact ⟨hadv, hsnd.setPhase rfl (by simp) (by simpa using hadv.seen hdoc)⟩
  · exact good_read h

variable [DecidableEq ι] {me : ι} {fate : CasFate}

theorem past_of_stillOurs {l c : Observed ι} (h : stillOurs l b.cell.read = some c) :
    Past b.cell c := Register.held_read (filter_eq_some_iff.mp h).1

theorem epoch_le_acquired (me : ι) (o : Observed ι) : o.2.epoch ≤ (acquired me (some o)).epoch :=
  Nat.le_succ o.2.epoch

theorem good_claimNext (h : w.Sound strict b fences) {state : Option (Observed ι)}
    (hstt : ∀ o ∈ state, Past b.cell o) (count : Bool) :
    Good strict b fences (claimNext me fate b w count state) := by
  cases state with
  | none =>
    have hadv := advance_cas_fresh (b := b) (acquired me none) fate
    refine ⟨hadv, ?_⟩
    dsimp only [claimNext]
    split
    · next hok => exact sound_claimed (past_of_ok hok)
    · exact (h.advance hadv).toIdle
  | some o =>
    have ho : Past b.cell o := hstt o rfl
    rw [claimNext]
    split
    · exact good_read (sound_idle rfl (by simpa))
    · next rotate _ =>
      have hadv := advance_cas_cell ho (epoch_le_acquired me o) fate
      refine ⟨hadv, ?_⟩
      dsimp only
      split
      · next hok =>
        have hls := past_of_ok hok
        split
        · exact (h.advance hadv).toCell hls (Subset.refl _) rfl
        · exact sound_claimed hls
      · exact sound_idle rfl (h.advance hadv).lease
    · split
      · exact good_read (sound_waiting h o o.1 count)
      · have hadv := advance_cas_cell ho (c := enqueued me o) le_rfl fate
        exact ⟨hadv, sound_waiting (h.advance hadv) o _ count⟩

variable {tries : ℕ}

theorem good_rotateCas (h : w.Sound strict b fences) (hph : w.phase = .rotateCas lease tries doc) :
    Good strict b fences (w.next me fate b) := by
  have hls := h.cells lease (by simp [hph])
  have hadv := advance_cas_pointer (b := b) doc.expected ⟨doc.seq + 1, lease.2.epoch⟩ fate
  rw [next, hph]
  dsimp only
  split
  · next hok =>
    -- the takeover is over, and the pointer has moved
    have hptr := advance_rotated hls hok
    exact ⟨hptr, sound_claimed (hls.grows hptr.cell)⟩
  · refine ⟨hadv, ?_⟩
    have hsnd := h.advance hadv
    dsimp only [rotateAgain]
    split
    · exact hsnd.toCell (hls.grows hadv.cell) (Subset.refl _) rfl
    · exact hsnd.toIdle

theorem good_rotate (h : w.Sound strict b fences)
    (hph : w.phase = .rotating lease tries ∨ w.phase = .rotateLoad lease tries)
    (hent : strict → ∀ e ∈ fences, e ≤ lease.2.epoch) :
    Good strict b fences (w.next me fate b) := by
  have hls : Past b.cell lease :=
    h.cells lease (by rcases hph with hph | hph <;> simp [hph])
  have hfnd : ∀ p, b.pointer.read = some p →
      Good strict b fences ⟨b, { w with phase := .rotateCas lease tries (behind p) }, none⟩ :=
    fun p hp => good_read (h.toRotateCas hls (seen_behind hp) hent tries)
  rw [next]
  rcases hph with hph | hph
  all_goals
    rw [hph]
    dsimp only
    split
    · next p hp => exact hfnd p hp
    · exact good_read (h.toCell hls (Subset.refl _) rfl)

theorem good_rotateLegacy (h : w.Sound strict b fences) (hph : w.phase = .rotateLegacy lease tries)
    (hlegacy : b.legacy ≠ .absent) (hent : strict → ∀ e ∈ fences, e ≤ lease.2.epoch) :
    Good strict b fences (w.next me fate b) := by
  have hls := h.cells lease (by simp [hph])
  rw [next, hph]
  dsimp only
  split
  · next habs => exact absurd habs hlegacy
  · exact good_read (h.toRotateCas hls b.pointer.seen_none hent tries)
  · exact good_read h.toIdle

variable {attempt : ℕ} (h : w.Sound strict b fences)

include h

theorem good_open (hph : w.phase = .opening attempt ∨ w.phase = .openLegacy attempt) :
    Good strict b fences (w.next me fate b) := by
  have hopd : ∀ doc : Opened, b.pointer.Seen doc.expected →
      Good strict b fences ⟨b, { w with phase := .opened attempt doc }, none⟩ := fun doc hdoc =>
    good_read (h.setPhase rfl (by simp) (by simpa))
  rw [next]
  rcases hph with hph | hph
  · rw [hph]
    dsimp only
    split
    · next p hp => exact hopd _ (seen_behind hp)
    · exact good_read (h.setPhase rfl (by simp) (by simp))
  · rw [hph]
    dsimp only
    split
    · exact hopd _ b.pointer.seen_none
    · exact hopd _ b.pointer.seen_none
    · exact good_read h.toIdle

/-- `verify_not_deposed`: every takeover that is over is in the epoch of the lease or an earlier
one. -/
theorem good_opened (hfences : ∀ e ∈ fences, b.cell.AtLeast epoch e)
    (hph : w.phase = .opened attempt doc) : Good strict b fences (w.next me fate b) := by
  have hdoc := h.doc doc (by rw [hph]; rfl)
  rw [next, hph]
  dsimp only
  split
  · next hvfy =>
    refine good_read (h.toVerified hdoc (fun l hl e he => ?_) attempt)
    rw [mem_def.mp hl, any_some] at hvfy
    obtain ⟨c, hc, hle⟩ := hfences e he
    rw [Register.read, hc] at hvfy
    simp only [map_some, any_some, sameHold, Bool.and_eq_true, decide_eq_true_eq]
      at hvfy
    exact hvfy.1 ▸ hle
  · exact good_read h.toIdle

theorem good_renewRead (hph : w.phase = .renewRead attempt doc) :
    Good strict b fences (w.next me fate b) := by
  have hdoc := h.doc doc (by rw [hph]; rfl)
  rw [next, hph]
  dsimp only
  split
  · next c hc =>
    obtain ⟨l, -, hours⟩ := bind_eq_some_iff.mp hc
    exact good_read (h.setPhase rfl (by simpa using past_of_stillOurs hours) (by simpa))
  · exact good_read (sound_idle rfl (by simp))

theorem good_renewAgain {adopted : Observed ι} (hph : w.phase = .renewAgain attempt doc adopted) :
    Good strict b fences (w.next me fate b) := by
  have hdoc := h.doc doc (by rw [hph]; rfl)
  have hadopted := h.cells adopted (by simp [hph])
  have hadv := advance_cas_cell hadopted (c := renewed adopted) le_rfl fate
  rw [next, hph]
  refine ⟨hadv, sound_of_not_writes rfl (fun o ho => ?_) (by simp) (by simpa)⟩
  cases ho
  dsimp only
  split
  · next hok => exact past_of_ok hok
  · exact hadopted.grows hadv.cell

theorem good_verified (hph : w.phase = .verified attempt doc) :
    Good strict b fences (w.next me fate b) := by
  rw [next, hph]
  dsimp only
  split
  · exact good_read h.toIdle
  · next l _ =>
    have hadv := advance_cas_pointer (b := b) doc.expected ⟨doc.seq + 1, l.2.epoch⟩ fate
    refine ⟨hadv, ?_⟩
    have hsnd := h.advance hadv
    dsimp only [commitAgain]
    split
    · exact hsnd.toIdle
    · split
      · exact hsnd.setPhase rfl (by simp) (by simp)
      · exact hsnd.toIdle

theorem good_release {current : Observed ι}
    (hph : w.phase = .releasing current attempt ∨ w.phase = .rereading current attempt) :
    Good strict b fences (w.next me fate b) := by
  rw [next]
  rcases hph with hph | hph
  · have hcur := h.cells current (by simp [hph])
    have hadv := advance_cas_cell hcur (c := handedOff current) le_rfl fate
    rw [hph]
    refine ⟨hadv, ?_⟩
    have hsnd := h.advance hadv
    dsimp only
    split
    · exact hsnd.toIdle
    · exact hsnd.toCell (hcur.grows hadv.cell) (Subset.refl _) rfl
  · rw [hph]
    dsimp only
    split
    · next c hc =>
      split
      · exact good_read (h.toCell (past_of_stillOurs hc) (Subset.refl _) rfl)
      · exact good_read h.toIdle
    · exact good_read h.toIdle

end Writer

/-! ### The run -/

namespace Leases

def FindsDocument (s : Leases ι) : LeaseAction ι → Prop
  | .next i _ => (s.writers i).phase.readsLegacy → s.workspace.legacy ≠ .absent
  | _ => True

/-- A rotation reads the document while the cell is in the epoch it was acquired in. -/
def Entitled (s : Leases ι) : LeaseAction ι → Prop
  | .next i _ => ∀ lease ∈ (s.writers i).phase.rotation, ∀ c ∈ s.workspace.cell.value,
      c.epoch = lease.2.epoch
  | _ => True

variable {strict : Prop} {s : Leases ι}

structure Inv (strict : Prop) (s : Leases ι) : Prop where
  writers : ∀ i, (s.writers i).Sound strict s.workspace s.fences
  fences : ∀ e ∈ s.fences, s.workspace.cell.AtLeast epoch e

variable {i : ι}

theorem Inv.le_of_entitled (h : Inv strict s) {fate : CasFate} (hent : s.Entitled (.next i fate))
    (hls : (s.writers i).phase.rotation = some lease) :
    ∀ e ∈ s.fences, e ≤ lease.2.epoch := by
  intro e he
  obtain ⟨c, hc, hle⟩ := h.fences e he
  exact hent lease hls c hc ▸ hle

theorem inv_start (b : Workspace ι) (inc : ι → Incarnation) : Inv strict (start b inc) where
  writers _ := Writer.sound_idle rfl (by simp [start])
  fences e he := absurd he not_mem_nil

variable [DecidableEq ι] (h : Inv strict s)

include h

theorem Inv.setWriter {w : Writer ι} (hw : w.Sound strict s.workspace s.fences) :
    Inv strict (s.setWriter i w) where
  writers := (forall_update_iff s.writers
    fun _ w => w.Sound strict s.workspace s.fences).mpr ⟨hw, fun j _ => h.writers j⟩
  fences := h.fences

theorem Inv.reply {r : Reply ι} (hr : Writer.Good strict s.workspace s.fences r) :
    Inv strict (s.reply i r) where
  writers := (forall_update_iff s.writers
    fun _ w => w.Sound strict r.workspace (r.fence.toList ++ s.fences)).mpr
    ⟨hr.sound, fun j _ => (h.writers j).advance hr.advance⟩
  fences e he := by
    rcases mem_append.mp he with hnew | hold
    · exact hr.advance.fence e (mem_toList.mp hnew)
    · exact hr.advance.cell.atLeast (h.fences e hold)

theorem Inv.next {fate : CasFate} (hfinds : s.FindsDocument (.next i fate))
    (hent : strict → s.Entitled (.next i fate)) :
    Writer.Good strict s.workspace s.fences ((s.writers i).next i fate s.workspace) := by
  have hw := h.writers i
  have hle : ∀ {lease}, (s.writers i).phase.rotation = some lease → strict →
      ∀ e ∈ s.fences, e ≤ lease.2.epoch := fun hl hs => h.le_of_entitled (hent hs) hl
  cases hph : (s.writers i).phase with
  | idle =>
    rw [Writer.next, hph]
    exact Writer.good_read hw
  | observed state count =>
    rw [Writer.next, hph]
    exact Writer.good_claimNext hw (fun o ho => hw.cells o (by simp_all)) count
  | rotating => exact Writer.good_rotate hw (.inl hph) (hle (by rw [hph]; rfl))
  | rotateLoad => exact Writer.good_rotate hw (.inr hph) (hle (by rw [hph]; rfl))
  | rotateLegacy lease tries =>
    have hlegacy : s.workspace.legacy ≠ .absent := hfinds (by rw [hph]; rfl)
    exact Writer.good_rotateLegacy hw hph hlegacy (hle (by rw [hph]; rfl))
  | rotateCas => exact Writer.good_rotateCas hw hph
  | opening => exact Writer.good_open hw (.inl hph)
  | openLegacy => exact Writer.good_open hw (.inr hph)
  | opened => exact Writer.good_opened hw h.fences hph
  | renewRead => exact Writer.good_renewRead hw hph
  | renewAgain => exact Writer.good_renewAgain hw hph
  | verified => exact Writer.good_verified hw hph
  | releasing => exact Writer.good_release hw (.inl hph)
  | rereading => exact Writer.good_release hw (.inr hph)

theorem Inv.toBare (hcel : phase.cells = []) (hdoc : phase.doc = none) :
    Inv strict (s.setWriter i { s.writers i with phase }) := by
  refine h.setWriter ((h.writers i).setPhase ?_ (by rw [hcel]; nofun) (by rw [hdoc]; nofun))
  cases phase <;> simp_all

theorem Inv.step {a : LeaseAction ι} (hfinds : s.FindsDocument a) (hent : strict → s.Entitled a)
    : Inv strict (s.step a) := by
  cases a <;> rw [Leases.step]
  case claim i count =>
    split
    · refine h.setWriter ((h.writers i).setPhase rfl ?_ (by simp))
      cases hrd : s.workspace.cell.read with
      | none => simp
      | some c => simpa using Register.held_read hrd
    · exact h
  case next i fate => exact h.reply (h.next hfinds hent)
  case commit i =>
    split
    · exact h.toBare rfl rfl
    · exact h
  case renew i fate => exact h.reply (Writer.good_renew (h.writers i) fate)
  case leave i again =>
    split
    · cases again <;> exact h.toBare rfl rfl
    · exact h
  case release i =>
    split
    · next l _ hl =>
      refine h.setWriter (Writer.sound_of_not_writes rfl (by simp) ?_ (by simp))
      simpa using (h.writers i).lease l hl
    · exact h
  case restart i => exact h.setWriter (Writer.sound_idle rfl (by simp))
  case poison =>
    split
    · -- the object of the old layout is not part of the invariant
      have hadv : Advance s.workspace { s.workspace with legacy := .refusal } none :=
        ⟨.refl _, .inl ⟨rfl, rfl⟩, by simp⟩
      exact ⟨fun j => (h.writers j).advance hadv, h.fences⟩
    · exact h

omit h

theorem inv_run (strict : Prop) {b : Workspace ι} {inc : ι → Incarnation} {l : List (LeaseAction ι)}
    (h : Steps step (fun s a => s.FindsDocument a ∧ (strict → s.Entitled a)) (start b inc) l) :
    Inv strict (run step (start b inc) l) :=
  run_invariant_of_steps (P := Inv strict) (fun _ _ h ha => h.step ha.1 ha.2) (inv_start b inc) h

/-! ### Results -/

/-- Once a takeover of an unreleased cell has returned `Claimed`, the write of the pointer under a
lease of an earlier epoch fails, in the runs in which no rotation finds the workspace empty. -/
theorem deposed_never_installs (b : Workspace ι) (inc : ι → Incarnation) (l : List (LeaseAction ι))
    (h : Steps step FindsDocument (start b inc) l) :
    let s := run step (start b inc) l
    (∀ e ∈ s.fences, ∀ i, ∀ p ∈ (s.writers i).commits, p.1 < e →
        s.workspace.pointer.current p.2.expected = false) ∧
      (Steps step Entitled (start b inc) l →
        ∀ e ∈ s.fences, ∀ i, ∀ p ∈ (s.writers i).rotates, p.1 < e →
          s.workspace.pointer.current p.2.expected = false) := by
  constructor
  · intro e he i p hp
    have hinv := inv_run False (h.imp (fun _ _ hf _ => ⟨hf, False.elim⟩) h)
    exact (hinv.writers i).commits p hp e he
  · intro hent e he i p hp
    have hinv := inv_run True (h.imp (fun _ _ hf hs => ⟨hf, fun _ => hs⟩) hent)
    exact (hinv.writers i).rotates trivial p hp e he

instance (s : Leases ι) (a : LeaseAction ι) : Decidable (s.FindsDocument a) := by
  unfold FindsDocument
  split <;> infer_instance

/-- Writer 0 takes the fresh cell and sends `requests` requests of its commit; writer 1 then polls
the cell until it has taken it over. -/
def takeover (requests : ℕ) : List (LeaseAction (Fin 2)) :=
  [.claim 0 true, .next 0 .done, .commit 0] ++ replicate requests (.next 0 .done) ++
    (replicate 7 [.claim 1 true, .next 1 .done]).flatten

/-- Two new writers in a workspace with no cell and no document of the old layout. -/
def newWriters (pointer : Option Generation) : Leases (Fin 2) :=
  start ⟨.new none, .new pointer, .absent⟩ fun _ => ⟨0, none, 0⟩

/-- In an empty workspace the rotation has nothing to move: after the takeover in epoch 2 is
`Claimed`, the deposed writer's write under epoch 1 succeeds. -/
theorem deposed_installs_in_empty_workspace :
    let s := run step (newWriters none)
      (takeover 3 ++ [.next 1 .done, .next 1 .done, .next 1 .done])
    s.fences = [2] ∧ (s.writers 0).commits = some (1, ⟨none, 0⟩) ∧
      (s.step (.next 0 .done)).workspace.pointer.value = some ⟨1, 1⟩ := by
  decide +kernel

/-- Where there is a document, the takeover moves its pointer, and the deposed writer fails. -/
theorem deposed_fails :
    let l := takeover 2 ++ [.next 1 .done, .next 1 .done]
    let s := run step (newWriters (some ⟨5, 0⟩)) l
    Steps step FindsDocument (newWriters (some ⟨5, 0⟩)) l ∧ s.fences = [2] ∧
      (s.writers 0).commits = some (1, ⟨some (0, ⟨5, 0⟩), 5⟩) ∧
      s.workspace.pointer.current (some (0, ⟨5, 0⟩)) = false := by
  intro l s
  have hsts : Steps step FindsDocument (newWriters (some ⟨5, 0⟩)) l := by decide +kernel
  have hfences : s.fences = [2] := by decide +kernel
  have hcom : (s.writers 0).commits = some (1, ⟨some (0, ⟨5, 0⟩), 5⟩) := by decide +kernel
  refine ⟨hsts, hfences, hcom, ?_⟩
  have hfen : 2 ∈ s.fences := hfences ▸ mem_singleton_self 2
  exact (deposed_never_installs _ _ l hsts).1 2 hfen 0 _ hcom Nat.one_lt_two

end Leases

end Flint.Syncer
