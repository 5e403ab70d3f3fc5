import Flint.Syncer.Lease

/-!
# Watching a cell before taking it

A claimant may take a cell that it was not given when the cell has stood still: a reservation of
somebody else after `handoffQuietPolls` quiet observations, a cell in somebody else's hands after
`quietPolls`. It keeps one counter for both, and the token the cell had after the last step that
counted. A step that does not count reads the counter and not the token (`reservation_not_watched`).

`Backed` says what the counter stands for: as long as the cell has the token that is written down,
the last steps that counted found this cell, each as the one before had left it.
-/

namespace Flint.Syncer

open Writer Outcome Option Nat

structure Look (ι : Type) where
  found : Option (Observed ι)
  left : Option ℕ

structure Watch (ι : Type) where
  workspace : Workspace ι
  writer : Writer ι
  counted : List (Look ι)
  taken : List (EpochCell ι × List (Look ι))

inductive WatchAction (ι : Type)
  | write (value : Option (EpochCell ι))
  | claim (count : Bool)
  | settle (fate : CasFate)
  /-- It goes on and stops with an error, after its write or before; nothing is persisted. -/
  | fail (fate : CasFate)
  | rotated (ok : Bool)
  | restart

def EpochCell.apart {ι : Type} [DecidableEq ι] (me : ι) (c : EpochCell ι) : EpochCell ι :=
  { c with waiters := c.waiters.filter (· ≠ me) }

def EpochCell.ReservedForOther {ι : Type} (me : ι) (c : EpochCell ι) : Prop :=
  c.released ∧ c.handoff ≠ none ∧ c.handoff ≠ some me

def EpochCell.HeldByOther {ι : Type} (me : ι) (c : EpochCell ι) : Prop :=
  c.released = false ∧ c.holder ≠ me

instance {ι : Type} [DecidableEq ι] (me : ι) (c : EpochCell ι) :
    Decidable (c.ReservedForOther me) :=
  inferInstanceAs (Decidable (_ ∧ _ ∧ _))

/-- The last `n` looks each found the cell `c`, apart from the place of `me` in its queue, as the
look before had left it. -/
def StoodStill {ι : Type} [DecidableEq ι] (me : ι) (c : EpochCell ι) : ℕ → List (Look ι) → Prop
  | 0, _ => True
  | n + 1, look :: before :: l =>
    (look.found.map fun o => o.2.apart me) = some (c.apart me) ∧
      look.found.map Prod.fst = before.left ∧ StoodStill me c n (before :: l)
  | _ + 1, _ => False

instance decidableStoodStill {ι : Type} [DecidableEq ι] (me : ι) (c : EpochCell ι) :
    ∀ (n : ℕ) (l : List (Look ι)), Decidable (StoodStill me c n l)
  | 0, _ => inferInstanceAs (Decidable True)
  | n + 1, _ :: before :: l =>
    have := decidableStoodStill me c n (before :: l)
    inferInstanceAs (Decidable (_ ∧ _ ∧ StoodStill me c n (before :: l)))
  | _ + 1, [] | _ + 1, [_] => inferInstanceAs (Decidable False)

namespace Watch

variable {ι : Type} [DecidableEq ι] (me : ι)

def start (b : Workspace ι) : Watch ι := ⟨b, ⟨⟨0, none, 0⟩, none, .idle⟩, [], []⟩

def leaves (cell after : Register (EpochCell ι)) (found : Option (Observed ι)) : Option ℕ :=
  if after.version = cell.version then found.map Prod.fst else some after.version

def looks (cell after : Register (EpochCell ι)) (found : Option (Observed ι)) (count : Bool)
    (l : List (Look ι)) : List (Look ι) :=
  if count then ⟨found, leaves cell after found⟩ :: l else l

def takes (s : Watch ι) (fate : CasFate) (found : Option (Observed ι)) (count : Bool) :
    Option (EpochCell ι) :=
  found.bind fun o =>
    match verdict me s.writer.inc o count with
    | .take _ => if s.workspace.cell.current (some o) ∧ fate ≠ .conflict then some o.2 else none
    | .adopt | .wait => none

def settled (s : Watch ι) (fate : CasFate) (found : Option (Observed ι)) (count : Bool)
    (writer : Writer ι) : Watch ι :=
  let b := (claimNext me fate s.workspace s.writer count found).workspace
  let looks := looks s.workspace.cell b.cell found count s.counted
  ⟨b, writer, looks, ((s.takes me fate found count).map fun c => (c, looks)).toList ++ s.taken⟩

def step (s : Watch ι) : WatchAction ι → Watch ι
  | .write value =>
    { s with workspace := { s.workspace with cell := s.workspace.cell.replace value } }
  | .claim count =>
    match s.writer.phase with
    | .idle => { s with writer := { s.writer with phase := .observed s.workspace.cell.read count } }
    | _ => s
  | .settle fate =>
    match s.writer.phase with
    | .observed found count =>
      s.settled me fate found count (claimNext me fate s.workspace s.writer count found).writer
    | _ => s
  | .fail fate =>
    match s.writer.phase with
    | .observed found count => s.settled me fate found count { s.writer with phase := .idle }
    | _ => s
  | .rotated ok =>
    match s.writer.phase with
    | .rotating lease _ =>
      { s with writer := if ok then claimed lease else { s.writer with phase := .idle } }
    | _ => s
  | .restart => { s with writer := { s.writer with lease := none, phase := .idle } }

/-- The cell as it is, if it is reserved for somebody else, is the one that the counter is about, or
the counter is below the threshold. -/
def Compared (inc : Incarnation) (found : Option (Observed ι)) : Prop :=
  ∀ o ∈ found, o.2.ReservedForOther me →
    inc.lastToken = some o.1 ∨ inc.quietPolls < handoffQuietPolls

instance (inc : Incarnation) (found : Option (Observed ι)) : Decidable (Compared me inc found) :=
  inferInstanceAs (Decidable (∀ o ∈ found, _))

/-- A step that does not count finds no reservation of somebody else with a counter of another
cell. -/
def Rechecked (s : Watch ι) : WatchAction ι → Prop
  | .claim count => count = false → Compared me s.writer.inc s.workspace.cell.read
  | .write _ | .settle _ | .fail _ | .rotated _ | .restart => True

instance (s : Watch ι) (a : WatchAction ι) : Decidable (s.Rechecked me a) := by
  unfold Rechecked
  split <;> infer_instance

end Watch

/-! ### Standing still -/

section Still

variable {ι : Type} [DecidableEq ι] {me : ι} {c c' : EpochCell ι} {n t : ℕ} {l : List (Look ι)}

theorem StoodStill.pred (h : StoodStill me c (n + 1) l) : StoodStill me c n l := by
  induction n generalizing l with
  | zero => exact trivial
  | succ n ih =>
    cases l with
    | nil => exact h.elim
    | cons look l =>
      cases l with
      | nil => exact h.elim
      | cons before l => exact ⟨h.1, h.2.1, ih h.2.2⟩

theorem StoodStill.mono (h : StoodStill me c n l) {m : ℕ} (hm : m ≤ n) : StoodStill me c m l := by
  induction hm with
  | refl => exact h
  | step _ ih => exact ih h.pred

theorem StoodStill.congr (h : StoodStill me c n l) (heq : c.apart me = c'.apart me) :
    StoodStill me c' n l := by
  induction n generalizing l with
  | zero => exact trivial
  | succ n ih =>
    cases l with
    | nil => exact h.elim
    | cons look l =>
      cases l with
      | nil => exact h.elim
      | cons before l => exact ⟨h.1.trans (congrArg some heq), h.2.1, ih h.2.2⟩

theorem apart_enqueued (o : Observed ι) : (enqueued me o).apart me = o.2.apart me := by
  unfold enqueued
  split
  · rfl
  · simp [EpochCell.apart]

/-- `n` looks found the cell `c` standing still, and the last one left it with the token `t`. -/
structure Stood (me : ι) (n : ℕ) (c : EpochCell ι) (t : ℕ) (l : List (Look ι)) : Prop where
  still : StoodStill me c n l
  left : (l.head?.bind Look.left) = some t

theorem Stood.again (h : Stood me n c t l) (left : Option ℕ) :
    StoodStill me c (n + 1) (⟨some (t, c), left⟩ :: l) := by
  cases l with
  | nil => exact absurd h.left (by simp)
  | cons before l => exact ⟨rfl, h.left.symm, h.still⟩

def Backed (me : ι) (inc : Incarnation) (l : List (Look ι)) (r : Register (EpochCell ι)) : Prop :=
  ∀ t, inc.lastToken = some t → t ≤ r.version ∧
    (t = r.version → ∃ c, r.value = some c ∧ Stood me inc.quietPolls c t l)

theorem Backed.later {inc : Incarnation} {r₀ r : Register (EpochCell ι)} (h : Backed me inc l r₀)
    (hpas : r₀.Past r) : Backed me inc l r := by
  intro t ht
  obtain ⟨hle, hstd⟩ := h t ht
  refine ⟨hle.trans hpas.le_version, fun heq => ?_⟩
  obtain rfl : r₀ = r := hpas.eq_of_version (le_antisymm hpas.le_version (heq ▸ hle))
  exact hstd heq

theorem backed_none {inc : Incarnation} (h : inc.lastToken = none) (r : Register (EpochCell ι)) :
    Backed me inc l r := by
  intro t ht
  rw [h] at ht
  cases ht

end Still

namespace Watch

variable {ι : Type} [DecidableEq ι] {me : ι} {s : Watch ι}

/-! ### What a step leaves -/

def Written (cell after : Register (EpochCell ι)) : Prop :=
  after = cell ∨ ∃ c, after = cell.replace (some c)

omit [DecidableEq ι] in
theorem Written.past {cell after : Register (EpochCell ι)} (h : Written cell after) :
    cell.Past after := by
  obtain rfl | ⟨c, rfl⟩ := h
  · exact .refl _
  · exact (Register.Past.refl cell).replace _

omit [DecidableEq ι] in
theorem written_casWith (cell : Register (EpochCell ι)) (x : Option (Observed ι)) (c : EpochCell ι)
    (fate : CasFate) : Written cell (casWith cell x c fate).1 := by
  rcases casWith_cases cell x c fate with heq | ⟨-, ok, heq⟩
  · exact .inl (by rw [heq])
  · exact .inr ⟨c, by rw [heq]; rfl⟩

/-- The token that a step which counts writes down. -/
inductive Noted (me : ι) (cell : Register (EpochCell ι)) (o : Observed ι) :
    Register (EpochCell ι) → ℕ → Prop
  | found : Noted me cell o cell o.1
  | unanswered : Noted me cell o (cell.replace (some (enqueued me o))) o.1
  | queued : Noted me cell o (cell.replace (some (enqueued me o))) (cell.version + 1)

variable {o : Observed ι} {cell after : Register (EpochCell ι)}

theorem Noted.written {token : ℕ} (h : Noted me cell o after token) : Written cell after := by
  cases h with
  | found => exact .inl rfl
  | unanswered | queued => exact .inr ⟨_, rfl⟩

inductive Judged (me : ι) (cell : Register (EpochCell ι)) (inc : Incarnation) (count : Bool)
    (found : Option (Observed ι)) : Register (EpochCell ι) → Incarnation → Prop
  | kept {after : Register (EpochCell ι)} (h : Written cell after) :
    Judged me cell inc count found after inc
  | restarted {after : Register (EpochCell ι)} {inc' : Incarnation} (h : Written cell after)
    (htok : inc'.lastToken = none) (hqt : inc'.quietPolls = 0) :
    Judged me cell inc count found after inc'
  | counted {after : Register (EpochCell ι)} {o : Observed ι} {token : ℕ} (hfnd : found = some o)
    (hcnt : count) (hwait : verdict me inc o count = .wait)
    (htok : Noted me cell o after token) :
    Judged me cell inc count found after ⟨inc.epoch, some token, countedQuiet inc o.1 count⟩

variable {w : Writer ι}

theorem judged_waiting {count : Bool} {token : ℕ}
    (hwait : verdict me w.inc o count = .wait) (htok : Noted me cell o after token) :
    Judged me cell w.inc count (some o) after (w.waiting o token count).inc := by
  unfold waiting
  split
  · next hcnt => exact .counted rfl hcnt hwait htok
  · exact .kept htok.written

theorem judged_claimNext (me : ι) (fate : CasFate) (b : Workspace ι) (w : Writer ι) (count : Bool)
    (found : Option (Observed ι)) :
    Judged me b.cell w.inc count found (claimNext me fate b w count found).workspace.cell
      (claimNext me fate b w count found).writer.inc := by
  cases found with
  | none =>
    have hwr := written_casWith b.cell none (acquired me none) fate
    simp only [claimNext]
    split
    · exact .restarted hwr rfl rfl
    · exact .kept hwr
  | some o =>
    simp only [claimNext]
    split
    · exact .restarted (.inl rfl) rfl rfl
    · have hwr := written_casWith b.cell (some o) (acquired me (some o)) fate
      simp only
      split
      · split
        -- the rotation of a deposed holder's pointer comes before anything is persisted
        · exact .kept hwr
        · exact .restarted hwr rfl rfl
      · exact .restarted hwr rfl rfl
    · next hwait =>
      split
      · exact judged_waiting hwait .found
      · rcases casWith_cases b.cell (some o) (enqueued me o) fate with heq | ⟨-, ok, heq⟩
        · simp only [heq]
          exact judged_waiting hwait .found
        · simp only [heq]
          cases ok with
          | true => exact judged_waiting hwait .queued
          | false => exact judged_waiting hwait .unanswered

variable {found : Option (Observed ι)}

theorem Judged.written {inc inc' : Incarnation} {count : Bool}
    (h : Judged me cell inc count found after inc') : Written cell after := by
  cases h with
  | kept h | restarted h _ _ => exact h
  | counted _ _ _ htok => exact htok.written

theorem Judged.below {inc inc' : Incarnation} {count : Bool}
    (h : Judged me cell inc count found after inc') (hbel : inc.quietPolls < quietPolls) :
    inc'.quietPolls < quietPolls := by
  cases h with
  | kept _ => exact hbel
  | restarted _ _ hqt =>
    rw [hqt]
    decide
  | @counted o _ _ _ hwait _ =>
    show countedQuiet inc o.1 count < quietPolls
    have hhandoff : handoffQuietPolls ≤ quietPolls := by decide
    simp only [verdict] at hwait
    grind

section Looks

variable {cell after r₀ : Register (EpochCell ι)} {inc inc' : Incarnation} {count : Bool}
  {l : List (Look ι)}

theorem stoodStill_looks (cell after : Register (EpochCell ι)) (count : Bool)
    (hrd : r₀.read = some o) (hbkd : Backed me inc l r₀)
    (hsm : count = false → inc.lastToken = some o.1) :
    StoodStill me o.2 (countedQuiet inc o.1 count) (looks cell after (some o) count l) := by
  obtain ⟨c, hc, rfl⟩ := map_eq_some_iff.mp hrd
  have hstd : inc.lastToken = some r₀.version → Stood me inc.quietPolls c r₀.version l := by
    intro htok
    obtain ⟨c', hc', hstd⟩ := (hbkd _ htok).2 rfl
    obtain rfl := mem_unique hc hc'
    exact hstd
  cases count with
  | false => exact (hstd (hsm rfl)).still
  | true =>
    rw [countedQuiet, if_pos rfl, looks, if_pos rfl]
    split
    · next htok => exact (hstd htok).again _
    · exact trivial

theorem stood_look {c : EpochCell ι} {n : ℕ} (h : Stood me n c r₀.version l)
    (hv : r₀.value = some c) : Stood me n c r₀.version (looks r₀ r₀ r₀.read count l) := by
  have hrd : r₀.read = some (r₀.version, c) := by rw [Register.read, hv, map_some]
  rw [hrd]
  cases count with
  | false => exact h
  | true => exact ⟨(h.again _).pred, by simp [looks, leaves]⟩

theorem Judged.backed (h : Judged me cell inc count r₀.read after inc') (hpas : r₀.Past cell)
    (hbkd : Backed me inc l r₀) : Backed me inc' (looks cell after r₀.read count l) after := by
  cases h with
  | kept hwr =>
    intro t ht
    obtain ⟨hle, hstd⟩ := hbkd t ht
    have hce : cell.version ≤ after.version := hwr.past.le_version
    refine ⟨hle.trans (hpas.le_version.trans hce), fun heq => ?_⟩
    -- the token is still the one of `r₀`, so nothing has been written since
    have hback : after.version ≤ r₀.version := heq ▸ hle
    obtain rfl : r₀ = cell :=
      hpas.eq_of_version (le_antisymm hpas.le_version (hce.trans hback))
    obtain rfl : r₀ = after := hwr.past.eq_of_version (le_antisymm hce hback)
    obtain ⟨c, hc, hstd⟩ := hstd heq
    subst heq
    exact ⟨c, hc, stood_look hstd hc⟩
  | restarted _ htok _ => exact backed_none htok _
  | @counted o token hfnd hcnt hwait hnoted =>
    subst hcnt
    have hstill := stoodStill_looks cell after true hfnd hbkd (by simp)
    obtain ⟨c, hc, rfl⟩ := map_eq_some_iff.mp hfnd
    rw [hfnd]
    intro t ht
    obtain rfl : token = t := some.inj ht
    cases hnoted with
    | found =>
      refine ⟨hpas.le_version, fun heq => ?_⟩
      obtain rfl := hpas.eq_of_version heq
      exact ⟨c, hc, hstill, by simp [looks, leaves]⟩
    | unanswered =>
      refine ⟨le_succ_of_le hpas.le_version, fun heq => ?_⟩
      have hle : r₀.version ≤ cell.version := hpas.le_version
      rw [show r₀.version = cell.version + 1 from heq] at hle
      exact absurd hle (not_succ_le_self _)
    | queued =>
      refine ⟨le_refl _, fun _ => ⟨_, rfl, hstill.congr (apart_enqueued _).symm, ?_⟩⟩
      simp [looks, leaves, Register.replace]

end Looks

/-! ### Runs -/

variable {strict : Prop}

/-- What a cell that was taken has shown; a reservation, in the runs that are `strict`. -/
structure Justified (strict : Prop) (me : ι) (c : EpochCell ι) (l : List (Look ι)) : Prop where
  reserved : strict → c.ReservedForOther me → StoodStill me c handoffQuietPolls l
  held : c.HeldByOther me → StoodStill me c quietPolls l

/-- A step that has read the cell and not yet gone on. -/
structure Pending (strict : Prop) (me : ι) (s : Watch ι) (found : Option (Observed ι))
    (count : Bool) : Prop where
  read : ∃ r₀ : Register (EpochCell ι), found = r₀.read ∧ r₀.Past s.workspace.cell ∧
    Backed me s.writer.inc s.counted r₀
  compared : strict → count = false → Compared me s.writer.inc found

/-- The invariant of a run. The runs that are `strict` have `Rechecked` at every step. -/
structure Inv (strict : Prop) (me : ι) (s : Watch ι) : Prop where
  below : s.writer.inc.quietPolls < quietPolls
  backed : Backed me s.writer.inc s.counted s.workspace.cell
  pending : ∀ found count, s.writer.phase = .observed found count → Pending strict me s found count
  taken : ∀ r ∈ s.taken, Justified strict me r.1 r.2

theorem inv_start (b : Workspace ι) : Inv strict me (start b) where
  below := show 0 < quietPolls by decide
  backed := backed_none rfl _
  pending := nofun
  taken := nofun

theorem le_countedQuiet {inc : Incarnation} {count rotate : Bool}
    (htk : verdict me inc o count = .take rotate) :
    (o.2.ReservedForOther me → handoffQuietPolls ≤ countedQuiet inc o.1 count) ∧
      (o.2.HeldByOther me → quietPolls ≤ countedQuiet inc o.1 count) := by
  simp only [verdict] at htk
  refine ⟨fun hresv => ?_, fun hhd => ?_⟩
  · obtain ⟨hrel, hso, hoth⟩ := hresv
    grind
  · obtain ⟨hhd, hoth⟩ := hhd
    grind

theorem Pending.justified {count : Bool} {fate : CasFate} (h : Pending strict me s found count)
    (hbel : s.writer.inc.quietPolls < quietPolls) {c : EpochCell ι}
    (htakes : s.takes me fate found count = some c) (after : Register (EpochCell ι)) :
    Justified strict me c (looks s.workspace.cell after found count s.counted) := by
  obtain ⟨o, rfl, hver⟩ := bind_eq_some_iff.mp htakes
  obtain ⟨r₀, hrd, -, hbkd⟩ := h.read
  split at hver
  · next rotate htk =>
    split at hver
    · cases hver
      obtain ⟨hresv, hhd⟩ := le_countedQuiet htk
      have hstill := stoodStill_looks s.workspace.cell after count hrd.symm hbkd
      refine ⟨fun hstrict hoth => ?_, fun hoth => ?_⟩
      · refine (hstill fun hcnt => ?_).mono (hresv hoth)
        -- a step that does not count has the counter it found
        have hqt := hresv hoth
        subst hcnt
        exact (h.compared hstrict rfl o rfl hoth).resolve_right (not_lt.mpr hqt)
      · refine (hstill fun hcnt => ?_).mono (hhd hoth)
        have hqt := hhd hoth
        subst hcnt
        exact absurd hbel (not_lt.mpr hqt)
    · cases hver
  · cases hver
  · cases hver

theorem Inv.settled (h : Inv strict me s) {count : Bool} (fate : CasFate)
    (hph : s.writer.phase = .observed found count)
    (hjudged : Judged me s.workspace.cell s.writer.inc count found
      (claimNext me fate s.workspace s.writer count found).workspace.cell w.inc)
    (hidle : ∀ found count, w.phase ≠ .observed found count) :
    Inv strict me (s.settled me fate found count w) := by
  have hpn := h.pending found count hph
  refine ⟨hjudged.below h.below, ?_, fun found count hw => absurd hw (hidle found count), ?_⟩
  · obtain ⟨r₀, rfl, hpas, hbkd⟩ := hpn.read
    exact hjudged.backed hpas hbkd
  · intro r hr
    rcases List.mem_append.mp hr with hnew | hold
    · obtain ⟨c, hc, rfl⟩ := map_eq_some_iff.mp (mem_toList.mp hnew)
      exact hpn.justified h.below hc _
    · exact h.taken r hold

theorem phase_claimNext (fate : CasFate) (b : Workspace ι) {count : Bool}
    (found' : Option (Observed ι)) (count' : Bool) :
    (claimNext me fate b w count found).writer.phase ≠ .observed found' count' := by
  cases found with
  | none =>
    simp only [claimNext]
    split
    · simp [claimed]
    · simp
  | some o =>
    simp only [claimNext]
    split
    · simp [restartObservation]
    · simp only
      split
      · split
        · simp
        · simp [claimed]
      · simp [restartObservation]
    · have hwaiting : ∀ token, (w.waiting o token count).phase ≠ .observed found' count' := by
        intro token
        unfold waiting
        split
        · simp
        · simp
      split
      · exact hwaiting _
      · exact hwaiting _

theorem Inv.idle (h : Inv strict me s) (hinc : w.inc = s.writer.inc)
    (hidle : ∀ found count, w.phase ≠ .observed found count) :
    Inv strict me { s with writer := w } where
  below := hinc ▸ h.below
  backed := hinc ▸ h.backed
  pending := fun found count hw => absurd hw (hidle found count)
  taken := h.taken

theorem Inv.step (h : Inv strict me s) {a : WatchAction ι} (ha : strict → s.Rechecked me a) :
    Inv strict me (s.step me a) := by
  cases a with
  | write value =>
    have hpas := (Register.Past.refl s.workspace.cell).replace value
    refine ⟨h.below, h.backed.later hpas, fun found count hph => ?_, h.taken⟩
    obtain ⟨⟨r₀, hrd, hr₀, hbkd⟩, hcompared⟩ := h.pending found count hph
    exact ⟨⟨r₀, hrd, hr₀.replace value, hbkd⟩, hcompared⟩
  | claim count =>
    simp only [Watch.step]
    split
    · refine ⟨h.below, h.backed, fun found count' hph => ?_, h.taken⟩
      obtain ⟨rfl, rfl⟩ := WriterPhase.observed.inj hph
      exact ⟨⟨_, rfl, .refl _, h.backed⟩, ha⟩
    · exact h
  | settle fate =>
    simp only [Watch.step]
    split
    · next hph => exact h.settled fate hph (judged_claimNext me _ _ _ _ _) (phase_claimNext _ _)
    · exact h
  | fail fate =>
    simp only [Watch.step]
    split
    · next found count hph =>
      have hwr := (judged_claimNext me fate s.workspace s.writer count found).written
      exact h.settled fate hph (.kept hwr) (by simp)
    · exact h
  | rotated ok =>
    simp only [Watch.step]
    split
    · cases ok with
      | true => exact ⟨show 0 < quietPolls by decide, backed_none rfl _,
          nofun, h.taken⟩
      | false => exact h.idle rfl (by simp)
    · exact h
  | restart => exact h.idle rfl (by simp)

/-- **A cell that was not given is taken after it has stood still**: one in somebody else's hands
after `quietPolls` steps that counted, and a reservation after `handoffQuietPolls`, in the runs
without the exception above. -/
theorem taken_cells_stood_still (b : Workspace ι) (l : List (WatchAction ι)) :
    (∀ r ∈ (run (step me) (start b) l).taken,
      r.1.HeldByOther me → StoodStill me r.1 quietPolls r.2) ∧
    (Steps (step me) (Rechecked me) (start b) l →
      ∀ r ∈ (run (step me) (start b) l).taken,
        r.1.ReservedForOther me → StoodStill me r.1 handoffQuietPolls r.2) := by
  constructor
  · have hinv : Inv False me (run (step me) (start b) l) :=
      run_invariant (fun _ _ h => h.step False.elim) (inv_start b) l
    exact fun r hr => (hinv.taken r hr).held
  · intro hsts
    have hinv : Inv True me (run (step me) (start b) l) :=
      run_invariant_of_steps (fun _ _ h ha => h.step fun _ => ha) (inv_start b) hsts
    exact fun r hr => (hinv.taken r hr).reserved trivial

def onlyCell (c : EpochCell ℕ) : Workspace ℕ := ⟨.new (some c), .new none, .absent⟩

/-- Claimant 0 watches a reservation for 2 and takes it, then watches 1 hold the cell and deposes
it. -/
theorem reservation_watched :
    let look : List (WatchAction ℕ) := [.claim true, .settle .done, .claim false, .settle .done]
    let l := look ++ look ++ look ++ .write (some ⟨1, 5, false, [0], none⟩) ::
      (List.replicate 7 look).flatten
    let s := run (step 0) (start (onlyCell ⟨1, 3, true, [], some 2⟩)) l
    Steps (step 0) (Rechecked 0) (start (onlyCell ⟨1, 3, true, [], some 2⟩)) l ∧
      s.taken.map (fun r => (r.1.holder, r.1.epoch, r.1.released)) = [(1, 5, false), (1, 3, true)] ∧
      (∀ r ∈ s.taken, r.1.HeldByOther 0 → StoodStill 0 r.1 quietPolls r.2) ∧
      (∀ r ∈ s.taken, r.1.ReservedForOther 0 → StoodStill 0 r.1 handoffQuietPolls r.2) := by
  refine ⟨by decide +kernel, by decide +kernel, (taken_cells_stood_still _ _).1, ?_⟩
  exact (taken_cells_stood_still _ _).2 (by decide +kernel)

/-- Claimant 0 counts two quiet observations of a cell that 1 holds. Then 1 hands the cell to 2, and
the next step of 0, which does not count, takes it. -/
theorem reservation_not_watched :
    let s := run (step 0) (start (onlyCell ⟨1, 3, false, [2, 0], none⟩))
      [.claim true, .settle .done, .claim true, .settle .done, .claim true, .settle .done,
        .write (some ⟨1, 3, true, [0], some 2⟩), .claim false, .settle .done]
    (∃ r ∈ s.taken, r.1.ReservedForOther 0 ∧ ¬StoodStill 0 r.1 handoffQuietPolls r.2) ∧
      s.workspace.cell.value = some ⟨0, 4, false, [], none⟩ := by
  decide +kernel

end Watch

end Flint.Syncer
