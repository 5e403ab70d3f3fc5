import Flint.Syncer.Reaper

/-!
# What the chunk reaper leaves alone

A chunk that a reaper deletes must not be named by the live pointer, nor by one that is installed
later. A publish that can still be installed has its chunks: the pointer it read names them and has
not moved, or it stored them itself within the grace (`PublishPhase.Secure`). And what only the live
pointer names is too young for a reaper that read an earlier one (`ReapPhase.Watched`).

The first needs that nothing is stored between a HEAD and its DELETE (`rewritten_chunk_reaped`), and
the second that the pointer has not moved when the clock is read.
-/

namespace Flint.Syncer

open Outcome SortedMap Bucket PublishPhase List Option Function

variable {grace : ℕ} {b : Bucket} {before : ℕ × Pointer} {now : ℕ} {addr : Str}

namespace Bucket

def Keeps (grace : ℕ) (b : Bucket) (t : ℕ) (addr : Str) : Prop :=
  t + grace ≤ b.time ∨ ∃ m, b.chunks.get? addr = some m ∧ t ≤ m

structure Covered (grace : ℕ) (b : Bucket) (before : ℕ × Pointer) (now : ℕ) : Prop where
  le_time : now ≤ b.time
  live : ∀ a ∈ b.live, a ∈ before.2.refs ∨ ∃ m, b.chunks.get? a = some m ∧ now - m < grace

def Old (grace : ℕ) (b : Bucket) (now : ℕ) (addr : Str) : Prop :=
  ∀ m, b.chunks.get? addr = some m → grace ≤ now - m

def Complete (b : Bucket) : Prop := ∀ a ∈ b.live, ∃ m, b.chunks.get? a = some m

theorem Covered.not_live (h : b.Covered grace before now) (hrf : addr ∉ before.2.refs)
    (hold : b.Old grace now addr) : addr ∉ b.live := by
  intro hlv
  rcases h.live addr hlv with hmem | ⟨m, hm, hyng⟩
  · exact hrf hmem
  · exact absurd (hold m hm) (Nat.not_le.mpr hyng)

end Bucket

/-! ### A publish -/

/-- A publish has the chunks that it does not store any more: the pointer it read names them, or it
has stored them. -/
def PublishPhase.Secure (grace : ℕ) (b : Bucket) : PublishPhase → Prop
  | .idle => True
  | .loaded read => b.pointer.Seen read
  | .sending read next puts began =>
    b.pointer.Seen read ∧ (∀ t ∈ began, t ≤ b.time) ∧
      ∀ a ∈ next.refs, a ∈ puts ∨ a ∈ namedBy read ∨ ∃ t ∈ began, b.Keeps grace t a

variable {b' : Bucket} {p : PublishPhase} {read : Option (ℕ × Pointer)}

namespace PublishPhase

theorem Secure.mono (hsn : ∀ x, b.pointer.Seen x → b'.pointer.Seen x) (hti : b.time ≤ b'.time)
    (hkps : ∀ t a, t ≤ b.time → b.Keeps grace t a → b'.Keeps grace t a) (h : p.Secure grace b) :
    p.Secure grace b' := by
  cases p with
  | idle => trivial
  | loaded read => exact hsn read h
  | sending read next puts began =>
    obtain ⟨hrd, hbeg, hrf⟩ := h
    refine ⟨hsn read hrd, fun t ht => (hbeg t ht).trans hti, fun a ha => ?_⟩
    refine (hrf a ha).imp_right (Or.imp_right ?_)
    rintro ⟨t, ht, hke⟩
    exact ⟨t, ht, hkps t a (hbeg t ht) hke⟩

theorem Secure.not_canInstall (h : p.Secure grace b) (hnow : now ≤ b.time) (hlv : addr ∉ b.live)
    (hold : b.Old grace now addr) (hrly : p.relies addr) : ¬p.canInstall grace b := by
  cases p with
  | idle => exact hrly.elim
  | loaded read =>
    intro hcur
    rw [h.eq_read hcur] at hrly
    exact hlv hrly
  | sending read next puts began =>
    obtain ⟨hrd, hbeg, hrf⟩ := h
    rintro ⟨hcur, htim⟩
    rcases hrf addr hrly.1 with hput | hnm | ⟨t, ht, hke⟩
    · exact hrly.2 hput
    · rw [hrd.eq_read hcur] at hnm
      exact hlv hnm
    · have hlt : b.time < t + grace := htim t ht
      rcases hke with hlate | ⟨m, hm, htm⟩
      · exact absurd hlate (Nat.not_le.mpr hlt)
      · have hage : grace ≤ now - m := hold m hm
        have hle : t ≤ b.time := hbeg t ht
        omega

theorem secure_plan (h : b.pointer.Seen read) (next : Pointer) :
    (sending read next (toPut read next) none).Secure grace b := by
  refine ⟨h, nofun, fun a ha => ?_⟩
  rcases mem_append.mp ha with hchunk | htb
  · by_cases hprev : a ∈ prevChunks read
    · refine .inr (.inl ?_)
      cases read with
      | none => cases hprev
      | some l => exact mem_append_left _ hprev
    · refine .inl (mem_append_left _ (mem_filter.mpr ⟨hchunk, ?_⟩))
      simpa using hprev
  · exact .inl (mem_append_right _ htb)

theorem Secure.installed {next : Pointer} {began : Option ℕ}
    (h : (sending read next [] began).Secure grace b)
    (hcur : b.pointer.current read) (htim : ∀ t ∈ began, b.time < t + grace) {a : Str}
    (ha : a ∈ next.refs) : a ∈ b.live ∨ ∃ m, b.chunks.get? a = some m ∧ b.time - m < grace := by
  obtain ⟨hrd, hbeg, hrf⟩ := h
  rcases hrf a ha with hput | hnm | ⟨t, ht, hke⟩
  · cases hput
  · rw [hrd.eq_read hcur] at hnm
    exact .inl hnm
  · have hlt : b.time < t + grace := htim t ht
    rcases hke with hlate | ⟨m, hm, htm⟩
    · exact absurd hlate (Nat.not_le.mpr hlt)
    · have hle : t ≤ b.time := hbeg t ht
      exact .inr ⟨m, hm, by omega⟩

end PublishPhase

/-! ### A reaper -/

/-- Once a reaper has its clock, all that is live and that it did not see named is too young for it,
and what it is about to delete is old. -/
def ReapPhase.Watched (grace : ℕ) (b : Bucket) : ReapPhase → Prop
  | .idle => True
  | .read before _ | .listed before _ _ | .fenced before _ _ => b.pointer.Seen (some before)
  | .sweeping before _ now _ => b.Covered grace before now
  | .deleting before _ now addr _ =>
    b.Covered grace before now ∧ addr ∉ before.2.refs ∧ b.Old grace now addr

namespace ReapPhase

theorem Watched.mono {p : ReapPhase} (hsn : ∀ x, b.pointer.Seen x → b'.pointer.Seen x)
    (hcov : ∀ before now, b.Covered grace before now → b'.Covered grace before now)
    (hold : ∀ now, ∀ addr ∈ p.dooms, b.Old grace now addr → b'.Old grace now addr)
    (h : p.Watched grace b) : p.Watched grace b' := by
  cases p with
  | idle => trivial
  | read before spared | listed before spared objects | fenced before spared objects =>
    exact hsn _ h
  | sweeping before spared now objects => exact hcov before now h
  | deleting before spared now addr objects =>
    exact ⟨hcov before now h.1, h.2.1, hold now addr rfl h.2.2⟩

theorem watched_start (spared : List Str) : (start b spared).Watched grace b := by
  rw [start]
  split
  · next before hbef =>
    have hsn : b.pointer.Seen b.pointer.read := b.pointer.seen_read
    rwa [hbef] at hsn
  · trivial

theorem watched_fence {spared : List Str} {objects : List (Str × ℕ)}
    (h : b.pointer.Seen (some before)) : (fence b before spared objects).Watched grace b := by
  rw [fence]
  split
  · exact h
  · trivial

theorem covered_clock (h : b.pointer.Seen (some before))
    (hcur : b.pointer.current (some before)) : b.Covered grace before b.time := by
  refine ⟨le_rfl, fun a ha => .inl ?_⟩
  rwa [live, ← h.eq_read hcur] at ha

theorem watched_judge (h : b.Covered grace before now) (spared : List Str)
    (objects : List (Str × ℕ)) : (judge grace b before spared now objects).Watched grace b := by
  cases objects with
  | nil => trivial
  | cons o rest =>
    rw [judge]
    split
    · exact h
    · next hskip =>
      split
      · exact h
      · next written hwr =>
        split
        · next hage =>
          refine ⟨h, ?_, ?_⟩
          · intro hmem
            exact hskip (by simp [hmem])
          · intro m hm
            obtain rfl : written = m := mem_unique hwr hm
            exact hage
        · exact h

end ReapPhase

/-! ### What a request does to the bucket -/

/-- A change of the bucket. The chunks in `doomed` are those that a reaper is about to delete. -/
structure Bucket.Keeping (grace : ℕ) (doomed : Set Str) (b b' : Bucket) : Prop where
  seen : ∀ x, b.pointer.Seen x → b'.pointer.Seen x
  time : b.time ≤ b'.time
  keeps : ∀ t a, t ≤ b.time → b.Keeps grace t a → b'.Keeps grace t a
  covered : ∀ before now, b.Covered grace before now → b'.Covered grace before now
  old : ∀ now, ∀ addr ∈ doomed, b.Old grace now addr → b'.Old grace now addr
  complete : b.Complete → b'.Complete

namespace Bucket

variable {doomed : Set Str}

theorem keeping_tick : Keeping grace doomed b b.tick where
  seen _ h := h
  time := Nat.le_succ b.time
  keeps _ _ _ h := h.imp_left Nat.le_succ_of_le
  covered _ _ h := ⟨Nat.le_succ_of_le h.le_time, h.live⟩
  old _ _ _ h := h
  complete h := h

theorem keeping_store {c : Str} (hc : c ∉ doomed) : Keeping grace doomed b (b.store c) where
  seen _ h := h
  time := le_rfl
  keeps t a ht h := by
    refine h.imp_right ?_
    rintro ⟨m, hm, htm⟩
    rw [store, get?_insert]
    split
    · exact ⟨b.time, rfl, ht⟩
    · exact ⟨m, hm, htm⟩
  covered before now h := by
    refine ⟨h.le_time, fun a ha => (h.live a ha).imp_right ?_⟩
    rintro ⟨m, hm, hyng⟩
    rw [store, get?_insert]
    split
    · -- written just now, and the reaper's clock is not ahead of the bucket's
      refine ⟨b.time, rfl, ?_⟩
      rw [Nat.sub_eq_zero_of_le h.le_time]
      exact Nat.zero_lt_of_lt hyng
    · exact ⟨m, hm, hyng⟩
  old now addr haddr h := by
    intro m hm
    have hne : addr ≠ c := fun heq => hc (heq ▸ haddr)
    rw [store, get?_insert, if_neg hne] at hm
    exact h m hm
  complete h a ha := by
    rw [store, get?_insert]
    split
    · exact ⟨b.time, rfl⟩
    · exact h a ha

theorem keeping_install {p : Pointer}
    (hp : ∀ a ∈ p.refs, a ∈ b.live ∨ ∃ m, b.chunks.get? a = some m ∧ b.time - m < grace) :
    Keeping grace doomed b (b.install p) where
  seen _ h := h.put p
  time := le_rfl
  keeps _ _ _ h := h
  covered before now h := by
    refine ⟨h.le_time, fun a ha => ?_⟩
    rcases hp a ha with hlv | ⟨m, hm, hyng⟩
    · exact h.live a hlv
    · have hle : now ≤ b.time := h.le_time
      exact .inr ⟨m, hm, by omega⟩
  old _ _ _ h := h
  complete h a ha := by
    rcases hp a ha with hlv | ⟨m, hm, -⟩
    · exact h a hlv
    · exact ⟨m, hm⟩

theorem keeping_remove {c : Str} (hnow : now ≤ b.time) (hlv : c ∉ b.live)
    (hold : b.Old grace now c) : Keeping grace doomed b (b.remove c) where
  seen _ h := h
  time := le_rfl
  keeps t a ht h := by
    rcases h with hlate | ⟨m, hm, htm⟩
    · exact .inl hlate
    · by_cases hac : a = c
      · -- a publish that stored this chunk is late, since the chunk is old
        subst hac
        have hage : grace ≤ now - m := hold m hm
        refine .inl ?_
        change t + grace ≤ b.time
        omega
      · refine .inr ⟨m, ?_, htm⟩
        rwa [remove, get?_erase, if_neg hac]
  covered before now h := by
    refine ⟨h.le_time, fun a ha => (h.live a ha).imp_right ?_⟩
    rintro ⟨m, hm, hyng⟩
    have hne : a ≠ c := fun heq => hlv (heq ▸ ha)
    refine ⟨m, ?_, hyng⟩
    rwa [remove, get?_erase, if_neg hne]
  old now addr _ h := by
    intro m hm
    rw [remove, get?_erase] at hm
    split at hm
    · cases hm
    · exact h m hm
  complete h a ha := by
    have hne : a ≠ c := fun heq => hlv (heq ▸ ha)
    rw [remove, get?_erase, if_neg hne]
    exact h a ha

end Bucket

/-! ### The run -/

namespace Reaping

variable {ι κ : Type} {s : Reaping ι κ}

structure Guarded (grace : ℕ) (b₀ : Bucket) (s : Reaping ι κ) : Prop where
  publishers : ∀ i, (s.publishers i).Secure grace s.bucket
  reapers : ∀ k, (s.reapers k).Watched grace s.bucket
  complete : b₀.Complete → s.bucket.Complete

def doomed (s : Reaping ι κ) : Set Str := { addr | ∃ k, (s.reapers k).dooms = some addr }

variable {b₀ : Bucket}

theorem guarded_start (b₀ : Bucket) : Guarded grace b₀ (start b₀ : Reaping ι κ) :=
  ⟨fun _ => trivial, fun _ => trivial, id⟩

variable (h : Guarded grace b₀ s)

include h

theorem Guarded.bucket {b : Bucket}
    (hb : s.bucket.Keeping grace s.doomed b) : Guarded grace b₀ { s with bucket := b } where
  publishers i := (h.publishers i).mono hb.seen hb.time hb.keeps
  reapers k := (h.reapers k).mono hb.seen hb.covered fun now addr haddr =>
    hb.old now addr ⟨k, haddr⟩
  complete hcomplete := hb.complete (h.complete hcomplete)

theorem Guarded.setPublisher [DecidableEq ι] {i : ι}
    (hp : p.Secure grace s.bucket) : Guarded grace b₀ (s.setPublisher i p) where
  publishers := (forall_update_iff s.publishers fun _ p => p.Secure grace s.bucket).mpr
    ⟨hp, fun j _ => h.publishers j⟩
  reapers := h.reapers
  complete := h.complete

theorem Guarded.setReaper [DecidableEq κ] {k : κ} {p : ReapPhase}
    (hp : p.Watched grace s.bucket) : Guarded grace b₀ (s.setReaper k p) where
  publishers := h.publishers
  reapers := (forall_update_iff s.reapers fun _ p => p.Watched grace s.bucket).mpr
    ⟨hp, fun j _ => h.reapers j⟩
  complete := h.complete

theorem Guarded.put [DecidableEq ι] {i : ι} {next : Pointer} {puts : List Str} {began : Option ℕ}
    (hi : s.publishers i = .sending read next (addr :: puts) began) (hcm : addr ∉ s.doomed) :
    Guarded grace b₀ ({ s with bucket := s.bucket.store addr }.setPublisher i
      (.sending read next puts (some (began.getD s.bucket.time)))) := by
  have hb := h.bucket (keeping_store hcm)
  have hsec := h.publishers i
  rw [hi] at hsec
  obtain ⟨hrd, hbeg, hrf⟩ := hsec
  have hle : began.getD s.bucket.time ≤ s.bucket.time := by
    cases began with
    | none => exact le_rfl
    | some t => exact hbeg t rfl
  refine hb.setPublisher ⟨hrd, ?_, fun a ha => ?_⟩
  · intro t ht
    cases ht
    exact hle
  · have hstored : a = addr → (s.bucket.store addr).Keeps grace (began.getD s.bucket.time) a := by
      rintro rfl
      refine .inr ⟨s.bucket.time, ?_, hle⟩
      rw [store, get?_insert, if_pos rfl]
    rcases hrf a ha with hput | hnm | ⟨t, ht, hke⟩
    · rcases mem_cons.mp hput with heq | hput
      · exact .inr (.inr ⟨_, rfl, hstored heq⟩)
      · exact .inl hput
    · exact .inr (.inl hnm)
    · refine .inr (.inr ⟨t, ?_, (keeping_store hcm).keeps t a (hbeg t ht) hke⟩)
      rw [mem_def.mp ht]
      rfl

theorem Guarded.delete [DecidableEq κ] {k : κ} {spared : List Str}
    {objects : List (Str × ℕ)} (hk : s.reapers k = .deleting before spared now addr objects) :
    Guarded grace b₀ ({ s with bucket := s.bucket.remove addr }.setReaper k
      (.sweeping before spared now objects)) := by
  have hwat := h.reapers k
  rw [hk] at hwat
  obtain ⟨hcov, hrf, hold⟩ := hwat
  have hkp : s.bucket.Keeping grace s.doomed (s.bucket.remove addr) :=
    keeping_remove hcov.le_time (hcov.not_live hrf hold) hold
  exact (h.bucket hkp).setReaper (hkp.covered before now hcov)

omit h

variable [DecidableEq ι] [DecidableEq κ]

theorem Guarded.step (h : Guarded grace b₀ s) {a : ReapAction ι κ} (ha : s.Meets grace a) :
    Guarded grace b₀ (s.step grace a) := by
  cases a <;> rw [Reaping.step]
  case tick => exact h.bucket keeping_tick
  case load i =>
    split
    · exact h.setPublisher s.bucket.pointer.seen_read
    · exact h
  case plan i next =>
    split
    · next read hi =>
      have hsec := h.publishers i
      rw [hi] at hsec
      exact h.setPublisher (secure_plan hsec next)
    · exact h
  case put i =>
    split
    · next read next addr puts began hi =>
      refine h.put hi ?_
      rintro ⟨k, hk⟩
      exact ha.2 addr (by rw [hi]; rfl) k hk
    · exact h
  case cas i =>
    split
    · next read next began hi =>
      split
      · next hcur =>
        have hsec := h.publishers i
        rw [hi] at hsec
        have htim : ∀ t ∈ began, s.bucket.time < t + grace := by
          have ht := ha.1
          rwa [Timely, hi] at ht
        have hkp : s.bucket.Keeping grace s.doomed (s.bucket.install next) :=
          keeping_install fun a ha => hsec.installed hcur htim ha
        exact (h.bucket hkp).setPublisher trivial
      · exact h.setPublisher trivial
    · exact h
  case read k spared =>
    split
    · exact h.setReaper (ReapPhase.watched_start spared)
    · exact h
  case list k =>
    split
    · next before spared hk =>
      have hwat := h.reapers k
      rw [hk] at hwat
      exact h.setReaper hwat
    · exact h
  case reread k =>
    split
    · next before spared objects hk =>
      have hwat := h.reapers k
      rw [hk] at hwat
      exact h.setReaper (ReapPhase.watched_fence hwat)
    · exact h
  case clock k =>
    split
    · next before spared objects hk =>
      have hwat := h.reapers k
      rw [hk] at hwat
      have hcur : s.bucket.pointer.current (some before) :=
        ha.2 before (by rw [hk]; rfl)
      exact h.setReaper (ReapPhase.covered_clock hwat hcur)
    · exact h
  case head k =>
    split
    · next before spared now objects hk =>
      have hwat := h.reapers k
      rw [hk] at hwat
      exact h.setReaper (ReapPhase.watched_judge hwat spared objects)
    · exact h
  case delete k =>
    split
    · next before spared now addr objects hk => exact h.delete hk
    · exact h

theorem guarded_run {l : List (ReapAction ι κ)}
    (h : Steps (step grace) (Meets grace) (start b₀) l) :
    Guarded grace b₀ (run (step grace) (start b₀) l) :=
  run_invariant_of_steps (P := Guarded grace b₀) (fun _ _ h ha => h.step ha) (guarded_start b₀) h

structure Later (b b' : Bucket) : Prop where
  time : b.time ≤ b'.time
  seen : ∀ x, b.pointer.Seen x → b'.pointer.Seen x
  stale : ∀ x, b.pointer.Seen x → b.pointer.current x = false → b'.pointer.current x = false

theorem later_step (s : Reaping ι κ) (a : ReapAction ι κ) :
    Later s.bucket (s.step grace a).bucket := by
  have hsm : Later s.bucket s.bucket := ⟨le_rfl, fun _ h => h, fun _ _ h => h⟩
  cases a with
  | tick => exact ⟨Nat.le_succ _, fun _ h => h, fun _ _ h => h⟩
  | cas i =>
    rw [Reaping.step]
    split
    · next read next began hi =>
      split
      · exact ⟨le_rfl, fun _ h => h.put next, fun _ h _ => h.not_current_put next⟩
      · exact hsm
    · exact hsm
  | _ =>
    rw [Reaping.step]
    split
    · exact ⟨le_rfl, fun _ h => h, fun _ _ h => h⟩
    · exact hsm

theorem later_run (s : Reaping ι κ) (l : List (ReapAction ι κ)) :
    Later s.bucket (run (step grace) s l).bucket := by
  refine run_invariant (P := fun s' : Reaping ι κ => Later s.bucket s'.bucket) ?_
    ⟨le_rfl, fun _ h => h, fun _ _ h => h⟩ l
  intro s' a h
  have hs : Later s'.bucket (s'.step grace a).bucket := later_step s' a
  exact ⟨h.time.trans hs.time, fun x hx => hs.seen x (h.seen x hx),
    fun x hx hstl => hs.stale x (h.seen x hx) (h.stale x hx hstl)⟩

theorem Later.not_canInstall {b : Bucket} (h : Later b b') (hp : p.Secure grace b)
    (hnot : ¬p.canInstall grace b) : ¬p.canInstall grace b' := by
  cases p with
  | idle => exact id
  | loaded read =>
    intro (hcur : b'.pointer.current read)
    rw [h.stale read hp (Bool.eq_false_iff.mpr hnot)] at hcur
    cases hcur
  | sending read next puts began =>
    rintro ⟨hcur, htim⟩
    refine hnot ⟨?_, fun t ht => h.time.trans_lt (htim t ht)⟩
    by_contra hstl
    rw [h.stale read hp.1 (Bool.eq_false_iff.mpr hstl)] at hcur
    cases hcur

/-- In the runs that are not disturbed, what a reaper is about to delete is not named by the live
pointer, and a publish that takes it for stored is never installed after. -/
theorem reaper_spares_live_chunks (grace : ℕ) (b : Bucket) (l : List (ReapAction ι κ))
    (h : Steps (step grace) (Meets grace) (start b) l) (k : κ) (addr : Str) :
    let s := run (step grace) (start b) l
    (s.reapers k).dooms = some addr →
      addr ∉ s.bucket.live ∧ ∀ i, (s.publishers i).relies addr → ∀ l' : List (ReapAction ι κ),
        ¬(s.publishers i).canInstall grace (run (step grace) s l').bucket := by
  intro s hdooms
  have hguarded : Guarded grace b s := guarded_run h
  obtain ⟨before, now, hcov, hrf, hold⟩ : ∃ before now, s.bucket.Covered grace before now ∧
      addr ∉ before.2.refs ∧ s.bucket.Old grace now addr := by
    have hwat := hguarded.reapers k
    cases hk : s.reapers k with
    | deleting before spared now addr' objects =>
      rw [hk] at hdooms hwat
      obtain rfl : addr' = addr := some.inj hdooms
      exact ⟨before, now, hwat⟩
    | _ =>
      rw [hk] at hdooms
      cases hdooms
  have hlv : addr ∉ s.bucket.live := hcov.not_live hrf hold
  refine ⟨hlv, fun i hrly l' => ?_⟩
  have hsec := hguarded.publishers i
  exact (later_run s l').not_canInstall hsec (hsec.not_canInstall hcov.le_time hlv hold hrly)

instance (s : Reaping ι κ) (a : ReapAction ι κ) : Decidable (s.Timely grace a) := by
  unfold Timely
  split <;> infer_instance

instance {n : ℕ} (s : Reaping ι (Fin n)) (a : ReapAction ι (Fin n)) :
    Decidable (s.Undisturbed a) := by
  unfold Undisturbed
  split <;> infer_instance

instance {n : ℕ} (s : Reaping ι (Fin n)) (a : ReapAction ι (Fin n)) :
    Decidable (s.Meets grace a) := inferInstanceAs (Decidable (_ ∧ _))

def naming (addrs : List Str) : Pointer := ⟨1, addrs.map fun a => ⟨a, a, 1⟩, false, none, 1, none⟩

def orphaned (a b : Str) : Bucket := ⟨10, .ofList [(a, 0), (b, 0)], .new (some (naming [a]))⟩

/-- The reaper dates the orphan `b`, a publish stores `b` and the reaper deletes it; the publish is
then installed, and its pointer names a chunk that is not there. -/
theorem rewritten_chunk_reaped :
    let a := Str.single 'a'
    let b := Str.single 'b'
    let l : List (ReapAction (Fin 1) (Fin 1)) :=
      [.load 0, .plan 0 (naming [a, b]), .read 0 [], .list 0, .reread 0, .clock 0, .head 0, .head 0,
        .put 0, .delete 0, .cas 0]
    let s := run (step 10) (start (orphaned a b)) l
    Steps (step 10) (Timely 10) (start (orphaned a b)) l ∧ b ∈ s.bucket.live ∧
      s.bucket.chunks.get? b = none := by
  decide

/-- The reaper dates the orphan `b` after a publish has taken over `a`: nothing that is live goes.
-/
theorem orphan_reaped :
    let a := Str.single 'a'
    let b := Str.single 'b'
    let c := Str.single 'c'
    let l : List (ReapAction (Fin 1) (Fin 1)) :=
      [.load 0, .plan 0 (naming [a, c]), .read 0 [], .list 0, .reread 0, .clock 0, .put 0, .head 0,
        .cas 0, .head 0]
    let s := run (step 10) (start (orphaned a b)) l
    Steps (step 10) (Meets 10) (start (orphaned a b)) l ∧
      (s.reapers 0).dooms = some b ∧ c ∈ s.bucket.live ∧ b ∉ s.bucket.live := by
  intro a b c l s
  have hsts : Steps (step 10) (Meets 10) (start (orphaned a b)) l := by decide
  have hdooms : (s.reapers 0).dooms = some b := by decide
  exact ⟨hsts, hdooms, by decide, (reaper_spares_live_chunks 10 _ l hsts 0 b hdooms).1⟩

end Reaping

end Flint.Syncer
