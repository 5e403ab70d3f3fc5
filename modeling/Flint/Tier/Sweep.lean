import Mathlib.Data.Nat.Notation
import Mathlib.Logic.Function.Basic
import Flint.Basic.Outcome

/-!
# The sweep behind a live listener

The sweep of foreign keys gives each object of the bucket that no generation row names a stub at its
path, while clients work on the tree and the flusher publishes files and consumes tombstones. It
reads two guards, the keys of the generation rows and the tombstones, and lets a key pass that is in
neither and whose path is free. Much later the stub is linked at the path, if that is still free.

A file that is published under a key after the guards let it pass, and removed before the link,
comes back (`removed_before_link`). So does one whose object is in the bucket before its row is
written, when the removal finds no row. The sweep is right in runs where a key that is open keeps
its file and gets no tombstone, and no file goes away between its PUT and its row (`Guarded`). -/

namespace Flint.Tier.Sweep

open Function Outcome List

inductive Stage
  | out | listed | passed | headed | staged | durable
deriving DecidableEq

/-- The guards that this round has read; a re-read begins with the tombstones. -/
inductive Reads
  | none | known | both | tombstones
deriving DecidableEq

/-- A key stands for the path that it is at, and a file for its inode. -/
structure Hub (κ : Type) where
  names : κ → Option ℕ
  /-- The object of a key, with the file that this hub has published it for. -/
  store : κ → Option (Option ℕ)
  /-- The keys of the generation rows, by file. -/
  rows : List (ℕ × κ)
  tombs : κ → Bool
  /-- The files whose removal is still to be applied. -/
  events : List ℕ
  /-- The registry of the flusher: the rows as it has loaded them, those of stubs apart. -/
  generations : List (ℕ × κ)
  stubs : κ → Bool
  /-- The file that is being flushed, and its key. -/
  flush : Option (ℕ × κ)
  stage : κ → Stage
  reads : Reads
  knownSeen : κ → Bool
  tombsSeen : κ → Bool

variable {κ : Type} [DecidableEq κ]

/-- What `flush_file` does once it has found the file at its path. -/
inductive Flush
  /-- The old key of a renamed file gets a tombstone. -/
  | rekey
  /-- The PUT lands, whatever its answer. -/
  | put
  /-- `record_generation`: a row that cannot be written is only warned of. -/
  | record (ok : Bool)
  /-- `drop_generation`, when the bucket has no object. -/
  | drop (ok : Bool)
  | fail

inductive Action (κ : Type)
  | create (k : κ) (ino : ℕ)
  | rename (k k' : κ)
  | remove (k : κ)
  /-- `tier_apply_remove`, and the part of `tier_apply_rename` about the covered file. -/
  | drain | load
  | begin (k : κ)
  | flush (f : Flush)
  | consume (k : κ) (closed : Bool)
  /-- A sweep that resumes clears the rows of a file that is not at its path. -/
  | resume (ino : ℕ)
  | list
  | readKnown (ok : Bool)
  | readTombs (ok : Bool)
  | admissible (k : κ)
  | head (k : κ)
  | stageStub (k : κ)
  | ingest (batch : κ → Bool)
  /-- An error ends the work on the key, and its rows are rolled back. -/
  | abandon (k : κ)
  | link (k : κ) (ino : ℕ)

namespace Hub

def Row (s : Hub κ) (k : κ) : Prop := k ∈ s.rows.map Prod.snd

instance (s : Hub κ) (k : κ) : Decidable (s.Row k) := inferInstanceAs (Decidable (_ ∈ _))

def known (s : Hub κ) (k : κ) : Bool := s.stage k = .durable || s.Row k

/-- The flusher keeps the object of such a key. -/
def live (s : Hub κ) (k : κ) : Bool := s.stubs k || k ∈ s.generations.map Prod.snd

/-- The rows of the file under other keys have their tombstones. -/
def rekeyed (s : Hub κ) (ino : ℕ) (k : κ) : Bool :=
  s.rows.all fun r => r.1 ≠ ino || r.2 = k || s.tombs r.2

def setStage (s : Hub κ) (k : κ) (g : Stage) : Hub κ :=
  { s with stage := update s.stage k g }

def flushStep (s : Hub κ) (ino : ℕ) (k : κ) : Flush → Hub κ
  | .rekey => { s with tombs := fun k' => s.tombs k' || decide ((ino, k') ∈ s.rows ∧ k' ≠ k) }
  | .put =>
    if s.rekeyed ino k then { s with store := update s.store k (some (some ino)) } else s
  | .record ok =>
    if !s.rekeyed ino k then s else
      let s' := { s with flush := none,
                         generations := (ino, k) :: s.generations.filter (·.1 ≠ ino) }
      -- an object that was found in the bucket is from now on that of the file
      if ok then
        { s' with rows := (ino, k) :: s.rows.filter (·.1 ≠ ino),
                  store := update s.store k ((s.store k).map fun _ => some ino) }
      else s'
  | .drop ok =>
    if s.rekeyed ino k ∧ s.store k = none then
      { s with flush := none, generations := s.generations.filter (·.1 ≠ ino),
               rows := if ok then s.rows.filter (·.1 ≠ ino) else s.rows }
    else s
  | .fail => { s with flush := none }

end Hub

def step (s : Hub κ) : Action κ → Hub κ
  | .create k ino =>
    if s.names k = none then { s with names := update s.names k (some ino) } else s
  | .rename k k' =>
    match s.names k with
    | none => s
    | some ino =>
      if k = k' then s else
        { s with names := update (update s.names k' (some ino)) k none,
                 events := s.events ++ (s.names k').toList }
  | .remove k => { s with names := update s.names k none, events := s.events ++ (s.names k).toList }
  | .drain =>
    match s.events with
    | [] => s
    | ino :: events =>
      { s with tombs := fun k => s.tombs k || decide ((ino, k) ∈ s.rows),
               rows := s.rows.filter (·.1 ≠ ino), events }
  | .load =>
    if s.flush = none then
      { s with generations := s.rows, stubs := fun k => s.stage k = .durable }
    else s
  | .begin k =>
    match s.flush, s.names k with
    | none, some ino => { s with flush := some (ino, k) }
    | _, _ => s
  | .flush f =>
    match s.flush with
    | none => s
    | some (ino, k) => s.flushStep ino k f
  | .consume k closed =>
    if s.flush ≠ none ∨ !s.tombs k then s else
      let tombs := update s.tombs k (!closed)
      -- an object of the registry stays; its tombstone may be closed as superseded
      if s.live k then { s with tombs }
      else { s with store := update s.store k none, tombs }
  | .resume ino => { s with rows := s.rows.filter fun r => r.1 ≠ ino ∨ s.names r.2 = some ino }
  | .list => { s with stage := fun k => if s.store k = none then .out else .listed, reads := .none }
  | .readKnown ok =>
    let seen := if ok then s.known else s.knownSeen
    match s.reads with
    | .none => if ok then { s with reads := .known, knownSeen := seen } else s
    | .tombstones => { s with reads := .both, knownSeen := seen }
    | .known | .both => s
  | .readTombs ok =>
    let seen := if ok then s.tombs else s.tombsSeen
    match s.reads with
    | .known => if ok then { s with reads := .both, tombsSeen := seen } else s
    | .both => { s with reads := .tombstones, tombsSeen := seen }
    | .none | .tombstones => s
  | .admissible k =>
    if s.stage k ≠ .listed ∨ s.reads ≠ .both then s else
      s.setStage k (if s.tombsSeen k || s.knownSeen k || (s.names k).isSome then .out else .passed)
  | .head k =>
    if s.stage k = .passed then s.setStage k (if s.store k = none then .out else .headed) else s
  | .stageStub k => if s.stage k = .headed then s.setStage k .staged else s
  | .ingest batch =>
    { s with stage := fun k => if s.stage k = .staged ∧ batch k then .durable else s.stage k }
  | .abandon k => s.setStage k .out
  | .link k ino =>
    if s.stage k ≠ .durable then s else
      if s.names k = none then
        { s.setStage k .out with names := update s.names k (some ino), rows := (ino, k) :: s.rows }
      else s.setStage k .out

/-! ### What the guards stand for -/

namespace Hub

/-- The sweep will give the key a stub, as far as the guards go that it has read. -/
def Open (s : Hub κ) (k : κ) : Prop :=
  match s.stage k, s.reads with
  | .out, _ | .listed, .none => False
  | .listed, .known => ¬s.knownSeen k
  | .listed, .tombstones => ¬s.tombsSeen k
  | .listed, .both => ¬s.knownSeen k ∧ ¬s.tombsSeen k
  | _, _ => True

/-- There is no file at the path, or it may go: the key is not open, and its object, if this hub has
published it, is recorded. -/
def Movable (s : Hub κ) (k : κ) : Prop :=
  s.names k = none ∨ ¬s.Open k ∧ (∀ p ∈ s.flush, p.2 ≠ k) ∧
    ((s.store k).join = none ∨ s.tombs k ∨ s.Row k)

end Hub

/-- A key that is open keeps its file and gets no tombstone, no file goes while it is flushed or
before its object is recorded, the flusher does not close the tombstone of a key whose row is gone
since it loaded the rows, and the guards can be read again. -/
def Guarded (s : Hub κ) : Action κ → Prop
  | .rename k k' => s.Movable k ∧ s.Movable k'
  | .remove k => s.Movable k
  | .drain => ∀ ino ∈ s.events.head?, ∀ r ∈ s.rows, r.1 = ino → ¬s.Open r.2
  | .flush .rekey => ∀ p ∈ s.flush, ∀ r ∈ s.rows, r.1 = p.1 → r.2 ≠ p.2 → ¬s.Open r.2
  | .consume k closed => s.live k → closed → s.Row k
  | .resume ino => ∀ r ∈ s.rows, r.1 = ino → s.names r.2 ≠ some ino →
      (s.store r.2).join = none ∨ s.tombs r.2
  | .readKnown ok | .readTombs ok => ok
  | _ => True

/-! ### The invariant -/

namespace Hub

/-- The object of the key was published for a file that is not at the path. -/
def Lost (s : Hub κ) (k : κ) : Prop := ∃ ino, s.store k = some (some ino) ∧ s.names k ≠ some ino

def Safe (s : Hub κ) (k : κ) : Prop := ¬s.tombs k ∧ ¬s.Lost k

/-- What is known of an open key. After the rows alone, a lost object may still have its tombstone;
after the tombstones alone, it may still have its row. -/
def Clear (s : Hub κ) (k : κ) : Prop :=
  match s.stage k, s.reads with
  | .listed, .known => s.Row k → ¬s.Lost k
  | .listed, .tombstones => ¬s.tombs k
  | _, _ => s.Safe k

structure Inv (s : Hub κ) : Prop where
  flush : ∀ p ∈ s.flush, s.names p.2 = some p.1
  tracked : ∀ k, s.Lost k → s.tombs k ∨ s.Row k
  clear : ∀ k, s.Open k → s.Clear k

/-- A client or the flusher takes the hub to `s'`: a lost object stays tracked, and an open key gets
no tombstone, does not lose its object and gets the row of its own file only. -/
structure Keeps (s s' : Hub κ) : Prop where
  sweep : s'.stage = s.stage ∧ s'.reads = s.reads ∧ s'.knownSeen = s.knownSeen ∧
    s'.tombsSeen = s.tombsSeen
  flush : ∀ p ∈ s'.flush, s'.names p.2 = some p.1
  tracked : ∀ k, s'.Lost k → s'.tombs k ∨ s'.Row k
  lost : ∀ k, s.Open k → s'.Lost k → s.Lost k
  tombs : ∀ k, s.Open k → s'.tombs k → s.tombs k
  row : ∀ k, s.Open k → s'.Row k → s.Row k ∨ ¬s'.Lost k

variable {s s' : Hub κ} {k : κ} {ino : ℕ}

omit [DecidableEq κ] in
theorem row_iff : s.Row k ↔ ∃ i, (i, k) ∈ s.rows := by simp [Row]

theorem known_iff : s.known k ↔ s.stage k = .durable ∨ s.Row k := by simp [known]

omit [DecidableEq κ] in
theorem join_store : (s.store k).join = none ↔ ∀ i, s.store k ≠ some (some i) := by
  rcases s.store k with _ | _ | i <;> simp

omit [DecidableEq κ] in
theorem Inv.keeps (h : s.Inv) (hs : s.Keeps s') : s'.Inv where
  flush := hs.flush
  tracked := hs.tracked
  clear k hop := by
    obtain ⟨hstage, hrds, hkn, htmb⟩ := hs.sweep
    have hop : s.Open k := by simpa only [Open, hstage, hrds, hkn, htmb] using hop
    have hclr := h.clear k hop
    simp only [Clear, hstage, hrds] at hclr ⊢
    split at hclr
    · intro hrow hlost
      rcases hs.row k hop hrow with hrow | hnot
      · exact hclr hrow (hs.lost k hop hlost)
      · exact hnot hlost
    · exact fun ht => hclr (hs.tombs k hop ht)
    · exact ⟨fun ht => hclr.1 (hs.tombs k hop ht), fun hl => hclr.2 (hs.lost k hop hl)⟩

/-! A client changes the name at paths where it may. -/

omit [DecidableEq κ] in
theorem Inv.of_names (h : s.Inv) {names : κ → Option ℕ} {events : List ℕ}
    (hnms : ∀ k, names k = s.names k ∨ s.Movable k) :
    Inv { s with names, events } := by
  have hlost : ∀ k, Lost { s with names, events } k →
      s.Lost k ∨ ¬s.Open k ∧ (s.tombs k ∨ s.Row k) := by
    rintro k ⟨i, hsto, hne⟩
    rcases hnms k with heq | hfr | ⟨hop, -, htrk⟩
    · exact .inl ⟨i, hsto, heq ▸ hne⟩
    · exact .inl ⟨i, hsto, by simp [hfr]⟩
    · exact .inr ⟨hop, htrk.resolve_left fun hno => join_store.mp hno i hsto⟩
  refine h.keeps ⟨⟨rfl, rfl, rfl, rfl⟩, fun p hp => ?_, fun k hk => ?_, fun k hop hk => ?_,
    fun _ _ ht => ht, fun _ _ hrow => .inl hrow⟩
  · have hfi := h.flush p hp
    rcases hnms p.2 with heq | hfr | ⟨-, hfl, -⟩
    · exact heq.trans hfi
    · cases hfr.symm.trans hfi
    · exact absurd rfl (hfl p hp)
  · rcases hlost k hk with hk | ⟨-, htrk⟩
    · exact h.tracked k hk
    · exact htrk
  · exact (hlost k hk).resolve_right fun hnot => hnot.1 hop

theorem movable_update (hk : s.Movable k) (o : Option ℕ) (k₀ : κ) :
    update s.names k o k₀ = s.names k₀ ∨ s.Movable k₀ := by
  by_cases heq : k₀ = k
  · exact .inr (heq ▸ hk)
  · exact .inl (update_of_ne heq ..)

theorem Inv.create (h : s.Inv) : (step s (.create k ino)).Inv :=
  iteInduction (fun hfr => h.of_names (movable_update (.inl hfr) _)) fun _ => h

theorem Inv.rename (h : s.Inv) {k' : κ} (ha : Guarded s (.rename k k')) :
    (step s (.rename k k')).Inv := by
  simp only [step]
  split
  · exact h
  · refine iteInduction (fun _ => h) fun _ => h.of_names fun k₀ => ?_
    by_cases hk : k₀ = k
    · exact .inr (hk ▸ ha.1)
    · rw [update_of_ne hk]
      exact movable_update ha.2 _ k₀

theorem Inv.remove (h : s.Inv) (ha : Guarded s (.remove k)) : (step s (.remove k)).Inv :=
  h.of_names (movable_update ha _)

/-! A row that goes leaves a tombstone behind, and the row of a flush is that of the file at the
path. -/

theorem Inv.drain (h : s.Inv) (ha : Guarded s .drain) : (step s .drain).Inv := by
  simp only [step]
  split
  · exact h
  · next ino events hevents =>
    have ha : ∀ r ∈ s.rows, r.1 = ino → ¬s.Open r.2 := ha ino (by rw [hevents]; rfl)
    refine h.keeps ⟨⟨rfl, rfl, rfl, rfl⟩, h.flush, fun k hk => ?_, fun _ _ hk => hk,
      fun k hop ht => ?_, fun k _ hrow => .inl ?_⟩
    · simp only [Bool.or_eq_true, decide_eq_true_eq, row_iff, mem_filter]
      rcases h.tracked k hk with ht | hrow
      · exact .inl (.inl ht)
      · obtain ⟨i, hi⟩ := row_iff.mp hrow
        by_cases hino : i = ino
        · exact .inl (.inr (hino ▸ hi))
        · exact .inr ⟨i, hi, hino⟩
    · simp only [Bool.or_eq_true, decide_eq_true_eq] at ht
      exact ht.resolve_right fun hmem => ha _ hmem rfl hop
    · obtain ⟨i, hi⟩ := row_iff.mp hrow
      exact row_iff.mpr ⟨i, (mem_filter.mp hi).1⟩

/-- A key whose object is replaced by none, or by that of the file at its path, is not lost. -/
theorem lost_of_update {o : Option (Option ℕ)} (ho : ∀ i, o = some (some i) → s.names k = some i)
    {k₀ : κ} (hk₀ : ∃ i, update s.store k o k₀ = some (some i) ∧ s.names k₀ ≠ some i) :
    k₀ ≠ k ∧ s.Lost k₀ := by
  obtain ⟨i, hi, hne⟩ := hk₀
  have hk : k₀ ≠ k := by
    rintro rfl
    rw [update_self] at hi
    exact hne (ho i hi)
  exact ⟨hk, i, by rwa [update_of_ne hk] at hi, hne⟩

theorem Inv.consume {closed : Bool} (h : s.Inv) (ha : Guarded s (.consume k closed)) :
    (step s (.consume k closed)).Inv := by
  refine iteInduction (fun _ => h) fun hrdy => ?_
  have htb : s.tombs k := by simpa using (not_or.mp hrdy).2
  have hle : ∀ k₀, update s.tombs k (!closed) k₀ → s.tombs k₀ := by
    intro k₀ ht
    by_cases hk : k₀ = k
    · exact hk ▸ htb
    · rwa [update_of_ne hk] at ht
  have htrk : ∀ k₀ ≠ k, s.Lost k₀ → update s.tombs k (!closed) k₀ ∨ s.Row k₀ := by
    intro k₀ hk hk₀
    rw [update_of_ne hk]
    exact h.tracked k₀ hk₀
  refine iteInduction (fun hlv => ?_) fun _ => ?_
  · refine h.keeps ⟨⟨rfl, rfl, rfl, rfl⟩, h.flush, fun k₀ hk₀ => ?_, fun _ _ hk => hk,
      fun k₀ _ => hle k₀, fun _ _ hrow => .inl hrow⟩
    by_cases hk : k₀ = k
    · subst hk
      cases closed with
      | true => exact .inr (ha hlv rfl)
      | false => exact .inl (update_self ..)
    · exact htrk k₀ hk hk₀
  · have hlost {k₀} := @lost_of_update _ _ s k none nofun k₀
    exact h.keeps ⟨⟨rfl, rfl, rfl, rfl⟩, h.flush,
      fun k₀ hk₀ => htrk k₀ (hlost hk₀).1 (hlost hk₀).2, fun k₀ _ hk₀ => (hlost hk₀).2,
      fun k₀ _ => hle k₀, fun _ _ hrow => .inl hrow⟩

theorem rekeyed_row (h : s.rekeyed ino k) {k₀ : κ} (hk : k₀ ≠ k) (hrow : s.Row k₀) :
    s.tombs k₀ ∨ ∃ i, (i, k₀) ∈ s.rows.filter (·.1 ≠ ino) := by
  obtain ⟨i, hi⟩ := row_iff.mp hrow
  by_cases hino : i = ino
  · have := all_eq_true.mp h _ hi
    exact .inl (by simpa [hino, hk] using this)
  · exact .inr ⟨i, mem_filter.mpr ⟨hi, by simpa using hino⟩⟩

theorem Inv.flushStep {f : Flush} (h : s.Inv) (hfl : s.flush = some (ino, k))
    (ha : Guarded s (.flush f)) : (s.flushStep ino k f).Inv := by
  have hfi : s.names k = some ino := h.flush (ino, k) hfl
  have hsub : ∀ k₀, (∃ i, (i, k₀) ∈ s.rows.filter (·.1 ≠ ino)) → s.Row k₀ :=
    fun k₀ ⟨i, hi⟩ => row_iff.mpr ⟨i, (mem_filter.mp hi).1⟩
  cases f with
  | rekey =>
    refine h.keeps ⟨⟨rfl, rfl, rfl, rfl⟩, h.flush, fun k₀ hk₀ => ?_, fun _ _ hk => hk,
      fun k₀ hop ht => ?_, fun _ _ hrow => .inl hrow⟩
    · exact (h.tracked k₀ hk₀).imp_left fun ht => by simp [Hub.flushStep, ht]
    · simp only [Hub.flushStep, Bool.or_eq_true, decide_eq_true_eq] at ht
      exact ht.resolve_right fun hmem => ha _ hfl _ hmem.1 rfl hmem.2 hop
  | put =>
    refine iteInduction (fun _ => ?_) fun _ => h
    have hlost {k₀} := @lost_of_update _ _ s k (some (some ino))
      (fun i hi => by cases hi; exact hfi) k₀
    exact h.keeps ⟨⟨rfl, rfl, rfl, rfl⟩, h.flush, fun k₀ hk₀ => h.tracked k₀ (hlost hk₀).2,
      fun k₀ _ hk₀ => (hlost hk₀).2, fun _ _ ht => ht, fun _ _ hrow => .inl hrow⟩
  | record ok =>
    refine iteInduction (fun _ => h) fun hrekeyed => ?_
    have hrekeyed : s.rekeyed ino k := by simpa using hrekeyed
    cases ok with
    | false => exact ⟨nofun, h.tracked, h.clear⟩
    | true =>
      have hlost {k₀} := @lost_of_update _ _ s k ((s.store k).map fun _ => some ino) (fun i hi => by
          obtain ⟨_, -, hi⟩ := Option.map_eq_some_iff.mp hi
          cases hi
          exact hfi) k₀
      refine h.keeps ⟨⟨rfl, rfl, rfl, rfl⟩, nofun, fun k₀ hk₀ => ?_, fun k₀ _ hk₀ => (hlost hk₀).2,
        fun _ _ ht => ht, fun k₀ _ hrow => ?_⟩
      · obtain ⟨hk, hk₀⟩ := hlost hk₀
        rcases h.tracked k₀ hk₀ with ht | hrow
        · exact .inl ht
        · exact (rekeyed_row hrekeyed hk hrow).imp_right fun ⟨i, hi⟩ => row_iff.mpr ⟨i, .tail _ hi⟩
      · obtain ⟨i, hi⟩ := row_iff.mp hrow
        rcases mem_cons.mp hi with heq | hi
        · cases heq
          exact .inr fun hk => (hlost hk).1 rfl
        · exact .inl (hsub k₀ ⟨i, hi⟩)
  | drop ok =>
    refine iteInduction (fun hrdy => ?_) fun _ => h
    cases ok with
    | false => exact ⟨nofun, h.tracked, h.clear⟩
    | true =>
      refine h.keeps ⟨⟨rfl, rfl, rfl, rfl⟩, nofun, fun k₀ hk₀ => ?_, fun _ _ hk => hk,
        fun _ _ ht => ht, fun k₀ _ hrow => .inl (hsub k₀ (row_iff.mp hrow))⟩
      have hk : k₀ ≠ k := by
        rintro rfl
        obtain ⟨i, hi, -⟩ := hk₀
        cases hrdy.2.symm.trans hi
      rcases h.tracked k₀ hk₀ with ht | hrow
      · exact .inl ht
      · exact (rekeyed_row hrdy.1 hk hrow).imp_right row_iff.mpr
  | fail => exact ⟨nofun, h.tracked, h.clear⟩

theorem Inv.begin (h : s.Inv) : (step s (.begin k)).Inv := by
  simp only [step]
  split
  · next hfi => exact ⟨fun p hp => by cases hp; exact hfi, h.tracked, h.clear⟩
  · exact h

theorem Inv.resume (h : s.Inv) (ha : Guarded s (.resume ino)) : (step s (.resume ino)).Inv := by
  refine h.keeps ⟨⟨rfl, rfl, rfl, rfl⟩, h.flush, fun k hk => ?_, fun _ _ hk => hk,
    fun _ _ ht => ht, fun k _ hrow => .inl ?_⟩
  · rcases h.tracked k hk with ht | hrow
    · exact .inl ht
    · obtain ⟨i, hi⟩ := row_iff.mp hrow
      by_cases hkp : i ≠ ino ∨ s.names k = some ino
      · exact .inr (row_iff.mpr ⟨i, mem_filter.mpr ⟨hi, by simpa using hkp⟩⟩)
      · obtain ⟨hino, hnms⟩ := not_or.mp hkp
        obtain ⟨j, hj, -⟩ := hk
        rcases ha _ hi (not_not.mp hino) hnms with hno | ht
        · exact absurd hj (join_store.mp hno j)
        · exact .inl ht
  · obtain ⟨i, hi⟩ := row_iff.mp hrow
    exact row_iff.mpr ⟨i, (mem_filter.mp hi).1⟩

/-! ### The steps of the sweep -/

omit [DecidableEq κ] in
theorem Inv.safe (h : s.Inv) (hop : s.Open k) (hboth : s.stage k = .listed → s.reads = .both) :
    s.Safe k := by
  have hclr := h.clear k hop
  rw [Clear] at hclr
  split at hclr
  · next hlis hrds => cases hrds.symm.trans (hboth hlis)
  · next hlis hrds => cases hrds.symm.trans (hboth hlis)
  · exact hclr

omit [DecidableEq κ] in
/-- A key goes on in flight, or out of the sweep. -/
theorem Inv.restage (h : s.Inv) {stage : κ → Stage} (hstage : ∀ k, stage k = s.stage k ∨
    stage k = .out ∨ stage k ≠ .listed ∧ s.Safe k) : Inv { s with stage } := by
  refine ⟨h.flush, h.tracked, fun k hop => ?_⟩
  rcases hstage k with heq | hout | ⟨hne, hsafe⟩
  · have := h.clear k (by simpa only [Open, heq] using hop)
    rwa [Clear, ← heq] at this
  · simp [Open, hout] at hop
  · rw [Clear]
    split
    · next hlis _ => exact absurd hlis hne
    · next hlis _ => exact absurd hlis hne
    · exact hsafe

theorem Inv.setStage (h : s.Inv) {g : Stage} (hg : g = .out ∨ g ≠ .listed ∧ s.Safe k) :
    (s.setStage k g).Inv := by
  refine h.restage fun k₀ => ?_
  by_cases hk : k₀ = k
  · subst hk
    rw [update_self]
    exact .inr hg
  · exact .inl (update_of_ne hk ..)

omit [DecidableEq κ] in
theorem open_of_not_listed (hk : s.stage k ≠ .listed) : s.Open k ↔ s.stage k ≠ .out := by
  rw [Open]
  split <;> simp_all

omit [DecidableEq κ] in
theorem clear_of_not_listed (hk : s.stage k ≠ .listed) : s.Clear k ↔ s.Safe k := by
  rw [Clear]
  split <;> simp_all

omit [DecidableEq κ] in
theorem Inv.flight (h : s.Inv) (hout : s.stage k ≠ .out) (hk : s.stage k ≠ .listed) : s.Safe k :=
  (clear_of_not_listed hk).mp (h.clear k ((open_of_not_listed hk).mpr hout))

omit [DecidableEq κ] in
/-- A key in flight does not depend on the guards any more. -/
theorem Inv.reread (h : s.Inv) {reads : Reads} {knownSeen tombsSeen : κ → Bool}
    (hs' : s' = { s with reads, knownSeen, tombsSeen })
    (hlis : ∀ k, s.stage k = .listed → s'.Open k → s'.Clear k) : s'.Inv := by
  subst hs'
  refine ⟨h.flush, h.tracked, fun k hop => ?_⟩
  by_cases hk : s.stage k = .listed
  · exact hlis k hk hop
  · have hout : s.stage k ≠ .out := fun hout => by simp [Open, hout] at hop
    refine (clear_of_not_listed ?_).mpr (h.flight hout hk)
    exact hk

/-- When the second guard of a round is read, an object that is lost has its row in the one or its
tombstone in the other. -/
theorem Inv.readKnown (h : s.Inv) : (step s (.readKnown true)).Inv := by
  simp only [step, ↓reduceIte]
  split
  · refine h.reread rfl fun k hk hop => ?_
    simp only [Open, Clear, hk] at hop ⊢
    exact fun hrow => absurd (known_iff.mpr (.inr hrow)) hop
  · next hrds =>
    refine h.reread rfl fun k hk hop => ?_
    simp only [Open, hk] at hop
    have hclr := h.clear k (by simpa only [Open, hk, hrds] using hop.2)
    simp only [Clear, hk, hrds] at hclr ⊢
    refine ⟨hclr, fun hlost => ?_⟩
    rcases h.tracked k hlost with ht | hrow
    · exact hclr ht
    · exact hop.1 (known_iff.mpr (.inr hrow))
  · exact h
  · exact h

theorem Inv.readTombs (h : s.Inv) : (step s (.readTombs true)).Inv := by
  simp only [step, ↓reduceIte]
  split
  · next hrds =>
    refine h.reread rfl fun k hk hop => ?_
    simp only [Open, hk] at hop
    have hclr := h.clear k (by simpa only [Open, hk, hrds] using hop.1)
    simp only [Clear, hk, hrds] at hclr ⊢
    refine ⟨hop.2, fun hlost => ?_⟩
    rcases h.tracked k hlost with ht | hrow
    · exact hop.2 ht
    · exact hclr hrow hlost
  · refine h.reread rfl fun k hk hop => ?_
    simpa only [Open, Clear, hk] using hop
  · exact h
  · exact h

theorem Inv.admissible (h : s.Inv) : (step s (.admissible k)).Inv := by
  refine iteInduction (fun _ => h) fun hrdy => h.setStage ?_
  obtain ⟨hlis, hrds⟩ := not_or.mp hrdy
  rw [not_not] at hlis hrds
  split
  · exact .inl rfl
  · next hgds =>
    simp only [Bool.or_eq_true, not_or] at hgds
    have hop : s.Open k := by simpa only [Open, hlis, hrds] using hgds.1.symm
    exact .inr ⟨nofun, h.safe hop fun _ => hrds⟩

theorem Inv.link (h : s.Inv) : (step s (.link k ino)).Inv := by
  have hout : (s.setStage k .out).Inv := h.setStage (.inl rfl)
  refine iteInduction (fun _ => h) fun _ => iteInduction (fun hfr => ?_) fun _ => hout
  have hnm : Inv { s.setStage k .out with names := update s.names k (some ino) } :=
    hout.of_names (movable_update (s := s.setStage k .out) (.inl hfr) _)
  refine hnm.keeps ⟨⟨rfl, rfl, rfl, rfl⟩, hnm.flush, fun k₀ hk₀ => ?_, fun _ _ hk => hk,
    fun _ _ ht => ht, fun k₀ hop hrow => .inl ?_⟩
  · exact (hnm.tracked k₀ hk₀).imp_right (.tail _)
  · refine (mem_cons.mp hrow).resolve_left fun hk => ?_
    subst hk
    simp [Open, Hub.setStage] at hop

end Hub

variable {s : Hub κ} {a : Action κ}

theorem step_inv (h : s.Inv) (ha : Guarded s a) : (step s a).Inv := by
  cases a with
  | create k ino => exact h.create
  | rename k k' => exact h.rename ha
  | remove k => exact h.remove ha
  | drain => exact h.drain ha
  | load => exact iteInduction (fun _ => ⟨h.flush, h.tracked, h.clear⟩) fun _ => h
  | begin k => exact h.begin
  | flush f =>
    simp only [step]
    split
    · exact h
    · next hfl => exact h.flushStep hfl ha
  | consume k closed => exact h.consume ha
  | resume ino => exact h.resume ha
  | list =>
    refine ⟨h.flush, h.tracked, fun k hop => ?_⟩
    simp only [step, Hub.Open] at hop
    split at hop <;> simp_all
  | readKnown ok =>
    obtain rfl : ok := ha
    exact h.readKnown
  | readTombs ok =>
    obtain rfl : ok := ha
    exact h.readTombs
  | admissible k => exact h.admissible
  | head k =>
    refine iteInduction (fun hpassed => h.setStage ?_) fun _ => h
    split
    · exact .inl rfl
    · exact .inr ⟨nofun, h.flight (by simp [hpassed]) (by simp [hpassed])⟩
  | stageStub k =>
    refine iteInduction (fun hheaded => h.setStage (.inr ⟨nofun, ?_⟩)) fun _ => h
    exact h.flight (by simp [hheaded]) (by simp [hheaded])
  | ingest batch =>
    refine h.restage fun k => ?_
    split
    · next hstaged =>
      exact .inr (.inr ⟨nofun, h.flight (by simp [hstaged.1]) (by simp [hstaged.1])⟩)
    · exact .inl rfl
  | abandon k => exact h.setStage (.inl rfl)
  | link k ino => exact h.link

def fresh (names : κ → Option ℕ) (foreign : κ → Bool) : Hub κ :=
  { names, store := fun k => if foreign k then some none else none, rows := [],
    tombs := fun _ => false, events := [], generations := [], stubs := fun _ => false,
    flush := none, stage := fun _ => .out, reads := .none, knownSeen := fun _ => false,
    tombsSeen := fun _ => false }

omit [DecidableEq κ] in
theorem fresh_inv (names : κ → Option ℕ) (foreign : κ → Bool) : (fresh names foreign).Inv := by
  refine ⟨nofun, fun k ⟨i, hi, _⟩ => ?_, fun k hop => hop.elim⟩
  simp only [fresh] at hi
  split at hi <;> cases hi

/-- **A stub is linked for a foreign object only**: its key has no tombstone, and the object is none
that this hub has published. A name that is there stays what it is. -/
theorem linked_is_foreign (names : κ → Option ℕ) (foreign : κ → Bool) (l : List (Action κ)) (k : κ)
    (ino : ℕ) (hl : Steps step Guarded (fresh names foreign) l) :
    let s := run step (fresh names foreign) l
    (s.stage k = .durable → s.names k = none → ¬s.tombs k ∧ ∀ i, s.store k ≠ some (some i)) ∧
      ∀ k' i, s.names k' = some i → (step s (.link k ino)).names k' = some i := by
  have hinv : Hub.Inv _ :=
    run_invariant_of_steps (fun _ _ => step_inv) (fresh_inv names foreign) hl
  intro s
  refine ⟨fun hdur hfr => ?_, fun k' i hi => ?_⟩
  · obtain ⟨htmb, hlost⟩ := hinv.flight (k := k) (by rw [hdur]; nofun) (by rw [hdur]; nofun)
    exact ⟨htmb, fun i hi => hlost ⟨i, hi, by rw [hfr]; nofun⟩⟩
  · simp only [step]
    split
    · exact hi
    split
    · next hfr =>
      refine (update_of_ne ?_ ..).trans hi
      rintro rfl
      cases hfr.symm.trans hi
    · exact hi

/-- While the foreign object is adopted, a file is published at another path and removed, and its
tombstone is consumed. -/
def adopted : List (Action Bool) :=
  [.create true 1, .load, .begin true, .flush .put, .flush (.record true), .list, .readKnown true,
    .readTombs true, .remove true, .admissible false, .drain, .load, .head false,
    .consume true true, .stageStub false, .ingest fun _ => true]

theorem adopted_is_foreign :
    let s := run step (fresh (fun _ => none) (· = false)) adopted
    s.stage false = .durable ∧ s.names false = none ∧ ¬s.tombs false ∧
      ∀ i, s.store false ≠ some (some i) := by
  have h := linked_is_foreign (fun _ => none) (· = false) adopted false 2
    ⟨trivial, trivial, trivial, trivial, trivial, trivial, rfl, rfl,
      .inr ⟨fun h => h.1 rfl, nofun, by decide⟩, trivial,
      fun _ _ r hr _ hop => by
        cases mem_singleton.mp hr
        exact hop.1 rfl,
      trivial, trivial, nofun, trivial, trivial, trivial⟩
  exact ⟨by decide, by decide, h.1 (by decide) (by decide)⟩

/-- The object of a removed file is listed and deleted. Before the HEAD of its key, a new file is
published under it, and removed before the link. -/
def raced : List (Action ℕ) :=
  [.create 0 1, .load, .begin 0, .flush .put, .flush (.record true), .remove 0, .drain, .list,
    .load,
    .consume 0 true, .readKnown true, .readTombs true, .admissible 0, .create 0 2, .begin 0,
    .flush .put, .flush (.record true), .head 0, .remove 0, .drain, .stageStub 0,
    .ingest fun _ => true]

/-- The key of the removed file is linked, to an object that the hub wrote itself. -/
theorem removed_before_link : let s := run step (fresh (fun _ => none) fun _ => false) raced
    s.tombs 0 ∧ s.store 0 = some (some 2) ∧ s.names 0 = none ∧
      (step s (.link 0 3)).names 0 = some 3 := by decide

end Flint.Tier.Sweep
