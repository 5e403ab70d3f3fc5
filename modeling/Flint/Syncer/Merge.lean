import Mathlib.Data.List.Pairwise
import Flint.Basic.Str

/-!
# The three-way merge of two documents

A writer that publishes has its own changes (`upserts` and `deletes`), the version of each path it
started from (`base`), and the document that is published now (`theirs`). The merge lays the changes
over theirs and says what they went over. `mergeChanges` decides the changed paths, and `merge` is
this on the whole document.
-/

namespace Flint.Syncer

open SortedMap List Option

structure LeanEntry where
  key : Str
  etag : Str
  crc64B64 : Str
  size : UInt64
  mode : UInt32
  mtimeUnix : ℤ
  generation : UInt64
  epoch : UInt64
deriving DecidableEq

structure Tombstone where
  etag : Str
  seq : ℕ
deriving DecidableEq

structure LeanManifest where
  seq : ℕ
  entries : SortedMap Str LeanEntry
  soleWriter : Bool
  boundarySource : Option Str
  tombstones : SortedMap Str Tombstone

def LeanManifest.default : LeanManifest := ⟨0, .empty, false, none, .empty⟩

def tombstoneKeepSeqs : ℕ := 10000

inductive DeleteOutcome
  | applied
  /-- Theirs has moved off the base: the delete still applies. -/
  | overTheirs
  /-- Withheld. -/
  | parked
deriving DecidableEq

def deleteOutcomeWith (base : Option Str) (theirs : Option LeanEntry) (parked : Bool) :
    DeleteOutcome :=
  if parked then .parked
  else match theirs, base with
    | some e, some b => if e.etag = b then .applied else .overTheirs
    | none, _ => .applied
    | some _, none => .overTheirs

structure MergedChanges where
  seq : ℕ
  /-- The changed paths, with none where the document cites nothing any more. -/
  overlay : SortedMap Str (Option LeanEntry)
  tombstones : SortedMap Str Tombstone
  overridden : List (Str × LeanEntry)
  deletes : SortedMap Str DeleteOutcome
  recreated : List (Str × Str)
  overTheirs : List (Str × LeanEntry)

def changed (base : Option Str) (e : LeanEntry) : Bool := base.all (· != e.etag)

section MergeChanges

variable (base : Str → Option Str) (theirsAt : SortedMap Str LeanEntry)
  (theirsTombstones : SortedMap Str Tombstone) (upserts : SortedMap Str LeanEntry)
  (parked : SortedSet Str)

def recreatedBy : List (Str × Str) :=
  (upserts.keys.filter fun p => (theirsAt.get? p).isNone).filterMap fun p =>
    (base p).map fun b => (p, ((theirsTombstones.get? p).map Tombstone.etag).getD b)

def overriddenBy : List (Str × LeanEntry) :=
  (upserts.keys.filterMap fun p => (theirsAt.get? p).map fun e => (p, e)).filter
    fun r => changed (base r.1) r.2

structure Merging where
  overlay : SortedMap Str (Option LeanEntry)
  tombstones : SortedMap Str Tombstone
  deletes : SortedMap Str DeleteOutcome
  overTheirs : List (Str × LeanEntry)

/-- One upsert. A path that is cited again has no delete to remember. -/
def Merging.upsert (s : Merging) (r : Str × LeanEntry) : Merging :=
  { s with
    overlay := s.overlay.insert r.1 (some r.2)
    tombstones := s.tombstones.erase r.1 }

def Merging.cited (s : Merging) (p : Str) : Option LeanEntry :=
  (s.overlay.get? p).getD (theirsAt.get? p)

/-- The document stops citing the path, and says what the delete retired. -/
def Merging.retire (seq : ℕ) (s : Merging) (p : Str) : Merging :=
  match s.cited theirsAt p with
  | some retired =>
    { s with
      overlay := s.overlay.insert p none
      tombstones := s.tombstones.insert p ⟨retired.etag, seq⟩ }
  | none => s

def Merging.delete (seq : ℕ) (s : Merging) (p : Str) : Merging :=
  let outcome := deleteOutcomeWith (base p) (theirsAt.get? p) (decide (p ∈ parked))
  let moved := ((theirsAt.get? p).map fun e => (p, e)).toList
  let s := { s with
    deletes := s.deletes.insert p outcome
    overTheirs := if outcome = .overTheirs then s.overTheirs ++ moved else s.overTheirs }
  if outcome = .parked then s else s.retire theirsAt seq p

def mergeChanges (theirsSeq : ℕ) (deletes : SortedSet Str) : MergedChanges :=
  let seq := theirsSeq + 1
  let s := upserts.rows.foldl Merging.upsert ⟨.empty, theirsTombstones, .empty, []⟩
  let s := deletes.rows.foldl (Merging.delete base theirsAt parked seq) s
  { seq := seq
    overlay := s.overlay
    tombstones := s.tombstones.retain fun _ t => seq - t.seq ≤ tombstoneKeepSeqs
    overridden := overriddenBy base theirsAt upserts
    deletes := s.deletes
    recreated := recreatedBy base theirsAt theirsTombstones upserts
    overTheirs := s.overTheirs }

end MergeChanges

structure Merged where
  doc : LeanManifest
  /-- Present in theirs, changed since the base, not mine. -/
  foreign : List (Str × LeanEntry)
  overridden : List (Str × LeanEntry)
  deletes : SortedMap Str DeleteOutcome
  recreated : List (Str × Str)
  overTheirs : List (Str × LeanEntry)

def entriesAt (theirs upserts : SortedMap Str LeanEntry) (deletes : SortedSet Str) :
    SortedMap Str LeanEntry :=
  .ofList ((upserts.keys ++ deletes.rows).filterMap fun p => (theirs.get? p).map fun e => (p, e))

def merge (base : SortedMap Str Str) (theirs : LeanManifest) (upserts : SortedMap Str LeanEntry)
    (deletes parked : SortedSet Str) : Merged :=
  let c := mergeChanges base.get? (entriesAt theirs.entries upserts deletes) theirs.tombstones
    upserts parked theirs.seq deletes
  let foreign := theirs.entries.rows.filter fun r =>
    changed (base.get? r.1) r.2 && (upserts.get? r.1).isNone && decide (r.1 ∉ parked)
  { doc :=
      { theirs with
        seq := c.seq
        soleWriter := false
        boundarySource := none
        entries := theirs.entries.patch c.overlay
        tombstones := c.tombstones }
    foreign := foreign
    overridden := c.overridden
    deletes := c.deletes
    recreated := c.recreated
    overTheirs := c.overTheirs }

/-! ### What the merge decides -/

variable {base : Option Str}

theorem changed_iff {e : LeanEntry} : changed base e ↔ base ≠ some e.etag := by
  unfold changed
  cases base with
  | none | some b => simp

theorem deleteOutcomeWith_eq_overTheirs {theirs : Option LeanEntry}
    {parked : Bool} : deleteOutcomeWith base theirs parked = .overTheirs ↔
      parked = false ∧ ∃ e, theirs = some e ∧ base ≠ some e.etag := by
  unfold deleteOutcomeWith
  cases parked with
  | true => simp
  | false =>
    cases theirs with
    | none => simp
    | some e =>
      cases base with
      | none => simp
      | some b =>
        by_cases hb : e.etag = b
        · simp [hb]
        · simp [hb, Ne.symm hb]

theorem deleteOutcomeWith_eq_parked {theirs : Option LeanEntry}
    {parked : Bool} : deleteOutcomeWith base theirs parked = .parked ↔ parked := by
  unfold deleteOutcomeWith
  cases parked with
  | true => simp
  | false =>
    cases theirs with
    | none => simp
    | some e =>
      cases base with
      | none => simp
      | some b => by_cases hb : e.etag = b <;> simp [hb]

theorem get?_entriesAt (theirs upserts : SortedMap Str LeanEntry) (deletes : SortedSet Str)
    (p : Str) : (entriesAt theirs upserts deletes).get? p =
      if (upserts.get? p).isSome ∨ p ∈ deletes then theirs.get? p else none := by
  unfold entriesAt
  rw [get?_ofList_filterMap]
  exact if_congr (mem_append.trans (or_congr SortedMap.mem_keys Iff.rfl)) rfl rfl

theorem foldl_upsert (rows : List (Str × LeanEntry)) (hrw : rows.Pairwise fun a b => a.1 < b.1)
    (s : Merging) :
    let s' := rows.foldl Merging.upsert s
    s'.deletes = s.deletes ∧ s'.overTheirs = s.overTheirs ∧
    (∀ p, s'.overlay.get? p =
      ((rows.find? fun r => r.1 = p).map fun r => some r.2).or (s.overlay.get? p)) ∧
    ∀ p, s'.tombstones.get? p =
      if (rows.find? fun r => r.1 = p).isSome then none else s.tombstones.get? p := by
  induction rows generalizing s with
  | nil => simp
  | cons r rows ih =>
    obtain ⟨hr, hrw⟩ := pairwise_cons.mp hrw
    obtain ⟨hdeletes, hov, hovl, htmb⟩ := ih hrw (s.upsert r)
    refine ⟨hdeletes, hov, fun p => ?_, fun p => ?_⟩
    · rw [foldl_cons, hovl]
      change or _ ((s.overlay.insert r.1 (some r.2)).get? p) = _
      rw [get?_insert]
      by_cases hp : p = r.1
      · subst hp
        -- no later upsert is at this path
        have hno : rows.find? (fun r' => r'.1 = r.1) = none :=
          find?_eq_none.mpr fun r' hr' => by simpa using (ne_of_lt (hr r' hr')).symm
        simp [hno]
      · rw [find?_cons_of_neg (by simpa using Ne.symm hp), if_neg hp]
    · rw [foldl_cons, htmb]
      change (if _ then none else (s.tombstones.erase r.1).get? p) = _
      rw [get?_erase]
      by_cases hp : p = r.1
      · simp [hp]
      · rw [find?_cons_of_neg (by simpa using Ne.symm hp), if_neg hp]

section Deletes

variable (base : Str → Option Str) (theirsAt : SortedMap Str LeanEntry) (parked : SortedSet Str)
  (seq : ℕ)

def deletedOver (p : Str) : Option (Str × LeanEntry) :=
  if p ∈ parked then none
  else ((theirsAt.get? p).filter (changed (base p))).map fun e => (p, e)

theorem delete_overTheirs (s : Merging) (p : Str) :
    (s.delete base theirsAt parked seq p).overTheirs =
      s.overTheirs ++ (deletedOver base theirsAt parked p).toList := by
  have hretire : ∀ s : Merging, (s.retire theirsAt seq p).overTheirs = s.overTheirs := by
    intro s
    unfold Merging.retire
    split <;> rfl
  have hli : (s.delete base theirsAt parked seq p).overTheirs =
      if deleteOutcomeWith (base p) (theirsAt.get? p) (decide (p ∈ parked)) = .overTheirs then
        s.overTheirs ++ ((theirsAt.get? p).map fun e => (p, e)).toList
      else s.overTheirs := by
    unfold Merging.delete
    dsimp only
    split
    · rfl
    · rw [hretire]
  rw [hli, deletedOver]
  simp only [deleteOutcomeWith_eq_overTheirs, decide_eq_false_iff_not]
  by_cases hp : p ∈ parked
  · simp [hp]
  · cases ht : theirsAt.get? p with
    | none => simp [hp]
    | some e =>
      by_cases hchd : changed (base p) e
      · simp [hp, hchd, changed_iff.mp hchd, Option.filter]
      · have hsm : base p = some e.etag := by
          by_contra hne
          exact hchd (changed_iff.mpr hne)
        rw [hsm] at hchd
        simp [hp, hchd, hsm, Option.filter]

theorem delete_doc (s : Merging) (p q : Str) :
    let s' := s.delete base theirsAt parked seq p
    s'.overlay.get? q = (if q = p ∧ p ∉ parked ∧ (s.cited theirsAt p).isSome then some none
      else s.overlay.get? q) ∧
    s'.tombstones.get? q = if q = p ∧ p ∉ parked then
        ((s.cited theirsAt p).map fun e => ⟨e.etag, seq⟩).or (s.tombstones.get? q)
      else s.tombstones.get? q := by
  unfold Merging.delete
  dsimp only
  by_cases hp : p ∈ parked
  · have hout :
        deleteOutcomeWith (base p) (theirsAt.get? p) (decide (p ∈ parked)) = .parked :=
      deleteOutcomeWith_eq_parked.mpr (decide_eq_true hp)
    rw [if_pos hout]
    simp [hp]
  · have hout :
        deleteOutcomeWith (base p) (theirsAt.get? p) (decide (p ∈ parked)) ≠ .parked :=
      fun h => hp (by simpa using deleteOutcomeWith_eq_parked.mp h)
    rw [if_neg hout]
    unfold Merging.retire
    -- the outcome and the list of versions are not read again
    change _ = (if q = p ∧ p ∉ parked ∧ (s.cited theirsAt p).isSome then some none
      else s.overlay.get? q) ∧ _
    cases hcit : s.cited theirsAt p with
    | none =>
      have hcit' : ∀ d o, Merging.cited theirsAt ⟨s.overlay, s.tombstones, d, o⟩ p = none :=
        fun _ _ => hcit
      simp [hcit']
    | some e =>
      have hcit' : ∀ d o, Merging.cited theirsAt ⟨s.overlay, s.tombstones, d, o⟩ p = some e :=
        fun _ _ => hcit
      simp [hcit', hp, get?_insert]

theorem foldl_delete (paths : List Str) (hpaths : paths.Pairwise (· < ·)) (s : Merging) :
    let s' := paths.foldl (Merging.delete base theirsAt parked seq) s
    s'.overTheirs = s.overTheirs ++ paths.filterMap (deletedOver base theirsAt parked) ∧
    (∀ q, s'.overlay.get? q =
      if q ∈ paths ∧ q ∉ parked ∧ (s.cited theirsAt q).isSome then some none
      else s.overlay.get? q) ∧
    ∀ q, s'.tombstones.get? q = if q ∈ paths ∧ q ∉ parked then
        ((s.cited theirsAt q).map fun e => ⟨e.etag, seq⟩).or (s.tombstones.get? q)
      else s.tombstones.get? q := by
  induction paths generalizing s with
  | nil => simp
  | cons p paths ih =>
    obtain ⟨hp, hpaths⟩ := pairwise_cons.mp hpaths
    have hnot : p ∉ paths := fun hmem => lt_irrefl p (hp p hmem)
    have hdoc := delete_doc base theirsAt parked seq s p
    obtain ⟨hov, hovl, htmb⟩ := ih hpaths (s.delete base theirsAt parked seq p)
    refine ⟨?_, fun q => ?_, fun q => ?_⟩
    · rw [foldl_cons, hov, delete_overTheirs, append_assoc, filterMap_cons]
      cases deletedOver base theirsAt parked p <;> rfl
    · rw [foldl_cons, hovl]
      by_cases hq : q = p
      · subst hq
        simp [hnot, (hdoc q).1]
      · simp [hq, Merging.cited, (hdoc q).1]
    · rw [foldl_cons, htmb]
      by_cases hq : q = p
      · subst hq
        simp [hnot, (hdoc q).2]
      · simp [hq, Merging.cited, (hdoc q).1, (hdoc q).2]

end Deletes

structure ChangesSpec (base : Str → Option Str) (theirsAt : SortedMap Str LeanEntry)
    (theirsTombstones : SortedMap Str Tombstone) (upserts : SortedMap Str LeanEntry)
    (parked : SortedSet Str) (theirsSeq : ℕ) (deletes : SortedSet Str) (c : MergedChanges) :
    Prop where
  overlay : ∀ p, c.overlay.get? p =
    if p ∈ deletes ∧ p ∉ parked ∧ ((upserts.get? p).or (theirsAt.get? p)).isSome then some none
    else (upserts.get? p).map some
  /-- A tombstone is one of a delete, or one of theirs at a path that is not cited again. -/
  tombstones : ∀ p t, c.tombstones.get? p = some t →
    p ∈ deletes ∧ p ∉ parked ∨ upserts.get? p = none ∧ theirsTombstones.get? p = some t
  overTheirs : c.overTheirs = deletes.rows.filterMap (deletedOver base theirsAt parked)

theorem mergeChanges_spec (base : Str → Option Str) (theirsAt : SortedMap Str LeanEntry)
    (theirsTombstones : SortedMap Str Tombstone) (upserts : SortedMap Str LeanEntry)
    (parked : SortedSet Str) (theirsSeq : ℕ) (deletes : SortedSet Str) :
    ChangesSpec base theirsAt theirsTombstones upserts parked theirsSeq deletes
      (mergeChanges base theirsAt theirsTombstones upserts parked theirsSeq deletes) := by
  have hup := foldl_upsert upserts.rows upserts.sorted ⟨.empty, theirsTombstones, .empty, []⟩
  obtain ⟨-, hov₁, hovl₁, htmb₁⟩ := hup
  have hdel := foldl_delete base theirsAt parked (theirsSeq + 1) deletes.rows deletes.sorted
    (upserts.rows.foldl Merging.upsert ⟨.empty, theirsTombstones, .empty, []⟩)
  obtain ⟨hov, hovl, htmb⟩ := hdel
  -- the first loop in terms of the lookups
  have hfnd : ∀ p, (upserts.rows.foldl Merging.upsert
      ⟨.empty, theirsTombstones, .empty, []⟩).overlay.get? p = (upserts.get? p).map some := by
    intro p
    rw [hovl₁, get?_empty, or_none]
    unfold get? KeyedTable.lookup
    rw [Option.map_map]
    rfl
  have hcit : ∀ p, (upserts.rows.foldl Merging.upsert
      ⟨.empty, theirsTombstones, .empty, []⟩).cited theirsAt p =
        (upserts.get? p).or (theirsAt.get? p) := by
    intro p
    rw [Merging.cited, hfnd]
    cases upserts.get? p <;> rfl
  refine ⟨fun p => ?_, fun p t ht => ?_, ?_⟩
  · refine (hovl p).trans ?_
    rw [hcit, hfnd]
    rfl
  · change (retain _ _).get? p = some t at ht
    rw [get?_retain, filter_eq_some_iff, htmb, htmb₁] at ht
    by_cases hp : p ∈ deletes.rows ∧ p ∉ parked
    · exact .inl hp
    · right
      rw [if_neg hp] at ht
      have hno : ¬(upserts.rows.find? fun r => r.1 = p).isSome := by
        intro hso
        rw [if_pos hso] at ht
        cases ht.1
      rw [if_neg hno] at ht
      refine ⟨?_, ht.1⟩
      unfold get? KeyedTable.lookup
      rw [not_isSome_iff_eq_none.mp hno]
      rfl
  · exact hov.trans (congrArg (· ++ _) hov₁)

section Law

variable (base : SortedMap Str Str) (theirs : LeanManifest) (upserts : SortedMap Str LeanEntry)
  (deletes parked : SortedSet Str)

theorem merge_spec : ChangesSpec base.get? (entriesAt theirs.entries upserts deletes)
    theirs.tombstones upserts parked theirs.seq deletes
    (mergeChanges base.get? (entriesAt theirs.entries upserts deletes) theirs.tombstones
      upserts parked theirs.seq deletes) := mergeChanges_spec ..

variable {base theirs upserts deletes parked}

theorem merge_entries (hdsj : ∀ p ∈ deletes, upserts.get? p = none) (p : Str) :
    (merge base theirs upserts deletes parked).doc.entries.get? p = match upserts.get? p with
      | some e => some e
      | none => if p ∈ deletes ∧ p ∉ parked then none else theirs.entries.get? p := by
  change (theirs.entries.patch _).get? p = _
  rw [get?_patch, (merge_spec base theirs upserts deletes parked).overlay, get?_entriesAt]
  cases hup : upserts.get? p with
  | some e =>
    -- an upsert is at no path of the deletes
    have hp : p ∉ deletes := fun hmem => by
      rw [hdsj p hmem] at hup
      cases hup
    simp [hp]
  | none =>
    by_cases hp : p ∈ deletes ∧ p ∉ parked
    · cases theirs.entries.get? p with
      | none => simp
      | some e => simp [hp]
    · have hnot : ¬(p ∈ deletes ∧ p ∉ parked ∧
          ((none : Option LeanEntry).or (if (none : Option LeanEntry).isSome ∨ p ∈ deletes then
            theirs.entries.get? p else none)).isSome) := fun h => hp ⟨h.1, h.2.1⟩
      rw [if_neg hnot, if_neg hp]
      rfl

theorem merge_tombstoned (hdsj : ∀ p ∈ deletes, upserts.get? p = none) {p : Str}
    (hcit : ((merge base theirs upserts deletes parked).doc.entries.get? p).isSome)
    (htb : ((merge base theirs upserts deletes parked).doc.tombstones.get? p).isSome) :
    (theirs.entries.get? p).isSome ∧ (theirs.tombstones.get? p).isSome := by
  obtain ⟨t, ht⟩ := isSome_iff_exists.mp htb
  rw [merge_entries hdsj] at hcit
  rcases (merge_spec base theirs upserts deletes parked).tombstones p t ht with
    ⟨hdel, hpkd⟩ | ⟨hup, ht⟩
  · -- where a delete applies nothing is cited
    rw [hdsj p hdel] at hcit
    simp [hdel, hpkd] at hcit
  · rw [hup] at hcit
    dsimp only at hcit
    split at hcit
    · cases hcit
    · exact ⟨hcit, by rw [ht]; rfl⟩

variable {e : LeanEntry}

theorem mem_overridden {p : Str} :
    (p, e) ∈ (merge base theirs upserts deletes parked).overridden ↔
      (upserts.get? p).isSome ∧ theirs.entries.get? p = some e ∧ base.get? p ≠ some e.etag := by
  change (p, e) ∈ overriddenBy _ _ _ ↔ _
  unfold overriddenBy
  rw [mem_filter, mem_filterMap, changed_iff]
  constructor
  · rintro ⟨⟨p', hp', he⟩, hchd⟩
    obtain ⟨e', he', heq⟩ := map_eq_some_iff.mp he
    cases heq
    have hso := SortedMap.mem_keys.mp hp'
    rw [get?_entriesAt, if_pos (.inl hso)] at he'
    exact ⟨hso, he', hchd⟩
  · rintro ⟨hso, he, hchd⟩
    refine ⟨⟨p, SortedMap.mem_keys.mpr hso, ?_⟩, hchd⟩
    rw [get?_entriesAt, if_pos (.inl hso), he]
    rfl

theorem mem_overTheirs {p : Str} :
    (p, e) ∈ (merge base theirs upserts deletes parked).overTheirs ↔
      p ∈ deletes ∧ p ∉ parked ∧ theirs.entries.get? p = some e ∧ base.get? p ≠ some e.etag := by
  change (p, e) ∈ (mergeChanges _ _ _ _ _ _ _).overTheirs ↔ _
  rw [(merge_spec base theirs upserts deletes parked).overTheirs, mem_filterMap]
  constructor
  · rintro ⟨p', hp', he⟩
    unfold deletedOver at he
    split at he
    · cases he
    · next hpkd =>
      obtain ⟨e', he', heq⟩ := map_eq_some_iff.mp he
      cases heq
      obtain ⟨he', hchd⟩ := filter_eq_some_iff.mp he'
      rw [get?_entriesAt, if_pos (.inr hp')] at he'
      exact ⟨hp', hpkd, he', changed_iff.mp hchd⟩
  · rintro ⟨hp, hpkd, he, hchd⟩
    refine ⟨p, hp, ?_⟩
    unfold deletedOver
    rw [if_neg hpkd, get?_entriesAt, if_pos (.inr hp), he, filter_some_pos (changed_iff.mpr hchd)]
    rfl

/-- The foreign entries are those of theirs that have moved off the base, at the paths that are
neither uploaded nor withheld. -/
theorem mem_foreign {p : Str} :
    (p, e) ∈ (merge base theirs upserts deletes parked).foreign ↔
      theirs.entries.get? p = some e ∧ base.get? p ≠ some e.etag ∧ upserts.get? p = none ∧
        p ∉ parked := by
  change (p, e) ∈ theirs.entries.rows.filter _ ↔ _
  rw [mem_filter, Bool.and_eq_true, Bool.and_eq_true, changed_iff, decide_eq_true_iff,
    isNone_iff_eq_none, and_assoc, get?_eq_some]
  rfl

end Law

/-- **The merge law.** The merged document cites the upsert at a path, nothing where a delete
applies, and theirs everywhere else, one generation above theirs. What the changes went over are
theirs' versions that have moved off the base. -/
theorem merge_law (base : SortedMap Str Str) (theirs : LeanManifest)
    (upserts : SortedMap Str LeanEntry) (deletes parked : SortedSet Str)
    (hdsj : ∀ p ∈ deletes, upserts.get? p = none) :
    let m := merge base theirs upserts deletes parked
    m.doc.seq = theirs.seq + 1 ∧
    (∀ p, m.doc.entries.get? p = match upserts.get? p with
      | some e => some e
      | none => if p ∈ deletes ∧ p ∉ parked then none else theirs.entries.get? p) ∧
    (∀ p, (m.doc.entries.get? p).isSome → (m.doc.tombstones.get? p).isSome →
      (theirs.entries.get? p).isSome ∧ (theirs.tombstones.get? p).isSome) ∧
    (∀ p e, (p, e) ∈ m.overridden ↔ (upserts.get? p).isSome ∧
      theirs.entries.get? p = some e ∧ base.get? p ≠ some e.etag) ∧
    (∀ p e, (p, e) ∈ m.overTheirs ↔ p ∈ deletes ∧ p ∉ parked ∧
      theirs.entries.get? p = some e ∧ base.get? p ≠ some e.etag) ∧
    ∀ p e, ¬(p ∈ deletes ∧ p ∉ parked) → ((p, e) ∈ m.foreign ↔
      theirs.entries.get? p = some e ∧ base.get? p ≠ some e.etag ∧ upserts.get? p = none ∧
        p ∉ parked ∧ m.doc.entries.get? p = some e) := by
  intro m
  refine ⟨rfl, merge_entries hdsj, fun p => merge_tombstoned hdsj,
    fun p e => mem_overridden, fun p e => mem_overTheirs, fun p e hkp => ?_⟩
  rw [mem_foreign, merge_entries hdsj]
  constructor
  · rintro ⟨he, hchd, hup, hpkd⟩
    refine ⟨he, hchd, hup, hpkd, ?_⟩
    rw [hup]
    exact (if_neg hkp).trans he
  · rintro ⟨he, hchd, hup, hpkd, -⟩
    exact ⟨he, hchd, hup, hpkd⟩

/-- An upload at a path that a peer has changed, beside a path that only the peer has, a delete of a
peer's version and one that is withheld. -/
theorem upload_over_peer_version :
    let entry (etag : Char) : LeanEntry := ⟨['k'], [etag], ['c'], 1, 420, 0, 1, 1⟩
    let a := Str.single 'a'
    let b := Str.single 'b'
    let c := Str.single 'c'
    let d := Str.single 'd'
    let theirs : LeanManifest := { LeanManifest.default with
      entries := .ofList [(a, entry '2'), (b, entry '3'), (c, entry '5'), (d, entry '6')] }
    let m := merge (.ofList [(a, ['1'])]) theirs (.ofList [(a, entry '4')]) (.ofList [c, d])
      (.ofList [d])
    (m.doc.seq = 1 ∧ m.doc.entries.get? a = some (entry '4') ∧ m.doc.entries.get? c = none ∧
      m.doc.entries.get? d = some (entry '6')) ∧ (a, entry '2') ∈ m.overridden ∧
      (c, entry '5') ∈ m.overTheirs ∧ (b, entry '3') ∈ m.foreign := by
  intro entry a b c d theirs m
  obtain ⟨hseq, hent, -, hovr, hdel, hfor⟩ := merge_law (.ofList [(a, ['1'])]) theirs
    (.ofList [(a, entry '4')]) (.ofList [c, d]) (.ofList [d]) (by decide)
  refine ⟨⟨hseq, ?_, ?_, ?_⟩, (hovr a _).mpr (by decide), (hdel c _).mpr (by decide), ?_⟩
  · exact (hent a).trans (by decide)
  · exact (hent c).trans (by decide)
  · exact (hent d).trans (by decide)
  · exact (hfor b _ (by decide)).mpr (by decide)

/-- An upload of the version that theirs cites is listed as going over it, and is not foreign. A
delete that is withheld is not listed. -/
theorem own_version_overridden :
    let entry (etag : Str) : LeanEntry := ⟨['k'], etag, ['c'], 1, 420, 0, 1, 1⟩
    let a : Str := ['a']
    let b : Str := ['b']
    let theirs : LeanManifest := { LeanManifest.default with
      entries := .ofList [(a, entry ['2']), (b, entry ['3'])] }
    let upserts : SortedMap Str LeanEntry := .ofList [(a, entry ['2'])]
    let m := merge (.ofList [(a, ['1'])]) theirs upserts (.ofList [b]) (.ofList [b])
    (a, entry ['2']) ∈ m.overridden ∧ upserts.get? a = some (entry ['2']) ∧
      m.doc.entries.get? a = some (entry ['2']) ∧ (a, entry ['2']) ∉ m.foreign ∧
      (b, entry ['3']) ∉ m.overTheirs := by
  decide

/-- The changes of one commit. -/
structure Change where
  base : SortedMap Str Str
  upserts : SortedMap Str LeanEntry
  deletes : SortedSet Str
  parked : SortedSet Str
  disjoint : ∀ p ∈ deletes, upserts.get? p = none

namespace Change

def paths (c : Change) : List Str := c.upserts.keys ++ c.deletes.rows

def commit (theirs : LeanManifest) (c : Change) : LeanManifest :=
  (merge c.base theirs c.upserts c.deletes c.parked).doc

/-- What a commit cites at `p` over a document that cites `v`. -/
def cites (p : Str) (v : Option LeanEntry) (c : Change) : Option LeanEntry :=
  match c.upserts.get? p with
  | some e => some e
  | none => if p ∈ c.deletes ∧ p ∉ c.parked then none else v

theorem foldl_commit (l : List Change) (theirs : LeanManifest) (p : Str) :
    (l.foldl commit theirs).entries.get? p = l.foldl (cites p) (theirs.entries.get? p) := by
  induction l generalizing theirs with
  | nil => rfl
  | cons c l ih =>
    rw [foldl_cons, ih]
    exact congrArg (l.foldl _) (merge_entries c.disjoint p)

theorem cites_of_not_mem {c : Change} {p : Str} (h : p ∉ c.paths) (v : Option LeanEntry) :
    cites p v c = v := by
  rw [paths, mem_append, SortedMap.mem_keys, not_or, not_isSome_iff_eq_none] at h
  rw [cites, h.1]
  exact if_neg fun hp => h.2 hp.1

/-- Commits of which no two touch a path leave the same entries in every order. -/
theorem commits_commute {l l' : List Change} (hpm : l.Perm l')
    (hap : l.Pairwise fun a b => ∀ p ∈ a.paths, p ∉ b.paths) (theirs : LeanManifest) :
    (l.foldl commit theirs).entries = (l'.foldl commit theirs).entries := by
  refine ext_get? fun p => ?_
  rw [foldl_commit, foldl_commit]
  let Commute (a b : Change) : Prop := ∀ v, cites p (cites p v a) b = cites p (cites p v b) a
  have : Std.Symm Commute := ⟨fun _ _ h v => (h v).symm⟩
  have hcomm : l.Pairwise Commute := by
    refine hap.imp fun {a b} h v => ?_
    by_cases ha : p ∈ a.paths
    · rw [cites_of_not_mem (h p ha), cites_of_not_mem (h p ha)]
    · rw [cites_of_not_mem ha, cites_of_not_mem ha]
  refine hpm.foldl_eq' (fun a ha b hb => ?_) _
  exact Pairwise.forall_of_forall (fun _ _ _ => rfl) hcomm ha hb

/-- The upload of `a` and the delete of `b` by two writers, in both orders. -/
theorem upload_and_delete_commute :
    let entry : LeanEntry := ⟨['k'], ['4'], ['c'], 1, 420, 0, 1, 1⟩
    let doc : LeanManifest := { LeanManifest.default with
      entries := .ofList [(.single 'b', entry), (.single 'c', entry)] }
    let up : Change := ⟨.empty, .ofList [(.single 'a', entry)], .empty, .empty, by decide⟩
    let del : Change := ⟨.empty, .empty, .ofList [.single 'b'], .empty, by decide⟩
    ([up, del].foldl commit doc).entries.keys = [.single 'a', .single 'c'] ∧
      ([up, del].foldl commit doc).entries = ([del, up].foldl commit doc).entries := by
  intro entry doc up del
  exact ⟨by decide, commits_commute (.swap ..) (by decide) doc⟩

end Change

end Flint.Syncer
