import Flint.Syncer.Commit

/-!
# Withholding uploads that clash

No document may cite both a file `a` and a file `a/x`. A writer that is about to install a merged
document looks for such pairs with `pathClashes`, withholds one upload of each (`withholdClashes`),
loads the document again and merges again, until there is no clash (`commitRounds`). Each round
withholds an upload, so the rounds end.
-/

namespace Flint.Syncer

open KeyedTable SortedMap List

structure ConflictRecord where
  path : Str
  foreignEtag : Str
  preservedKey : Option Str
  kind : String

def pathClashKind : String :=
  "upload-withheld-path-clash: the document still cites a path this one would sit inside " ++
  "(or around) — a published file replaced by a directory, or the reverse. No workspace can " ++
  "hold both, so nothing is cited here until that citation goes; the path stays dirty and " ++
  "publishes next barrier"

structure Barrier (β : Type) where
  upserts : SortedMap Str LeanEntry
  newBaselineEntries : SortedMap Str β
  parked : SortedSet Str
  uploaded : List Str
  publishedBytes : ℕ
  reportParked : List Str
  conflicts : List ConflictRecord

variable {β : Type}

def withhold (b : Barrier β) (path : Str) : Option (Barrier β) :=
  (b.upserts.get? path).map fun gone =>
    { upserts := b.upserts.erase path
      newBaselineEntries := b.newBaselineEntries.erase path
      parked := b.parked.put path
      uploaded := b.uploaded.filter (· ≠ path)
      publishedBytes := b.publishedBytes - gone.size.toNat
      reportParked := b.reportParked ++ [path]
      conflicts := b.conflicts ++ [⟨path, gone.etag, none, pathClashKind⟩] }

def withholdClashes (clash : List Str) (b : Barrier β) : Option (Barrier β) :=
  clash.foldlM withhold b

structure Round where
  doc : LeanManifest
  clash : List Str

structure Committed (β : Type) where
  doc : LeanManifest
  barrier : Barrier β
  rounds : List Round

def commitRounds (base : SortedMap Str Str) (deletes : SortedSet Str) :
    ℕ → (ℕ → LeanManifest) → Barrier β → Option (Committed β)
  | 0, _, _ => none
  | fuel + 1, theirs, b =>
    let doc := (merge base (theirs 0) b.upserts deletes b.parked).doc
    let clash := pathClashes doc.entries b.upserts
    if clash.isEmpty then some ⟨doc, b, []⟩
    else do
      let b ← withholdClashes clash b
      -- the next round loads the document again
      let r ← commitRounds base deletes fuel (fun i => theirs (i + 1)) b
      return { r with rounds := ⟨doc, clash⟩ :: r.rounds }

/-! ### What the search finds -/

section Search

variable {V U : Type} {cited : SortedMap Str V} {upserts : SortedMap Str U} {p q : Str}

def under (cited : SortedMap Str V) (p : Str) : List Str := (rowsUnder cited p.dir).map Prod.fst

theorem mem_under : q ∈ under cited p ↔ (cited.get? q).isSome ∧ Ancestor p q := by
  rw [under, map_fst_rowsUnder, mem_filter, SortedMap.mem_keys, Str.startsWith_iff, ancestor_iff]

theorem mem_pathClashes : q ∈ pathClashes cited upserts ↔ ∃ p, (cited.get? p).isSome ∧
    (under cited p).isEmpty = false ∧ (if (upserts.get? p).isSome then some p
      else (under cited p).find? fun q => (upserts.get? q).isSome) = some q := by
  rw [pathClashes, sortDedup, mem_rows, SortedSet.mem_ofList, mem_filterMap]
  refine exists_congr fun p => and_congr SortedMap.mem_keys ?_
  rw [clashAt, ← under]
  cases (under cited p).isEmpty with
  | true | false => simp

theorem clash_of_mem (h : q ∈ pathClashes cited upserts) : (upserts.get? q).isSome ∧
    (cited.get? q).isSome ∧ ∃ p, (cited.get? p).isSome ∧ (Ancestor p q ∨ Ancestor q p) := by
  obtain ⟨p, hp, hund, hq⟩ := mem_pathClashes.mp h
  split at hq
  · next hups =>
    cases hq
    obtain ⟨x, hx⟩ := exists_mem_of_ne_nil _ (by simpa using hund)
    obtain ⟨hcit, hanc⟩ := mem_under.mp hx
    exact ⟨hups, hp, x, hcit, .inr hanc⟩
  · obtain ⟨hcit, hanc⟩ := mem_under.mp (mem_of_find?_eq_some hq)
    have hups := find?_some (p := fun q => (upserts.get? q).isSome) hq
    exact ⟨hups, hcit, p, hp, .inl hanc⟩

theorem clash_of_ancestor (hp : (cited.get? p).isSome) (hq : (cited.get? q).isSome)
    (hanc : Ancestor p q) (hups : (upserts.get? p).isSome ∨ (upserts.get? q).isSome) :
    pathClashes cited upserts ≠ [] := by
  have hund : q ∈ under cited p := mem_under.mpr ⟨hq, hanc⟩
  have hemp : (under cited p).isEmpty = false := by
    rw [isEmpty_eq_false_iff]
    exact ne_nil_of_mem hund
  by_cases hsf : (upserts.get? p).isSome
  · have hmem : p ∈ pathClashes cited upserts := mem_pathClashes.mpr ⟨p, hp, hemp, if_pos hsf⟩
    exact ne_nil_of_mem hmem
  · have hfd : ((under cited p).find? fun q => (upserts.get? q).isSome).isSome :=
      find?_isSome.mpr ⟨q, hund, hups.resolve_left hsf⟩
    obtain ⟨x, hx⟩ := Option.isSome_iff_exists.mp hfd
    have hmem : x ∈ pathClashes cited upserts :=
      mem_pathClashes.mpr ⟨p, hp, hemp, (if_neg hsf).trans hx⟩
    exact ne_nil_of_mem hmem

theorem nodup_pathClashes : (pathClashes cited upserts).Nodup := nodup _

end Search

/-! ### A round -/

section Rounds

variable {base : SortedMap Str Str} {theirs : LeanManifest} {upserts : SortedMap Str LeanEntry}
  {deletes parked : SortedSet Str} {p : Str}

theorem theirs_of_merged
    (hcit : ((merge base theirs upserts deletes parked).doc.entries.get? p).isSome)
    (hno : upserts.get? p = none) : (theirs.entries.get? p).isSome := by
  change ((theirs.entries.patch _).get? p).isSome at hcit
  rw [get?_patch, (merge_spec base theirs upserts deletes parked).overlay, hno] at hcit
  split at hcit
  · cases hcit
  · exact hcit

theorem materialisable_of_no_clash (hthr : Materialisable theirs.entries)
    (hcla : pathClashes (merge base theirs upserts deletes parked).doc.entries upserts = []) :
    Materialisable (merge base theirs upserts deletes parked).doc.entries := by
  intro p q hp hq hanc
  by_cases hups : (upserts.get? p).isSome ∨ (upserts.get? q).isSome
  · exact clash_of_ancestor hp hq hanc hups hcla
  · rw [not_or, Option.not_isSome_iff_eq_none, Option.not_isSome_iff_eq_none] at hups
    exact hthr p q (theirs_of_merged hp hups.1) (theirs_of_merged hq hups.2) hanc

structure Withheld (clash : List Str) (b b' : Barrier β) : Prop where
  upserts : ∀ q, b'.upserts.get? q = if q ∈ clash then none else b.upserts.get? q
  length : b'.upserts.rows.length + clash.length = b.upserts.rows.length
  parked : ∀ q, q ∈ b'.parked ↔ q ∈ clash ∨ q ∈ b.parked

theorem withhold_spec {b : Barrier β} {path : Str} (h : (b.upserts.get? path).isSome) :
    ∃ b', withhold b path = some b' ∧ Withheld [path] b b' := by
  obtain ⟨gone, hgo⟩ := Option.isSome_iff_exists.mp h
  refine ⟨_, by rw [withhold, hgo, Option.map_some], ?_, ?_, ?_⟩
  · intro q
    rw [get?_erase]
    exact if_congr mem_singleton.symm rfl rfl
  · have hpm := perm_cons_deleteKey (get?_eq_some.mp hgo)
    have hlen := hpm.length_eq
    rw [length_cons] at hlen
    exact hlen.symm
  · intro q
    change q ∈ b.parked.put path ↔ _
    rw [mem_put, mem_singleton]
    by_cases hq : q = path
    · simp [hq]
    · simp [hq]

theorem withholdClashes_spec {clash : List Str} (hcla : clash.Nodup) {b : Barrier β}
    (h : ∀ p ∈ clash, (b.upserts.get? p).isSome) :
    ∃ b', withholdClashes clash b = some b' ∧ Withheld clash b b' := by
  induction clash generalizing b with
  | nil => exact ⟨b, rfl, fun q => by simp, rfl, fun q => by simp⟩
  | cons p clash ih =>
    obtain ⟨hp, hcla⟩ := nodup_cons.mp hcla
    obtain ⟨b₁, hb₁, hone⟩ := withhold_spec (h p (.head _))
    -- the other paths are not withheld yet
    have hrs : ∀ q ∈ clash, (b₁.upserts.get? q).isSome := by
      intro q hq
      have hqp : q ≠ p := by
        rintro rfl
        exact hp hq
      rw [hone.upserts, if_neg (by simpa using hqp)]
      exact h q (.tail p hq)
    obtain ⟨b₂, hb₂, hmany⟩ := ih hcla hrs
    refine ⟨b₂, ?_, fun q => ?_, ?_, fun q => ?_⟩
    · rw [withholdClashes, foldlM_cons, hb₁]
      exact hb₂
    · rw [hmany.upserts, hone.upserts]
      by_cases hq : q ∈ clash
      · simp [hq]
      · by_cases hqp : q = p
        · simp [hqp]
        · simp [hq, hqp]
    · have hlen := hmany.length
      have hlen₁ := hone.length
      rw [length_singleton] at hlen₁
      rw [length_cons]
      omega
    · rw [hmany.parked, hone.parked, mem_singleton, mem_cons]
      tauto

end Rounds

/-! ### The commit loop -/

structure RoundsSpec (b : Barrier β) (r : Committed β) : Prop where
  materialisable : Materialisable r.doc.entries
  length : r.rounds.length + r.barrier.upserts.rows.length ≤ b.upserts.rows.length
  upserts : ∀ p, r.barrier.upserts.get? p =
    if ∃ j ∈ r.rounds, p ∈ j.clash then none else b.upserts.get? p
  parked : ∀ p, p ∈ r.barrier.parked ↔ (∃ j ∈ r.rounds, p ∈ j.clash) ∨ p ∈ b.parked
  /-- What is withheld is an upload that clashes with an entry of the round's document. -/
  clash : ∀ j ∈ r.rounds, ∀ p ∈ j.clash, (b.upserts.get? p).isSome ∧
    ∃ q, (j.doc.entries.get? q).isSome ∧ (Ancestor p q ∨ Ancestor q p)

theorem commitRounds_spec (base : SortedMap Str Str) (deletes : SortedSet Str) {fuel : ℕ}
    {theirs : ℕ → LeanManifest} (hthr : ∀ i, Materialisable (theirs i).entries) {b : Barrier β}
    (hfuel : b.upserts.rows.length < fuel) :
    ∃ r, commitRounds base deletes fuel theirs b = some r ∧ RoundsSpec b r := by
  induction fuel generalizing theirs b with
  | zero => exact absurd hfuel (Nat.not_lt_zero _)
  | succ fuel ih =>
    rw [commitRounds]
    split
    · next hemp =>
      have hcla := List.isEmpty_iff.mp hemp
      refine ⟨_, rfl, materialisable_of_no_clash (hthr 0) hcla, ?_, ?_, ?_, ?_⟩
      · simp
      · simp
      · simp
      · simp
    · next hcla =>
      generalize hdoc : (merge base (theirs 0) b.upserts deletes b.parked).doc = doc at hcla ⊢
      generalize hnms : pathClashes doc.entries b.upserts = clash at hcla ⊢
      have hmem : ∀ p ∈ clash, (b.upserts.get? p).isSome ∧ (doc.entries.get? p).isSome ∧
          ∃ q, (doc.entries.get? q).isSome ∧ (Ancestor q p ∨ Ancestor p q) :=
        fun p hp => clash_of_mem (hnms ▸ hp)
      obtain ⟨b₁, hb₁, hhd⟩ := withholdClashes_spec (hnms ▸ nodup_pathClashes)
        fun p hp => (hmem p hp).1
      have hpos : 0 < clash.length := length_pos_iff.mpr (by simpa using hcla)
      have hlen := hhd.length
      obtain ⟨r, hr, hsp⟩ := ih (fun i => hthr (i + 1)) (b := b₁) (by omega)
      refine ⟨{ r with rounds := ⟨doc, clash⟩ :: r.rounds }, ?_, hsp.materialisable, ?_, ?_, ?_, ?_⟩
      · rw [hb₁, Option.bind_eq_bind, Option.bind_some, hr]
        rfl
      · have hrounds := hsp.length
        change (r.rounds.length + 1) + r.barrier.upserts.rows.length ≤ b.upserts.rows.length
        omega
      · intro p
        change r.barrier.upserts.get? p = _
        rw [hsp.upserts, hhd.upserts]
        by_cases hp : p ∈ clash
        · simp [hp]
        · simp [hp]
      · intro p
        change p ∈ r.barrier.parked ↔ _
        rw [hsp.parked, hhd.parked, exists_mem_cons_iff, or_assoc, or_left_comm]
      · intro j hj p hp
        rcases mem_cons.mp hj with rfl | hj
        · obtain ⟨hups, -, q, hq, hanc⟩ := hmem p hp
          exact ⟨hups, q, hq, hanc.symm⟩
        · obtain ⟨hups, hcla⟩ := hsp.clash j hj p hp
          refine ⟨?_, hcla⟩
          rw [hhd.upserts] at hups
          split at hups
          · cases hups
          · exact hups

/-- From documents that can be laid out, the loop comes to one that can be laid out, in at most one
round per upload; and what it withholds clashes with an entry of the document judged against. -/
theorem installed_materialisable (base : SortedMap Str Str) (deletes : SortedSet Str)
    (theirs : ℕ → LeanManifest) (hthr : ∀ i, Materialisable (theirs i).entries) (b : Barrier β) :
    ∃ r, commitRounds base deletes (b.upserts.rows.length + 1) theirs b = some r ∧
      r.rounds.length ≤ b.upserts.rows.length ∧ Materialisable r.doc.entries ∧
      (∀ p, r.barrier.upserts.get? p =
        if ∃ j ∈ r.rounds, p ∈ j.clash then none else b.upserts.get? p) ∧
      (∀ p, p ∈ r.barrier.parked ↔ (∃ j ∈ r.rounds, p ∈ j.clash) ∨ p ∈ b.parked) ∧
      ∀ j ∈ r.rounds, ∀ p ∈ j.clash, (b.upserts.get? p).isSome ∧
        ∃ q, (j.doc.entries.get? q).isSome ∧ (Ancestor p q ∨ Ancestor q p) := by
  obtain ⟨r, hr, hsp⟩ := commitRounds_spec base deletes hthr (Nat.lt_succ_self _) (b := b)
  have hlen := hsp.length
  exact ⟨r, hr, by omega, hsp.materialisable, hsp.upserts, hsp.parked, hsp.clash⟩

/-- A file `a` was replaced by a directory: the upload of `a/x` is withheld, beside `a-b`. -/
theorem directory_withheld :
    let e : LeanEntry := ⟨default, default, default, 1, 0, 0, 0, 0⟩
    let a : Str := Str.single 'a'
    let ax : Str := List.append a ['/', 'x']
    let ab : Str := List.append a ['-', 'b']
    let theirs : ℕ → LeanManifest := fun _ =>
      { LeanManifest.default with entries := .ofList [(a, e)] }
    let b : Barrier Unit := ⟨.ofList [(ax, e), (ab, e)], .empty, .empty, [ax, ab], 2, [], []⟩
    (∀ i, Materialisable (theirs i).entries) ∧
      (commitRounds .empty .empty 3 theirs b).map (fun r => r.rounds.map Round.clash) = some
        [[ax]] ∧
      ∃ r, commitRounds .empty .empty 3 theirs b = some r ∧ r.rounds.length ≤ 2 ∧
        Materialisable r.doc.entries := by
  intro e a ax ab theirs b
  have hthr : ∀ i, Materialisable (theirs i).entries := fun _ => by decide
  obtain ⟨r, hr, hlen, hdoc, -⟩ := installed_materialisable .empty .empty theirs hthr b
  exact ⟨hthr, by decide, r, hr, hlen, hdoc⟩

end Flint.Syncer
