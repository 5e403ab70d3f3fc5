import Flint.Syncer.Lookups

/-!
# The commit over a view is the commit over the document

A commit over a view reads the chunks that its paths fall in, and decides from them what the
whole-document commit reads off the merged document: the decisions of the merge
(`mergeView_answers`), the paths of mine that cannot be cited (`clashesView_answers`), and the
handles that are no longer cited (`retired_answers`).
-/

namespace Flint.Syncer

open SortedMap DocView Answers KeyedTable List

variable {C : ViewCfg} {theirs : LeanManifest} {chunks : List EntryMap}

theorem prefetch_answers (h : StoredAs C theirs chunks) (paths : List Str) :
    Answers (Sees C theirs chunks) (prefetch C paths) () := by
  refine Ensures.get_bind fun v hv => ?_
  by_cases hne : chunks = []
  · subst hne
    rw [if_pos (by rw [hv.refs]; rfl)]
    exact ⟨(), v, rfl, rfl, hv⟩
  · rw [if_neg (by rw [hv.refs]; simpa [refsOf] using hne)]
    have hwant : ∀ i ∈ (SortedSet.ofList (paths.map (home v.refs))).rows.filter
        (fun i => (v.parsed.get? i).isNone), i < chunks.length := by
      intro i hi
      have hmem : i ∈ paths.map (home v.refs) := SortedSet.mem_ofList.mp (mem_filter.mp hi).1
      obtain ⟨p, -, rfl⟩ := mem_map.mp hmem
      rw [hv.refs]
      exact home_lt hne
    obtain ⟨v', hrun, hv', -⟩ := readChunks_spec h hwant hv
    exact ⟨(), v', hrun, rfl, hv'⟩

theorem foldl_entriesAt (theirs upserts : EntryMap) (deletes : SortedSet Str) :
    (upserts.keys ++ deletes.rows).foldl
      (fun (m : EntryMap) p => (theirs.get? p).elim m (m.insert p ·)) .empty =
        entriesAt theirs upserts deletes := by
  unfold entriesAt ofList
  rw [foldl_filterMap]
  congr 1
  funext m p
  cases theirs.get? p <;> rfl

theorem mergeView_answers (h : StoredAs C theirs chunks) (base : Str → Option Str)
    (upserts : SortedMap Str LeanEntry) (deletes parked : SortedSet Str) :
    Answers (Sees C theirs chunks) (mergeView C base upserts deletes parked)
      (mergeChanges base (entriesAt theirs.entries upserts deletes) theirs.tombstones upserts parked
        theirs.seq deletes) := by
  refine bind (prefetch_answers h _) ?_
  refine bind (a := entriesAt theirs.entries upserts deletes) ?_ ?_
  · rw [← foldl_entriesAt]
    refine foldlM fun m p _ => bind (get_answers h p) ?_
    cases theirs.entries.get? p with
    | none => exact pure m
    | some e => exact pure (m.insert p e)
  · refine Ensures.get_bind fun v hv => ?_
    rw [hv.seq, hv.tombstones]
    exact pure _ v hv

/-! ### Clashes -/

variable {p : Str}

section Clashes

variable {overlay : SortedMap Str (Option LeanEntry)} {upserts : SortedMap Str LeanEntry}

theorem cites_answers (h : StoredAs C theirs chunks) (p : Str) :
    Answers (Sees C theirs chunks) (cites C overlay p)
      ((theirs.entries.patch overlay).get? p).isSome := by
  rw [get?_patch]
  unfold cites
  cases overlay.get? p with
  | some v => exact pure v.isSome
  | none => exact bind (get_answers h p) (pure _)

variable {V : Type}

theorem rowsUnder_eq (m : SortedMap Str V) (p : Str) :
    rowsUnder m p = m.rows.filter fun r => r.1.startsWith p := by
  have habv : ∀ r : Str × V, decide (p ≤ r.1) ↔ p ≤ r.1 := fun r => decide_eq_true_iff
  exact LexPrefix.takeWhile_isPrefix (α := Char) habv (fun r => Str.startsWith_iff) m.sorted

def citedUnder {V : Type} (m : SortedMap Str V) (p : Str) : Bool :=
  m.keys.any fun k => k.startsWith p

theorem citedUnder_iff {m : SortedMap Str V} :
    citedUnder m p ↔ ∃ k, (m.get? k).isSome ∧ k.startsWith p := by
  unfold citedUnder
  rw [any_eq_true]
  exact exists_congr fun k => and_congr_left' SortedMap.mem_keys

theorem patch_isSome_iff (d : EntryMap) (k : Str) : ((d.patch overlay).get? k).isSome ↔
    (overlay.get? k).any Option.isSome ∨ overlay.get? k = none ∧ (d.get? k).isSome := by
  rw [get?_patch]
  cases overlay.get? k <;> simp

theorem citesUnder_answers (h : StoredAs C theirs chunks) (p : Str) :
    Answers (Sees C theirs chunks) (citesUnder C overlay p)
      (citedUnder (theirs.entries.patch overlay) p) := by
  have hovl : ((rowsUnder overlay p).any fun r => r.2.isSome) ↔
      ∃ k, (overlay.get? k).any Option.isSome ∧ k.startsWith p := by
    rw [rowsUnder_eq, any_filter, any_rows]
    refine exists_congr fun k => ?_
    cases overlay.get? k <;> simp [and_comm]
  have hthr : (theirs.entries.keys.find? (wanted p fun k => (overlay.get? k).isSome)).isSome ↔
      ∃ k, overlay.get? k = none ∧ (theirs.entries.get? k).isSome ∧ k.startsWith p := by
    rw [find?_isSome]
    refine exists_congr fun k => ?_
    rw [SortedMap.mem_keys, wanted, Bool.and_eq_true, Bool.not_eq_true', Option.isSome_eq_false_iff,
      Option.isNone_iff_eq_none]
    tauto
  have hcit : citedUnder (theirs.entries.patch overlay) p ↔
      ((rowsUnder overlay p).any fun r => r.2.isSome) ∨
      (theirs.entries.keys.find? (wanted p fun k => (overlay.get? k).isSome)).isSome := by
    rw [citedUnder_iff, hovl, hthr, ← exists_or]
    refine exists_congr fun k => ?_
    rw [patch_isSome_iff]
    tauto
  unfold citesUnder
  split
  · next hund =>
    rw [hcit.mpr (.inl hund)]
    exact pure true
  · next hund =>
    have hfnd : citedUnder (theirs.entries.patch overlay) p = (theirs.entries.keys.find?
        (wanted p fun k => (overlay.get? k).isSome)).isSome := by
      rw [Bool.eq_iff_iff, hcit, or_iff_right hund]
    rw [hfnd]
    exact bind (firstUnder_answers h p _) (pure _)

theorem Str.mem_ancestorsFrom {a : List Char} (front l : List Char) :
    a ∈ Str.ancestorsFrom front l ↔
      ∃ m rest : List Char, l = m ++ '/' :: rest ∧ a = front ++ m := by
  induction l generalizing front with
  | nil => simp [Str.ancestorsFrom]
  | cons c l ih =>
    -- the ancestors after the first letter
    have hlat : (a ∈ Str.ancestorsFrom (front ++ [c]) l ↔
        ∃ m rest : List Char, l = m ++ '/' :: rest ∧ a = front ++ c :: m) := by
      rw [ih]
      simp only [append_assoc, singleton_append]
    have hspl : (∃ m rest : List Char, c :: l = m ++ '/' :: rest ∧ a = front ++ m) ↔
        c = '/' ∧ a = front ∨ ∃ m rest : List Char, l = m ++ '/' :: rest ∧ a = front ++ c :: m := by
      constructor
      · rintro ⟨m, rest, hl, rfl⟩
        rcases cons_eq_append_iff.mp hl with ⟨rfl, heq⟩ | ⟨m', rfl, rfl⟩
        · exact .inl ⟨(cons.inj heq).1.symm, append_nil front⟩
        · exact .inr ⟨m', rest, rfl, rfl⟩
      · rintro (⟨rfl, rfl⟩ | ⟨m, rest, rfl, rfl⟩)
        · exact ⟨[], l, rfl, (append_nil _).symm⟩
        · exact ⟨c :: m, rest, rfl, rfl⟩
    rw [hspl, ← hlat, Str.ancestorsFrom]
    by_cases hc : c = '/'
    · rw [if_pos hc, mem_cons]
      exact or_congr_left (and_iff_right hc).symm
    · rw [if_neg hc]
      exact (or_iff_right fun h => hc h.1).symm

theorem Str.mem_ancestors {a u : Str} : a ∈ u.ancestors ↔ u.startsWith a.dir := by
  rw [Str.startsWith_iff]
  refine (Str.mem_ancestorsFrom [] u).trans ?_
  constructor
  · rintro ⟨m, rest, hu, rfl⟩
    exact ⟨rest, (append_assoc _ _ _).trans hu.symm⟩
  · rintro ⟨rest, hu⟩
    exact ⟨a, rest, hu.symm.trans (append_assoc _ _ _), rfl⟩

def ancestorAdds (overlay : SortedMap Str (Option LeanEntry)) (upserts : SortedMap Str LeanEntry)
    (merged : EntryMap) (a : Str) : Option Str :=
  if (upserts.get? a).isSome then none
  else if (merged.get? a).isSome then
    ((rowsUnder upserts a.dir).map Prod.fst).find? fun k => (overlay.get? k).any Option.isSome
  else none

theorem ancestorClash_answers (h : StoredAs C theirs chunks) (mine : List Str) (a : Str) :
    Answers (Sees C theirs chunks) (ancestorClash C overlay upserts mine a)
      (mine ++ (ancestorAdds overlay upserts (theirs.entries.patch overlay) a).toList) := by
  unfold ancestorClash ancestorAdds
  split
  · rw [Option.toList_none, append_nil]
    exact pure mine
  · refine bind (cites_answers h a) ?_
    cases ((theirs.entries.patch overlay).get? a).isSome with
    | false =>
      rw [if_neg Bool.false_ne_true, Option.toList_none, append_nil]
      exact pure mine
    | true => exact pure _

def upsertAdds (overlay : SortedMap Str (Option LeanEntry)) (upserts : SortedMap Str LeanEntry)
    (merged : EntryMap) (u : Str) : List Str :=
  if (merged.get? u).isSome then
    (if citedUnder merged u.dir then [u] else []) ++
      (u.ancestors.map fun a => (ancestorAdds overlay upserts merged a).toList).flatten
  else []

theorem upsertClash_answers (h : StoredAs C theirs chunks) (mine : List Str) (u : Str) :
    Answers (Sees C theirs chunks) (upsertClash C overlay upserts mine u)
      (mine ++ upsertAdds overlay upserts (theirs.entries.patch overlay) u) := by
  unfold upsertClash upsertAdds
  refine bind (cites_answers h u) ?_
  cases ((theirs.entries.patch overlay).get? u).isSome with
  | false =>
    rw [if_neg Bool.false_ne_true, append_nil]
    exact pure mine
  | true =>
    refine bind (citesUnder_answers h u.dir) ?_
    have hloop : ∀ mine : List Str, Answers (Sees C theirs chunks)
        (u.ancestors.foldlM (ancestorClash C overlay upserts) mine)
        (mine ++ (u.ancestors.map fun a =>
          (ancestorAdds overlay upserts (theirs.entries.patch overlay) a).toList).flatten) := by
      intro mine
      rw [← foldl_append_eq_append]
      exact foldlM fun mine a _ => ancestorClash_answers h mine a
    cases citedUnder (theirs.entries.patch overlay) u.dir with
    | false => exact hloop mine
    | true =>
      rw [if_pos rfl, if_pos rfl, ← append_assoc]
      exact hloop (mine ++ [u])

theorem map_fst_rowsUnder (m : SortedMap Str V) (p : Str) :
    (rowsUnder m p).map Prod.fst = m.keys.filter fun k => k.startsWith p := by
  unfold SortedMap.keys
  rw [rowsUnder_eq, filter_map]
  rfl

variable {merged : EntryMap}

theorem find?_under (hmine : ∀ u, (upserts.get? u).isSome → (merged.get? u).isSome) (p : Str) :
    ((rowsUnder merged p).map Prod.fst).find? (fun q => (upserts.get? q).isSome) =
      ((rowsUnder upserts p).map Prod.fst).head? := by
  rw [map_fst_rowsUnder, map_fst_rowsUnder, ← head?_filter]
  congr 1
  apply @eq_of_mem_iff _ _ _ id
  · exact ((merged.keys_sorted).filter _).filter _
  · exact upserts.keys_sorted.filter _
  · intro k
    rw [mem_filter, mem_filter, mem_filter, SortedMap.mem_keys, SortedMap.mem_keys]
    constructor
    · rintro ⟨⟨-, hsts⟩, hup⟩
      exact ⟨hup, hsts⟩
    · rintro ⟨hup, hsts⟩
      exact ⟨⟨hmine k hup, hsts⟩, hup⟩

theorem rowsUnder_isEmpty {m : SortedMap Str V} :
    ((rowsUnder m p).map Prod.fst).isEmpty = !citedUnder m p := by
  rw [map_fst_rowsUnder, citedUnder, Bool.eq_iff_iff, List.isEmpty_iff, filter_eq_nil_iff,
    Bool.not_eq_true', any_eq_false]

def firstMine (upserts : SortedMap Str LeanEntry) (p : Str) : Option Str :=
  ((rowsUnder upserts p.dir).map Prod.fst).head?

variable {q : Str}

theorem of_firstMine (h : firstMine upserts p = some q) :
    (upserts.get? q).isSome ∧ p ∈ q.ancestors := by
  unfold firstMine at h
  rw [map_fst_rowsUnder] at h
  obtain ⟨hmem, hsts⟩ := mem_filter.mp (mem_of_mem_head? h)
  exact ⟨SortedMap.mem_keys.mp hmem, Str.mem_ancestors.mpr hsts⟩

theorem clashAt_eq (hmgd : ∀ u, (upserts.get? u).isSome → (merged.get? u).isSome) (p : Str) :
    clashAt merged upserts p = if citedUnder merged p.dir = true then
      if (upserts.get? p).isSome then some p else firstMine upserts p else none := by
  unfold clashAt firstMine
  dsimp only
  rw [rowsUnder_isEmpty, find?_under hmgd]
  cases citedUnder merged p.dir <;> rfl

variable (hovl : ∀ u, (upserts.get? u).isSome → (overlay.get? u).any Option.isSome)

include hovl

theorem ancestorAdds_eq_some {a : Str} :
    ancestorAdds overlay upserts merged a = some q ↔
      (upserts.get? a).isSome = false ∧ (merged.get? a).isSome ∧ firstMine upserts a = some q := by
  have hfst : ((rowsUnder upserts a.dir).map Prod.fst).find?
      (fun k => (overlay.get? k).any Option.isSome) = firstMine upserts a := by
    unfold firstMine
    rw [← head?_filter, filter_eq_self.mpr]
    intro k hk
    rw [map_fst_rowsUnder] at hk
    exact hovl k (SortedMap.mem_keys.mp (mem_filter.mp hk).1)
  unfold ancestorAdds
  rw [hfst]
  cases (upserts.get? a).isSome <;> cases (merged.get? a).isSome <;> simp

theorem mem_upsertAdds {u : Str} (hu : (merged.get? u).isSome) :
    q ∈ upsertAdds overlay upserts merged u ↔ citedUnder merged u.dir ∧ q = u ∨
      ∃ a ∈ u.ancestors, (upserts.get? a).isSome = false ∧ (merged.get? a).isSome ∧
        firstMine upserts a = some q := by
  unfold upsertAdds
  rw [if_pos hu, mem_append, mem_flatten]
  refine or_congr ?_ ?_
  · cases citedUnder merged u.dir <;> simp
  · constructor
    · rintro ⟨l, hl, hq⟩
      obtain ⟨a, ha, rfl⟩ := mem_map.mp hl
      exact ⟨a, ha, (ancestorAdds_eq_some hovl).mp (Option.mem_toList.mp hq)⟩
    · rintro ⟨a, ha, hq⟩
      exact ⟨_, mem_map_of_mem ha, Option.mem_toList.mpr ((ancestorAdds_eq_some hovl).mpr hq)⟩

theorem mem_clashes_iff (hmgd : ∀ u, (upserts.get? u).isSome → (merged.get? u).isSome) (q : Str) :
    q ∈ (upserts.keys.map (upsertAdds overlay upserts merged)).flatten ↔
      q ∈ merged.keys.filterMap (clashAt merged upserts) := by
  rw [mem_flatten, mem_filterMap]
  constructor
  · rintro ⟨l, hl, hq⟩
    obtain ⟨u, hu, rfl⟩ := mem_map.mp hl
    have hmine := SortedMap.mem_keys.mp hu
    have hcit := hmgd u hmine
    rcases (mem_upsertAdds hovl hcit).mp hq with ⟨hund, rfl⟩ | ⟨a, ha, hnot, hacited, hq⟩
    · refine ⟨q, SortedMap.mem_keys.mpr hcit, ?_⟩
      rw [clashAt_eq hmgd, if_pos hund, if_pos hmine]
    · -- the upsert itself is what is cited under its ancestor
      have hund : citedUnder merged a.dir :=
        citedUnder_iff.mpr ⟨u, hcit, Str.mem_ancestors.mp ha⟩
      refine ⟨a, SortedMap.mem_keys.mpr hacited, ?_⟩
      rw [clashAt_eq hmgd, if_pos hund, if_neg (by rw [hnot]; exact Bool.false_ne_true), hq]
  · rintro ⟨p, hp, hq⟩
    have hcit := SortedMap.mem_keys.mp hp
    rw [clashAt_eq hmgd] at hq
    split at hq
    · next hund =>
      split at hq
      · next hmine =>
        cases hq
        exact ⟨_, mem_map_of_mem (SortedMap.mem_keys.mpr hmine),
          (mem_upsertAdds hovl hcit).mpr (.inl ⟨hund, rfl⟩)⟩
      · next hnot =>
        -- the clash is found from the path that is withheld
        obtain ⟨hmine, hanc⟩ := of_firstMine hq
        exact ⟨_, mem_map_of_mem (SortedMap.mem_keys.mpr hmine),
          (mem_upsertAdds hovl (hmgd q hmine)).mpr
            (.inr ⟨p, hanc, Bool.not_eq_true _ ▸ hnot, hcit, hq⟩)⟩
    · cases hq

omit hovl

theorem clashesView_answers (h : StoredAs C theirs chunks)
    (hovl : ∀ u, (upserts.get? u).isSome → (overlay.get? u).any Option.isSome) :
    Answers (Sees C theirs chunks) (clashesView C overlay upserts)
      (pathClashes (theirs.entries.patch overlay) upserts) := by
  have hmgd : ∀ u, (upserts.get? u).isSome → ((theirs.entries.patch overlay).get? u).isSome :=
    fun u hu => (patch_isSome_iff theirs.entries u).mpr (.inl (hovl u hu))
  have hsm : sortDedup (upserts.keys.map
      (upsertAdds overlay upserts (theirs.entries.patch overlay))).flatten =
      pathClashes (theirs.entries.patch overlay) upserts :=
    congrArg rows (SortedSet.ofList_congr (mem_clashes_iff hovl hmgd))
  rw [← hsm]
  refine bind (a := (upserts.keys.map
    (upsertAdds overlay upserts (theirs.entries.patch overlay))).flatten) ?_ (pure _)
  rw [← nil_append (flatten _), ← foldl_append_eq_append]
  exact foldlM fun mine u _ => upsertClash_answers h mine u

end Clashes

/-! ### Retired handles -/

section Retired

variable {overlay : SortedMap Str (Option LeanEntry)} {v : DocView}

theorem DocView.Sees.mem_refs (hv : v.Sees C theirs chunks) {i : ℕ} {r : ChunkRef} :
    v.refs[i]? = some r ↔
      ∃ c, chunks[i]? = some c ∧ r = ⟨C.addressOf c, firstKey c, c.rows.length⟩ := by
  rw [hv.refs, refsOf, getElem?_map, Option.map_eq_some_iff]
  exact exists_congr fun c => and_congr_right fun _ => eq_comm

theorem mem_missing (hv : v.Sees C theirs chunks) (i : ℕ) :
    i ∈ (v.refs.zipIdx.filter fun r => (v.aliasCache.get? r.1.addr).isNone).map Prod.snd ↔
      ∃ c, chunks[i]? = some c ∧ v.aliasCache.get? (C.addressOf c) = none := by
  rw [mem_map]
  constructor
  · rintro ⟨⟨r, j⟩, hmem, rfl⟩
    obtain ⟨hmem, hno⟩ := mem_filter.mp hmem
    obtain ⟨c, hc, rfl⟩ := hv.mem_refs.mp (mk_mem_zipIdx_iff_getElem?.mp hmem)
    exact ⟨c, hc, Option.isNone_iff_eq_none.mp hno⟩
  · rintro ⟨c, hc, hno⟩
    refine ⟨(⟨C.addressOf c, firstKey c, c.rows.length⟩, i), mem_filter.mpr ⟨?_, ?_⟩, rfl⟩
    · exact mk_mem_zipIdx_iff_getElem?.mpr (hv.mem_refs.mpr ⟨c, hc, rfl⟩)
    · exact Option.isNone_iff_eq_none.mpr hno

theorem mem_cached (hv : v.Sees C theirs chunks) (a : Str × Str) :
    a ∈ (v.refs.filterMap fun r => v.aliasCache.get? r.addr).flatten ↔
      ∃ c ∈ chunks, (v.aliasCache.get? (C.addressOf c)).isSome ∧ a ∈ aliasesIn C.root c := by
  rw [mem_flatten]
  constructor
  · rintro ⟨l, hl, ha⟩
    obtain ⟨r, hr, hl⟩ := mem_filterMap.mp hl
    obtain ⟨i, hi⟩ := mem_iff_getElem?.mp hr
    obtain ⟨c, hc, rfl⟩ := hv.mem_refs.mp hi
    have hmem := mem_of_getElem? hc
    exact ⟨c, hmem, by rw [hl]; rfl, (hv.aliases c hmem l hl a).mp ha⟩
  · rintro ⟨c, hmem, hso, ha⟩
    obtain ⟨l, hl⟩ := Option.isSome_iff_exists.mp hso
    obtain ⟨i, hc⟩ := mem_iff_getElem?.mp hmem
    have hr := mem_of_getElem? (hv.mem_refs.mpr ⟨c, hc, rfl⟩)
    exact ⟨l, mem_filterMap.mpr ⟨_, hr, hl⟩, (hv.aliases c hmem l hl a).mpr ha⟩

theorem aliases_ensures (h : StoredAs C theirs chunks) :
    Ensures (Sees C theirs chunks) (aliases C)
      fun l => ∀ a, a ∈ l ↔ ∃ c ∈ chunks, a ∈ aliasesIn C.root c := by
  refine Ensures.get_bind fun v hv => ?_
  have hmis := mem_missing hv
  have hcch := mem_cached hv
  generalize (v.refs.zipIdx.filter
    fun r => (v.aliasCache.get? r.1.addr).isNone).map Prod.snd = missing at hmis ⊢
  generalize (v.refs.filterMap fun r => v.aliasCache.get? r.addr).flatten = out at hcch ⊢
  have hunread : ∀ i ∈ missing.filter (fun i => (v.parsed.get? i).isNone), i < chunks.length := by
    intro i hi
    obtain ⟨c, hc, -⟩ := (hmis i).mp (mem_filter.mp hi).1
    exact (List.getElem?_eq_some_iff.mp hc).1
  obtain ⟨v', hrun, hv', hrd⟩ := readChunks_spec h hunread hv
  -- every chunk that the cache lacks has been read by now
  have hloop : Answers (Sees C theirs chunks) (missing.foldlM (aliasesRead C v') out)
      (missing.foldl (fun out i => out ++ (chunks[i]?).elim [] (aliasesIn C.root)) out) := by
    refine foldlM fun out i hi => ?_
    have hparsed : (v'.parsed.get? i).isSome := by
      refine hrd i ?_
      cases hkp : v.parsed.get? i with
      | some c => exact .inl rfl
      | none => exact .inr (mem_filter.mpr ⟨hi, by rw [hkp]; rfl⟩)
    obtain ⟨c, hc⟩ := Option.isSome_iff_exists.mp hparsed
    unfold aliasesRead
    rw [hc, hv'.parsed i c hc]
    exact pure _
  obtain ⟨l, v'', hfo, hl, hv''⟩ := hloop v' hv'
  refine ⟨l, v'', ?_, fun a => ?_, hv''⟩
  · change (readChunks C _ v >>= _) = _
    rw [hrun]
    exact hfo
  · rw [hl, foldl_append_eq_append, mem_append, hcch, mem_flatten]
    constructor
    · rintro (⟨c, hc, -, ha⟩ | ⟨l', hl', ha⟩)
      · exact ⟨c, hc, ha⟩
      · obtain ⟨i, hi, rfl⟩ := mem_map.mp hl'
        obtain ⟨c, hc, -⟩ := (hmis i).mp hi
        rw [hc] at ha
        exact ⟨c, mem_of_getElem? hc, ha⟩
    · rintro ⟨c, hmem, ha⟩
      cases hkp : v.aliasCache.get? (C.addressOf c) with
      | some l' => exact .inl ⟨c, hmem, by rw [hkp]; rfl, ha⟩
      | none =>
        obtain ⟨i, hc⟩ := mem_iff_getElem?.mp hmem
        refine .inr ⟨_, mem_map_of_mem ((hmis i).mpr ⟨c, hc, hkp⟩), ?_⟩
        rw [hc]
        exact ha

def droppedAt (d : EntryMap) (r : Str × Option LeanEntry) : Option Str :=
  ((d.get? r.1).filter fun was => r.2.all fun now => now.key ≠ was.key).map LeanEntry.key

theorem dropped_answers (h : StoredAs C theirs chunks) :
    Answers (Sees C theirs chunks) (dropped C overlay)
      (overlay.rows.filterMap (droppedAt theirs.entries)) := by
  rw [filterMap_eq_flatMap_toList, ← nil_append (flatMap _ _), flatMap_def,
    ← foldl_append_eq_append]
  refine foldlM fun candidates r _ => bind (get_answers h r.1) ?_
  unfold droppedAt
  cases theirs.entries.get? r.1 with
  | none =>
    rw [Option.filter_none, Option.map_none, Option.toList_none, append_nil]
    exact pure candidates
  | some was =>
    rw [Option.filter_some]
    dsimp only
    by_cases hdrp : r.2.all (fun now => now.key ≠ was.key)
    · rw [if_pos hdrp, if_pos hdrp]
      exact pure _
    · rw [if_neg hdrp, if_neg hdrp, Option.map_none, Option.toList_none, append_nil]
      exact pure candidates

def citesHandle (d : EntryMap) (k : Str) : Bool := d.rows.any fun r => r.2.key = k

theorem citesHandle_iff {d : EntryMap} {k : Str} :
    citesHandle d k ↔ ∃ p e, d.get? p = some e ∧ e.key = k := by
  unfold citesHandle
  rw [any_rows]
  simp only [decide_eq_true_eq]

theorem contains_keys (d : EntryMap) (k : Str) :
    (d.rows.map fun r => r.2.key).contains k = citesHandle d k := by
  rw [Bool.eq_iff_iff, contains_iff_mem, mem_map, citesHandle, any_eq_true]
  simp only [decide_eq_true_eq]

theorem mem_aliases_iff (h : StoredAs C theirs chunks) {k : Str} :
    (∃ c ∈ chunks, (p, k) ∈ aliasesIn C.root c) ↔
      ∃ e, theirs.entries.get? p = some e ∧ e.key = k ∧ keyPath C.root k ≠ some p := by
  constructor
  · rintro ⟨c, hc, ha⟩
    obtain ⟨⟨p', e⟩, hmem, heq⟩ := mem_map.mp ha
    cases heq
    obtain ⟨hmem, hne⟩ := mem_filter.mp hmem
    obtain ⟨i, hi⟩ := mem_iff_getElem?.mp hc
    exact ⟨e, get?_eq_some.mpr (h.mem_iff.mpr ⟨i, c, hi, hmem⟩), rfl, by simpa using hne⟩
  · rintro ⟨e, hget, rfl, hne⟩
    obtain ⟨i, c, hi, hmem⟩ := h.mem_iff.mp (get?_eq_some.mp hget)
    exact ⟨c, mem_of_getElem? hi, mem_map.mpr
      ⟨(p, e), mem_filter.mpr ⟨hmem, by simpa using hne⟩, rfl⟩⟩

theorem citesKey_answers (h : StoredAs C theirs chunks) {aliases : List (Str × Str)}
    (hali : ∀ a, a ∈ aliases ↔ ∃ c ∈ chunks, a ∈ aliasesIn C.root c) (k : Str) :
    Answers (Sees C theirs chunks) (citesKey C overlay aliases k)
      (citesHandle (theirs.entries.patch overlay) k) := by
  have hovl : (overlay.rows.any fun r => r.2.any fun e => e.key = k) ↔
      ∃ p e, overlay.get? p = some (some e) ∧ e.key = k := by
    rw [any_rows]
    refine exists_congr fun p => ?_
    cases overlay.get? p <;> simp [Option.any_eq_true]
  have halias : (aliases.any fun a => a.2 = k ∧ (overlay.get? a.1).isNone) ↔
      ∃ p e, overlay.get? p = none ∧ theirs.entries.get? p = some e ∧ e.key = k ∧
        keyPath C.root k ≠ some p := by
    rw [any_eq_true]
    constructor
    · rintro ⟨⟨p, k'⟩, hmem, hk⟩
      obtain ⟨rfl, hno⟩ := of_decide_eq_true hk
      obtain ⟨e, he⟩ := (mem_aliases_iff h).mp ((hali _).mp hmem)
      exact ⟨p, e, Option.isNone_iff_eq_none.mp hno, he⟩
    · rintro ⟨p, e, hno, he⟩
      exact ⟨(p, k), (hali _).mpr ((mem_aliases_iff h).mpr ⟨e, he⟩),
        decide_eq_true ⟨rfl, Option.isNone_iff_eq_none.mpr hno⟩⟩
  have hcit : citesHandle (theirs.entries.patch overlay) k ↔
      (∃ p e, overlay.get? p = some (some e) ∧ e.key = k) ∨
      ∃ p e, overlay.get? p = none ∧ theirs.entries.get? p = some e ∧ e.key = k := by
    rw [citesHandle_iff, ← exists_or]
    refine exists_congr fun p => ?_
    rw [← exists_or]
    refine exists_congr fun e => ?_
    rw [get?_patch]
    cases overlay.get? p <;> simp
  unfold citesKey
  split
  · next hov =>
    rw [hcit.mpr (.inl (hovl.mp hov))]
    exact pure true
  · next hov =>
    split
    · next hal =>
      obtain ⟨p, e, hno, hget, hk, -⟩ := halias.mp hal
      rw [hcit.mpr (.inr ⟨p, e, hno, hget, hk⟩)]
      exact pure true
    · next hal =>
      -- what is left is the path that the key names
      have hnm : citesHandle (theirs.entries.patch overlay) k ↔
          ∃ p e, overlay.get? p = none ∧ theirs.entries.get? p = some e ∧ e.key = k ∧
            keyPath C.root k = some p := by
        rw [hcit, or_iff_right (mt hovl.mpr hov)]
        refine exists_congr fun p => exists_congr fun e => ?_
        constructor
        · rintro ⟨hno, hget, hk⟩
          refine ⟨hno, hget, hk, ?_⟩
          by_contra hne
          exact hal (halias.mpr ⟨p, e, hno, hget, hk, hne⟩)
        · rintro ⟨hno, hget, hk, -⟩
          exact ⟨hno, hget, hk⟩
      cases hq : (keyPath C.root k).filter fun q => (overlay.get? q).isNone with
      | none =>
        have hfalse : citesHandle (theirs.entries.patch overlay) k = false := by
          rw [← Bool.not_eq_true, hnm]
          rintro ⟨p, e, hno, -, -, hpa⟩
          rw [Option.filter_eq_none_iff] at hq
          exact hq p hpa (Option.isNone_iff_eq_none.mpr hno)
        rw [hfalse]
        exact pure false
      | some q =>
        obtain ⟨hpa, hno⟩ := Option.filter_eq_some_iff.mp hq
        have hlook : citesHandle (theirs.entries.patch overlay) k =
            (theirs.entries.get? q).any fun e => e.key = k := by
          rw [Bool.eq_iff_iff, hnm, Option.any_eq_true]
          constructor
          · rintro ⟨p, e, -, hget, hk, hpa'⟩
            obtain rfl : q = p := Option.mem_unique hpa hpa'
            exact ⟨e, hget, decide_eq_true hk⟩
          · rintro ⟨e, hget, hk⟩
            exact ⟨q, e, Option.isNone_iff_eq_none.mp hno, hget, of_decide_eq_true hk, hpa⟩
        rw [hlook]
        exact bind (get_answers h q) (pure _)

def droppedRow (d : EntryMap) (r : Str × Option LeanEntry) : Option Item :=
  ((d.get? r.1).filter fun was => r.2.all fun now => now.key ≠ was.key).map fun was => (r.1, was)

theorem filterMap_droppedRow (d : EntryMap) : overlay.rows.filterMap (droppedRow d) =
    d.rows.filter fun r => ((d.patch overlay).get? r.1).all fun now => now.key ≠ r.2.key := by
  have hrow : ∀ r x, droppedRow d r = some x ↔
      x.1 = r.1 ∧ d.get? x.1 = some x.2 ∧ r.2.all (fun now => now.key ≠ x.2.key) := by
    intro r x
    unfold droppedRow
    rw [Option.map_eq_some_iff]
    constructor
    · rintro ⟨was, hwas, rfl⟩
      obtain ⟨hget, hall⟩ := Option.filter_eq_some_iff.mp hwas
      exact ⟨rfl, hget, hall⟩
    · rintro ⟨hpa, hget, hall⟩
      refine ⟨x.2, Option.filter_eq_some_iff.mpr ⟨hpa ▸ hget, hall⟩, ?_⟩
      rw [← hpa]
  apply @eq_of_mem_iff _ _ _ Prod.fst
  · rw [pairwise_filterMap]
    refine overlay.sorted.imp fun {r r'} hlt x hx x' hx' => ?_
    rw [((hrow r x).mp hx).1, ((hrow r' x').mp hx').1]
    exact hlt
  · exact d.sorted.filter _
  · intro x
    rw [mem_filterMap, mem_filter, get?_patch]
    constructor
    · rintro ⟨r, hr, hx⟩
      obtain ⟨hpa, hget, hall⟩ := (hrow r x).mp hx
      have hov : overlay.get? x.1 = some r.2 := get?_eq_some.mpr (hpa ▸ hr)
      rw [hov]
      exact ⟨get?_eq_some.mp hget, hall⟩
    · rintro ⟨hmem, hall⟩
      have hget : d.get? x.1 = some x.2 := get?_eq_some.mpr hmem
      cases hov : overlay.get? x.1 with
      | none =>
        -- a path that the overlay says nothing about keeps its key
        rw [hov, hget] at hall
        simp at hall
      | some v =>
        rw [hov] at hall
        exact ⟨(x.1, v), get?_eq_some.mp hov, (hrow _ x).mpr ⟨rfl, hget, hall⟩⟩

theorem retired_answers (h : StoredAs C theirs chunks)
    (overlay : SortedMap Str (Option LeanEntry)) :
    Answers (Sees C theirs chunks) (retired C overlay)
      (retiredFull theirs.entries (theirs.entries.patch overlay)) := by
  have hfull : retiredFull theirs.entries (theirs.entries.patch overlay) =
      (overlay.rows.filterMap (droppedAt theirs.entries)).filter
        fun k => !citesHandle (theirs.entries.patch overlay) k := by
    have hrw : overlay.rows.filterMap (droppedAt theirs.entries) =
        (overlay.rows.filterMap (droppedRow theirs.entries)).map fun r => r.2.key := by
      rw [map_filterMap]
      refine congrArg (filterMap · _) (funext fun r => ?_)
      unfold droppedAt droppedRow
      rw [Option.map_map]
      rfl
    rw [hrw, filterMap_droppedRow, filter_map, filter_filter]
    unfold retiredFull
    simp only [contains_keys]
    refine congrArg (map _) (filter_congr fun r _ => ?_)
    exact Bool.and_comm _ _
  rw [hfull]
  refine bind (dropped_answers h) ?_
  generalize overlay.rows.filterMap (droppedAt theirs.entries) = candidates
  split
  · next hemp =>
    rw [List.isEmpty_iff.mp hemp]
    exact pure []
  · refine Ensures.bind (aliases_ensures h) fun aliases hali => ?_
    rw [← filterMap_eq_filter, filterMap_eq_flatMap_toList,
      ← nil_append (flatMap _ _), flatMap_def, ← foldl_append_eq_append]
    refine foldlM fun out k _ => bind (citesKey_answers h hali k) ?_
    cases hcit : citesHandle (theirs.entries.patch overlay) k with
    | true =>
      rw [if_pos rfl, Option.guard, if_neg (by rw [hcit]; exact Bool.false_ne_true)]
      rw [Option.toList_none, append_nil]
      exact pure out
    | false =>
      rw [if_neg Bool.false_ne_true, Option.guard, if_pos (by rw [hcit]; rfl)]
      exact pure _

theorem mem_retiredFull (theirs installed : EntryMap) (k : Str) : k ∈ retiredFull theirs installed ↔
    (∃ p e, theirs.get? p = some e ∧ e.key = k) ∧
      ¬∃ p e, installed.get? p = some e ∧ e.key = k := by
  unfold retiredFull
  simp only [contains_keys]
  rw [mem_map, ← citesHandle_iff (d := installed)]
  constructor
  · rintro ⟨⟨p, e⟩, hmem, rfl⟩
    obtain ⟨hmem, hcd⟩ := mem_filter.mp hmem
    obtain ⟨-, hnot⟩ := Bool.and_eq_true_iff.mp hcd
    exact ⟨⟨p, e, get?_eq_some.mpr hmem, rfl⟩, by simpa using hnot⟩
  · rintro ⟨⟨p, e, hget, rfl⟩, hnot⟩
    refine ⟨(p, e), mem_filter.mpr ⟨get?_eq_some.mp hget, ?_⟩, rfl⟩
    refine Bool.and_eq_true_iff.mpr ⟨?_, by simpa using hnot⟩
    -- the path does not keep the key, or the key would still be cited
    rw [Option.all_eq_true]
    intro now hnow
    rw [decide_eq_true_iff]
    intro heq
    exact hnot (citesHandle_iff.mpr ⟨p, now, hnow, heq⟩)

end Retired

/-! ### The commit -/

theorem storedAs_slicesWith {z : Sizing}
    (hbodies : ∀ r ∈ splitWith C.format z theirs.entries, C.bucket r.1.addr = some r.2)
    (hdec : ∀ c ∈ slicesWith C.format z theirs.entries, C.decode (C.format.encode c) = some c) :
    StoredAs C theirs (slicesWith C.format z theirs.entries) where
  ordered := slicesWith_ordered C.format z theirs.entries
  rows := by rw [slicesWith_rows, Runs.flatten_runs]
  body := fun c hc => hbodies _ (mem_map_of_mem hc)
  decodes := hdec

/-- **The commit over a view is the commit over the document**: the lookups, the merge, the clashes
and the retired handles. -/
theorem view_commit_eq_whole (C : ViewCfg) (z : Sizing) (theirs : LeanManifest)
    (hbodies : ∀ r ∈ splitWith C.format z theirs.entries, C.bucket r.1.addr = some r.2)
    (hdec : ∀ c ∈ slicesWith C.format z theirs.entries, C.decode (C.format.encode c) = some c)
    (base : SortedMap Str Str) (upserts : SortedMap Str LeanEntry) (deletes parked : SortedSet Str)
    (hdsj : ∀ p, (upserts.get? p).isSome → p ∉ deletes ∧ p ∉ parked) :
    let sees := Sees C theirs (slicesWith C.format z theirs.entries)
    let merged := merge base theirs upserts deletes parked
    (∀ p, Answers sees (get C p) (theirs.entries.get? p)) ∧
    (∀ p skip, Answers sees (firstUnder C p skip)
      (theirs.entries.keys.find? fun k => k.startsWith p && !skip k)) ∧
    (∃ mc, Answers sees (mergeView C base.get? upserts deletes parked) mc ∧
      theirs.entries.patch mc.overlay = merged.doc.entries ∧ mc.seq = merged.doc.seq ∧
      mc.tombstones = merged.doc.tombstones ∧ mc.overridden = merged.overridden ∧
      mc.deletes = merged.deletes ∧ mc.recreated = merged.recreated ∧
      mc.overTheirs = merged.overTheirs ∧
      Answers sees (clashesView C mc.overlay upserts) (pathClashes merged.doc.entries upserts) ∧
      Answers sees (retired C mc.overlay) (retiredFull theirs.entries merged.doc.entries)) ∧
    ∀ overlay : SortedMap Str (Option LeanEntry),
      let installed := theirs.entries.patch overlay
      Answers sees (retired C overlay) (retiredFull theirs.entries installed) ∧
      ∀ k, k ∈ retiredFull theirs.entries installed ↔
        (∃ p e, theirs.entries.get? p = some e ∧ e.key = k) ∧
          ¬∃ p e, installed.get? p = some e ∧ e.key = k := by
  intro sees merged
  have h := storedAs_slicesWith hbodies hdec
  -- an upsert is in the overlay, since no delete is at its path
  have hovl : ∀ u, (upserts.get? u).isSome → (((mergeChanges base.get?
      (entriesAt theirs.entries upserts deletes) theirs.tombstones upserts parked theirs.seq
        deletes).overlay.get? u).any Option.isSome) := by
    intro u hu
    rw [(merge_spec base theirs upserts deletes parked).overlay,
      if_neg fun hdel => (hdsj u hu).1 hdel.1]
    obtain ⟨e, he⟩ := Option.isSome_iff_exists.mp hu
    rw [he]
    rfl
  refine ⟨get_answers h, firstUnder_answers h,
    ⟨_, mergeView_answers h base.get? upserts deletes parked,
    rfl, rfl, rfl, rfl, rfl, rfl, rfl, clashesView_answers h hovl, retired_answers h _⟩, ?_⟩
  intro overlay installed
  exact ⟨retired_answers h overlay, mem_retiredFull theirs.entries installed⟩

/-- Two files are saved over their old versions, from a view of three chunks that has read nothing
yet. The handle of the one is retired; that of the other stays, which a third path cites as well. -/
theorem replaced_handle_retired :
    let handle (path flush : Char) : Str := (Str.append ['w'] filesDir).append [path, '@', flush]
    let row (path : Char) (key : Str) : Str × LeanEntry :=
      ([path], ⟨key, ['e'], ['c'], 1, 420, 0, 1, 1⟩)
    let theirs : LeanManifest := { LeanManifest.default with
      entries := .ofList [row 'a' (handle 'a' '1'), row 'b' (handle 'b' '1'),
        row 'c' (handle 'b' '1')] }
    let upserts : SortedMap Str LeanEntry :=
      .ofList [row 'a' (handle 'a' '2'), row 'b' (handle 'b' '2')]
    let bytes (p : Str) : Bytes := p.map fun c => UInt8.ofNat c.toNat
    let C : ViewCfg :=
      ⟨⟨fun _ => 0, fun c => bytes (firstKey c), fun b => b.map fun n => Char.ofNat n.toNat⟩,
        fun b => some (.ofList (theirs.entries.rows.filter fun r => bytes r.1 = b)), ['w'],
        fun addr => some (bytes addr)⟩
    let v : DocView :=
      ⟨0, [⟨['a'], ['a'], 1⟩, ⟨['b'], ['b'], 1⟩, ⟨['c'], ['c'], 1⟩], .empty, .empty, .empty, 0⟩
    ∃ mc v₁ v₂, mergeView C (fun _ => none) upserts (.ofList []) (.ofList []) v =
      .ok (mc, v₁) ∧ retired C mc.overlay v₁ = .ok ([handle 'a' '1'], v₂) := by
  intro handle row theirs upserts bytes C v
  have hsees : v.Sees C theirs (slicesWith C.format ⟨1, 1, 1⟩ theirs.entries) :=
    ⟨by decide, rfl, rfl, nofun, nofun⟩
  have hdec : ∀ c ∈ slicesWith C.format ⟨1, 1, 1⟩ theirs.entries,
      C.decode (C.format.encode c) = some c := by
    have hrw : ∀ c ∈ slicesWith C.format ⟨1, 1, 1⟩ theirs.entries,
        (C.decode (C.format.encode c)).map rows = some c.rows := by decide
    exact fun c hc => congrArg some (ext_rows (Option.some.inj (hrw c hc)))
  have hemp : ∀ p : Str, p ∉ SortedSet.ofList [] := not_mem_empty
  have hold : retiredFull theirs.entries
      (merge .empty theirs upserts (.ofList []) (.ofList [])).doc.entries = [handle 'a' '1'] := by
    decide
  obtain ⟨-, -, ⟨mc, hmc, -, -, -, -, -, -, -, -, hret⟩, -⟩ :=
    view_commit_eq_whole C ⟨1, 1, 1⟩ theirs (by decide) hdec .empty upserts
      (.ofList []) (.ofList []) fun p _ => ⟨hemp p, hemp p⟩
  obtain ⟨mc', v₁, hrun₁, rfl, hv₁⟩ := hmc v hsees
  obtain ⟨l, v₂, hrun₂, hl, -⟩ := hret v₁ hv₁
  refine ⟨mc', v₁, v₂, hrun₁, ?_⟩
  rw [hrun₂, hl]
  exact congrArg (fun l => Except.ok (l, v₂)) hold

end Flint.Syncer
