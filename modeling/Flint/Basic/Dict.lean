import Mathlib.Data.List.AList

/-!
# Maps as values

The value of a concurrent map between two accesses, as an association list without repeated keys.
Every operation is known by what a lookup finds after it. An index keeps the list of the keys whose
values have a given trait, beside the map.
-/

def Dict (K V : Type) : Type := AList fun _ : K => V

open List

namespace Dict

variable {K V : Type}

def empty : Dict K V := (∅ : AList fun _ : K => V)

variable (d : Dict K V)

def toList : List (K × V) := d.entries.map fun e => (e.1, e.2)

def size : ℕ := d.entries.length

variable [DecidableEq K]

def get? (k : K) : Option V := AList.lookup k d

def insert (k : K) (v : V) : Dict K V := AList.insert k v d

def erase (k : K) : Dict K V := AList.erase k d

def modify (k : K) (f : V → V) : Dict K V :=
  match d.get? k with
  | some v => d.insert k (f v)
  | none => d

def removeIf (k : K) (p : V → Bool) : Dict K V :=
  if (d.get? k).any p then d.erase k else d

@[simp] theorem get?_empty (k : K) : (empty : Dict K V).get? k = none := rfl

theorem get?_insert (k k' : K) (v : V) :
    (d.insert k v).get? k' = if k' = k then some v else d.get? k' := by
  by_cases h : k' = k
  · subst h
    rw [if_pos rfl]
    exact AList.lookup_insert d
  · rw [if_neg h]
    exact AList.lookup_insert_ne h

theorem get?_erase (k k' : K) : (d.erase k).get? k' = if k' = k then none else d.get? k' := by
  by_cases h : k' = k
  · subst h
    rw [if_pos rfl]
    exact AList.lookup_erase k' d
  · rw [if_neg h]
    exact AList.lookup_erase_ne h

theorem get?_modify (k k' : K) (f : V → V) :
    (d.modify k f).get? k' = if k' = k then (d.get? k).map f else d.get? k' := by
  unfold modify
  by_cases h : k' = k
  · subst h
    cases hget : d.get? k' with
    | none => simpa using hget
    | some v => simp [get?_insert]
  · cases hget : d.get? k with
    | none => simp [h]
    | some v => simp [get?_insert, h]

theorem get?_removeIf (k k' : K) (p : V → Bool) :
    (d.removeIf k p).get? k' = if k' = k ∧ (d.get? k).any p then none else d.get? k' := by
  unfold removeIf
  by_cases hp : (d.get? k).any p
  · rw [if_pos hp, get?_erase]
    simp [hp]
  · rw [if_neg hp]
    simp [hp]

theorem get?_removeIf_eq [DecidableEq V] (d : Dict K V) (k k' : K) (v : V) :
    (d.removeIf k fun w => w = v).get? k' = if k' = k ∧
      d.get? k = some v then none else d.get? k' := by
  rw [get?_removeIf]
  cases d.get? k <;> simp

@[simp] theorem get?_insert_self (k : K) (v : V) : (d.insert k v).get? k = some v := by
  rw [get?_insert, if_pos rfl]

theorem get?_insert_of_ne {k k' : K} (v : V) (h : k' ≠ k) : (d.insert k v).get? k' = d.get? k' := by
  rw [get?_insert, if_neg h]

theorem get?_erase_of_ne {k k' : K} (h : k' ≠ k) : (d.erase k).get? k' = d.get? k' := by
  rw [get?_erase, if_neg h]

/-! What keys there are after an operation. -/

theorem isSome_insert (k k' : K) (v : V) :
    ((d.insert k v).get? k').isSome ↔ k' = k ∨ (d.get? k').isSome := by
  rw [get?_insert]
  split
  · next h => simp [h]
  · next h => simp [h]

theorem isSome_erase (k k' : K) : ((d.erase k).get? k').isSome ↔ k' ≠ k ∧ (d.get? k').isSome := by
  rw [get?_erase]
  split
  · next h => simp [h]
  · next h => simp [h]

theorem isSome_modify (k k' : K) (f : V → V) :
    ((d.modify k f).get? k').isSome = (d.get? k').isSome := by
  rw [get?_modify]
  split
  · next h => rw [Option.isSome_map, h]
  · rfl

theorem isSome_foldl_insert {α : Type} (f : α → K) (g : α → V) (l : List α) (d : Dict K V) (k : K) :
    ((l.foldl (fun d x => d.insert (f x) (g x)) d).get? k).isSome ↔
      (∃ x ∈ l, f x = k) ∨ (d.get? k).isSome := by
  induction l generalizing d with
  | nil => simp
  | cons x l ih =>
    rw [foldl_cons, ih, isSome_insert]
    simp only [mem_cons, exists_eq_or_imp, eq_comm (a := k)]
    rw [or_left_comm, or_assoc]

theorem mem_toList {d : Dict K V} {k : K} {v : V} : (k, v) ∈ d.toList ↔ d.get? k = some v := by
  have hlookup := AList.mem_lookup_iff (a := k) (b := v) (s := d)
  unfold toList get?
  rw [← Option.mem_def]
  refine Iff.trans ?_ hlookup.symm
  simp

omit [DecidableEq K] in
theorem pairwise_toList : d.toList.Pairwise fun a b => a.1 ≠ b.1 := by
  unfold toList
  rw [pairwise_map]
  exact nodupKeys_iff_pairwise.mp (AList.nodupKeys d)

end Dict

/-! ### Indices -/

namespace Index

open Function

variable {K T : Type} [DecidableEq K] [DecidableEq T]

def unindex (idx : T → List K) (trait : Option T) (k : K) : T → List K :=
  trait.elim idx fun t => update idx t ((idx t).filter (· ≠ k))

def reindex (idx : T → List K) (old new : Option T) (k : K) : T → List K :=
  if old = new then idx
  else new.elim (unindex idx old k) fun t =>
    update (unindex idx old k) t (unindex idx old k t ++ [k])

/-- The list of a trait has the keys with the trait, each once. -/
structure Exact (idx : T → List K) (traitOf : K → Option T) : Prop where
  mem : ∀ t k, k ∈ idx t ↔ traitOf k = some t
  nodup : ∀ t, (idx t).Nodup

variable {idx : T → List K} {traitOf : K → Option T} {k : K}

theorem Exact.unindex (h : Exact idx traitOf) (k : K) :
    Exact (unindex idx (traitOf k) k) (update traitOf k none) := by
  cases hk : traitOf k with
  | none =>
    have hsm := update_eq_self k traitOf
    rw [hk] at hsm
    exact hsm.symm ▸ h
  | some t =>
    refine ⟨fun t' k' => ?_, fun t' => ?_⟩
    · have := h.mem t' k'
      simp only [Index.unindex, Option.elim_some, update_apply]
      grind
    · simp only [Index.unindex, Option.elim_some, update_apply]
      split
      · exact (h.nodup t).filter _
      · exact h.nodup t'

theorem Exact.reindex (h : Exact idx traitOf) (k : K) (new : Option T) :
    Exact (reindex idx (traitOf k) new k) (update traitOf k new) := by
  unfold Index.reindex
  split
  · next heq => rwa [← heq, update_eq_self]
  · have hout := h.unindex k
    cases new with
    | none => exact hout
    | some t =>
      have hnot : k ∉ Index.unindex idx (traitOf k) k t := by simp [hout.mem]
      refine ⟨fun t' k' => ?_, fun t' => ?_⟩
      · have := hout.mem t' k'
        simp only [Option.elim_some, update_apply] at this ⊢
        grind
      · rw [Option.elim_some, update_apply]
        split
        · exact nodup_append.mpr ⟨hout.nodup t, nodup_singleton k, by grind⟩
        · exact hout.nodup t'

end Index

namespace Dict

variable {K V T : Type} [DecidableEq K] {d : Dict K V}

def trait (d : Dict K V) (f : V → Option T) (k : K) : Option T := (d.get? k).bind f

theorem trait_erase (f : V → Option T) (k : K) :
    (d.erase k).trait f = Function.update (d.trait f) k none := by
  funext k'
  rw [trait, get?_erase, Function.update_apply]
  split <;> rfl

theorem trait_insert (f : V → Option T) (k : K) (v : V) :
    (d.insert k v).trait f = Function.update (d.trait f) k (f v) := by
  funext k'
  rw [trait, get?_insert, Function.update_apply]
  split <;> rfl

theorem size_le {l : List K} (h : ∀ k, (d.get? k).isSome → k ∈ l) : d.size ≤ l.length := by
  have hnd : (d.toList.map Prod.fst).Nodup := pairwise_map.mpr d.pairwise_toList
  have hsub : d.toList.map Prod.fst ⊆ l := fun k hk => by
    obtain ⟨⟨k, v⟩, hmem, rfl⟩ := mem_map.mp hk
    exact h k (Option.isSome_iff_exists.mpr ⟨v, mem_toList.mp hmem⟩)
  simpa [toList, size] using (subperm_of_subset hnd hsub).length_le

end Dict
