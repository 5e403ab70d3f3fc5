import Mathlib.Data.Prod.Lex
import Mathlib.Data.List.Sort

/-!
# Tables with a primary key

A relational table as a list of rows in strictly increasing order of a primary key. `put` is `INSERT
OR REPLACE`, `insert` is `INSERT`, which refuses a key that is taken, `insertOrIgnore` is `INSERT OR
IGNORE`; `delete` and `update` go by a `WHERE` clause.

Every operation is read by membership, and by permutation where rows are added up.
-/

structure KeyedTable {R K : Type} [LinearOrder K] (key : R → K) where
  rows : List R
  sorted : rows.Pairwise fun a b => key a < key b

namespace KeyedTable

open List

variable {R K : Type} [LinearOrder K] {key : R → K}

instance : Membership R (KeyedTable key) := ⟨fun t r => r ∈ t.rows⟩

variable {t : KeyedTable key} {r : R}

theorem mem_rows : r ∈ t.rows ↔ r ∈ t := Iff.rfl

instance [DecidableEq R] (t : KeyedTable key) (r : R) : Decidable (r ∈ t) :=
  inferInstanceAs (Decidable (r ∈ t.rows))

instance (t : KeyedTable key) (p : R → Prop) [DecidablePred p] : Decidable (∀ r ∈ t, p r) :=
  inferInstanceAs (Decidable (∀ r ∈ t.rows, p r))

instance (t : KeyedTable key) (p : R → Prop) [DecidablePred p] : Decidable (∃ r ∈ t, p r) :=
  inferInstanceAs (Decidable (∃ r ∈ t.rows, p r))

def empty : KeyedTable key := ⟨[], Pairwise.nil⟩

@[simp] theorem not_mem_empty (r : R) : r ∉ (empty : KeyedTable key) := not_mem_nil

@[ext] theorem ext_rows {t u : KeyedTable key} (h : t.rows = u.rows) : t = u := by
  cases t; cases u; cases h; rfl

instance [DecidableEq R] : DecidableEq (KeyedTable key) := fun t u =>
  decidable_of_iff (t.rows = u.rows) ⟨ext_rows, congrArg rows⟩

theorem eq_of_key_eq {a b : R} (ha : a ∈ t) (hb : b ∈ t) (h : key a = key b) : a = b := by
  have hlt : t.rows.Pairwise fun x y => key x = key y → x = y :=
    t.sorted.imp fun hlt heq => absurd heq (ne_of_lt hlt)
  have hgt : t.rows.Pairwise (flip fun x y => key x = key y → x = y) :=
    t.sorted.imp fun hlt heq => absurd heq (ne_of_gt hlt)
  exact Pairwise.forall_of_forall_of_flip (fun _ _ _ => rfl) hlt hgt ha hb h

theorem nodup (t : KeyedTable key) : t.rows.Nodup := by
  refine t.sorted.imp fun {a b} hlt heq => ?_
  rw [heq] at hlt
  exact lt_irrefl _ hlt

theorem eq_of_mem_iff {l₁ l₂ : List R} (h₁ : l₁.Pairwise fun a b => key a < key b)
    (h₂ : l₂.Pairwise fun a b => key a < key b) (h : ∀ r, r ∈ l₁ ↔ r ∈ l₂) : l₁ = l₂ := by
  have : Std.Irrefl fun a b : R => key a < key b := ⟨fun a => lt_irrefl (key a)⟩
  have : Std.Antisymm fun a b : R => key a < key b := ⟨fun a b hab hba => absurd hab hba.asymm⟩
  exact h₁.eq_of_mem_iff h₂ h

/-! ### Queries -/

def select (t : KeyedTable key) (p : R → Bool) : List R := t.rows.filter p

def lookup (t : KeyedTable key) (k : K) : Option R := t.rows.find? fun r => key r = k

/-- The first row a `WHERE` clause selects: `ORDER BY key LIMIT 1`. -/
def first (t : KeyedTable key) (p : R → Bool) : Option R := (t.select p).head?

/-- The last row a `WHERE` clause selects: `ORDER BY key DESC LIMIT 1`. -/
def last (t : KeyedTable key) (p : R → Bool) : Option R := (t.select p).getLast?

variable {t : KeyedTable key} {p : R → Bool}

@[simp] theorem mem_select {r : R} : r ∈ t.select p ↔ r ∈ t ∧ p r := mem_filter

theorem select_sorted (t : KeyedTable key) (p : R → Bool) :
    (t.select p).Pairwise fun a b => key a < key b := t.sorted.filter p

variable {k : K}

theorem lookup_eq_some : t.lookup k = some r ↔ r ∈ t ∧ key r = k := by
  constructor
  · intro h
    exact ⟨mem_of_find?_eq_some h, by simpa using find?_some h⟩
  · rintro ⟨hmem, rfl⟩
    cases hl : t.lookup (key r) with
    | none =>
      have := find?_eq_none.mp hl r hmem
      simp at this
    | some x =>
      have hx : x ∈ t := mem_of_find?_eq_some hl
      have hk : key x = key r := by simpa using find?_some hl
      rw [eq_of_key_eq hx hmem hk]

theorem lookup_eq_none : t.lookup k = none ↔ ∀ r ∈ t, key r ≠ k := by
  unfold lookup
  rw [find?_eq_none]
  simp only [decide_eq_true_eq]
  rfl

variable {p : R → Bool}

theorem first_eq_some (h : t.first p = some r) : r ∈ t ∧ p r ∧ ∀ x ∈ t, p x → key r ≤ key x := by
  obtain ⟨l, hl⟩ := head?_eq_some_iff.mp h
  have hst := t.select_sorted p
  have hmem : ∀ x, x ∈ t ∧ p x ↔ x ∈ r :: l := fun x => by rw [← hl, mem_select]
  rw [hl, pairwise_cons] at hst
  have hr := (hmem r).mpr (.head _)
  refine ⟨hr.1, hr.2, fun x hx hp => ?_⟩
  rcases mem_cons.mp ((hmem x).mp ⟨hx, hp⟩) with rfl | hx
  · exact le_refl _
  · exact le_of_lt (hst.1 x hx)

theorem last_eq_some (h : t.last p = some r) : r ∈ t ∧ p r ∧ ∀ x ∈ t, p x → key x ≤ key r := by
  obtain ⟨l, hl⟩ := getLast?_eq_some_iff.mp h
  have hst := t.select_sorted p
  have hmem : ∀ x, x ∈ t ∧ p x ↔ x ∈ l ++ [r] := fun x => by rw [← hl, mem_select]
  rw [hl, pairwise_append] at hst
  have hr := (hmem r).mpr (mem_append_right l (.head _))
  refine ⟨hr.1, hr.2, fun x hx hp => ?_⟩
  rcases mem_append.mp ((hmem x).mp ⟨hx, hp⟩) with hx | hx
  · exact le_of_lt (hst.2.2 x hx r (.head _))
  · rw [mem_singleton.mp hx]

/-! ### Deletion -/

def delete (t : KeyedTable key) (p : R → Bool) : KeyedTable key :=
  ⟨t.rows.filter fun r => !p r, t.sorted.filter _⟩

def deleteKey (t : KeyedTable key) (k : K) : KeyedTable key := t.delete fun r => key r = k

@[simp] theorem mem_delete {r : R} : r ∈ t.delete p ↔ r ∈ t ∧ p r = false := by
  change r ∈ t.rows.filter _ ↔ _
  rw [mem_filter, Bool.not_eq_true']
  rfl

@[simp] theorem mem_deleteKey {t : KeyedTable key} {k : K} {r : R} :
    r ∈ t.deleteKey k ↔ r ∈ t ∧ key r ≠ k := by
  unfold deleteKey
  rw [mem_delete, decide_eq_false_iff_not]

theorem delete_eq_self (h : ∀ r ∈ t, p r = false) : t.delete p = t := by
  apply ext_rows
  exact filter_eq_self.mpr fun r hr => by rw [h r hr]; rfl

theorem deleteKey_eq_self (h : ∀ r ∈ t, key r ≠ k) : t.deleteKey k = t :=
  delete_eq_self fun r hr => decide_eq_false (h r hr)

theorem perm_cons_deleteKey (h : r ∈ t) : t.rows.Perm (r :: (t.deleteKey (key r)).rows) := by
  rw [perm_ext_iff_of_nodup t.nodup]
  · intro x
    rw [mem_cons, mem_rows, mem_rows, mem_deleteKey]
    constructor
    · intro hx
      by_cases hk : key x = key r
      · exact .inl (eq_of_key_eq hx h hk)
      · exact .inr ⟨hx, hk⟩
    · rintro (rfl | ⟨hx, -⟩)
      · exact h
      · exact hx
  · refine nodup_cons.mpr ⟨?_, (t.deleteKey (key r)).nodup⟩
    rw [mem_rows, mem_deleteKey]
    exact fun hx => hx.2 rfl

variable {l : List R}

theorem rows_deleteKey_head (h : t.rows = r :: l) : (t.deleteKey (key r)).rows = l := by
  have hst := t.sorted
  rw [h, pairwise_cons] at hst
  change t.rows.filter _ = l
  rw [h, filter_cons_of_neg (by simp)]
  refine filter_eq_self.mpr fun x hx => ?_
  have hne := ne_of_gt (hst.1 x hx)
  simpa using hne

/-! ### Insertion -/

theorem orderedInsert_sorted (hl : l.Pairwise fun a b => key a < key b)
    (hr : ∀ x ∈ l, key x ≠ key r) :
    (l.orderedInsert (fun a b => key a < key b) r).Pairwise fun a b => key a < key b := by
  induction l with
  | nil => simp
  | cons a l ih =>
    rw [pairwise_cons] at hl
    rw [orderedInsert]
    split
    · next hlt =>
      refine pairwise_cons.mpr ⟨?_, pairwise_cons.mpr hl⟩
      intro x hx
      rcases mem_cons.mp hx with rfl | hx
      · exact hlt
      · exact hlt.trans (hl.1 x hx)
    · next hlt =>
      have har : key a < key r :=
        lt_of_le_of_ne (not_lt.mp hlt) (hr a (.head _))
      refine pairwise_cons.mpr ⟨?_, ih hl.2 fun x hx => hr x (.tail a hx)⟩
      intro x hx
      rcases (mem_orderedInsert _).mp hx with rfl | hx
      · exact har
      · exact hl.1 x hx

/-- `INSERT OR REPLACE`: the row takes the place of any row with its key. -/
def put (t : KeyedTable key) (r : R) : KeyedTable key :=
  ⟨(t.deleteKey (key r)).rows.orderedInsert (fun a b => key a < key b) r,
    orderedInsert_sorted (t.deleteKey (key r)).sorted fun _ hx => (mem_deleteKey.mp hx).2⟩

def insert (t : KeyedTable key) (r : R) : Option (KeyedTable key) :=
  match t.lookup (key r) with
  | some _ => none
  | none => some (t.put r)

def insertOrIgnore (t : KeyedTable key) (r : R) : KeyedTable key :=
  match t.lookup (key r) with
  | some _ => t
  | none => t.put r

@[simp] theorem mem_put {r x : R} : x ∈ t.put r ↔ x = r ∨ x ∈ t ∧ key x ≠ key r := by
  change x ∈ orderedInsert _ r _ ↔ _
  rw [mem_orderedInsert, mem_rows, mem_deleteKey]

theorem put_perm_of_fresh (h : ∀ x ∈ t, key x ≠ key r) : (t.put r).rows.Perm (r :: t.rows) := by
  have hpm : (t.put r).rows.Perm (r :: (t.deleteKey (key r)).rows) :=
    perm_orderedInsert (fun a b => key a < key b) r (t.deleteKey (key r)).rows
  rwa [deleteKey_eq_self h] at hpm

variable {u : KeyedTable key}

theorem insert_eq_some : t.insert r = some u ↔ (∀ x ∈ t, key x ≠ key r) ∧ u = t.put r := by
  unfold insert
  cases hl : t.lookup (key r) with
  | some x =>
    obtain ⟨hx, hk⟩ := lookup_eq_some.mp hl
    simp only [reduceCtorEq, false_iff, not_and]
    intro hfr
    exact absurd hk (hfr x hx)
  | none =>
    have hfr := lookup_eq_none.mp hl
    simp only [Option.some.injEq]
    exact ⟨fun h => ⟨hfr, h.symm⟩, fun h => h.2.symm⟩

theorem insert_perm (h : t.insert r = some u) : u.rows.Perm (r :: t.rows) := by
  obtain ⟨hfr, rfl⟩ := insert_eq_some.mp h
  exact put_perm_of_fresh hfr

variable {x : R}

theorem mem_insert (h : t.insert r = some u) : x ∈ u ↔ x = r ∨ x ∈ t := by
  rw [← mem_rows, (insert_perm h).mem_iff, mem_cons]
  rfl

theorem mem_insertOrIgnore : x ∈ t.insertOrIgnore r ↔ x ∈ t ∨ x = r ∧ ∀ y ∈ t, key y ≠ key r := by
  unfold insertOrIgnore
  cases hl : t.lookup (key r) with
  | some y =>
    obtain ⟨hy, hk⟩ := lookup_eq_some.mp hl
    exact ⟨.inl, fun h => h.resolve_right fun hr => hr.2 y hy hk⟩
  | none =>
    have hfr := lookup_eq_none.mp hl
    rw [mem_put]
    constructor
    · rintro (rfl | hx)
      · exact .inr ⟨rfl, hfr⟩
      · exact .inl hx.1
    · rintro (hx | hx)
      · exact .inr ⟨hx, hfr x hx⟩
      · exact .inl hx.1

/-! ### Update -/

def update (t : KeyedTable key) (p : R → Bool) (f : R → R)
    (hf : ∀ r, key (f r) = key r) : KeyedTable key :=
  ⟨t.rows.map fun r => if p r then f r else r, by
    refine pairwise_map.mpr (t.sorted.imp fun {a b} hlt => ?_)
    have hk : ∀ r, key (if p r = true then f r else r) = key r := fun r => by
      split
      · exact hf r
      · rfl
    rw [hk a, hk b]
    exact hlt⟩

@[simp] theorem mem_update {f : R → R} {hf : ∀ r, key (f r) = key r} {x : R} :
    x ∈ t.update p f hf ↔ ∃ r ∈ t, (if p r then f r else r) = x := mem_map

variable {f : R → R}

theorem map_update {α : Type} {hf : ∀ r, key (f r) = key r} {g : R → α} (hg : ∀ r, g (f r) = g r) :
    (t.update p f hf).rows.map g = t.rows.map g := by
  change (t.rows.map fun r => if p r then f r else r).map g = _
  rw [map_map]
  refine map_congr_left fun r _ => ?_
  rw [Function.comp_apply, apply_ite g, hg, ite_self]

theorem update_perm (hf : ∀ r, key (f r) = key r) (hr : r ∈ t)
    (hp : ∀ x ∈ t, p x = decide (key x = key r)) :
    (t.update p f hf).rows.Perm (f r :: (t.deleteKey (key r)).rows) := by
  have hpm := (perm_cons_deleteKey hr).map fun x => if p x then f x else x
  rw [map_cons, hp r hr, if_pos (by simp)] at hpm
  have hrs : (t.deleteKey (key r)).rows.map (fun x => if p x then f x else x) =
      (t.deleteKey (key r)).rows := by
    refine (map_congr_left fun x hx => ?_).trans (map_id _)
    obtain ⟨hx, hne⟩ := mem_deleteKey.mp hx
    rw [hp x hx, if_neg (by simpa using hne), id_eq]
  rw [hrs] at hpm
  exact hpm

theorem foldl_deleteKey_perm (hl : ∀ r ∈ l, r ∈ t) (hks : l.Pairwise fun a b => key a ≠ key b) :
    t.rows.Perm (l ++ (l.foldl (fun t r => t.deleteKey (key r)) t).rows) := by
  induction l generalizing t with
  | nil => exact Perm.refl _
  | cons r l ih =>
    rw [pairwise_cons] at hks
    have hrs : ∀ x ∈ l, x ∈ t.deleteKey (key r) := fun x hx =>
      mem_deleteKey.mpr ⟨hl x (.tail r hx), (hks.1 x hx).symm⟩
    exact (perm_cons_deleteKey (hl r (.head _))).trans ((ih hrs hks.2).cons r)

theorem exists_of_mem_update {hf : ∀ r, key (f r) = key r} (hx : x ∈ t.update p f hf) :
    ∃ r ∈ t, x = r ∨ p r ∧ x = f r := by
  obtain ⟨r, hr, rfl⟩ := mem_update.mp hx
  refine ⟨r, hr, ?_⟩
  split
  · next hp => exact .inr ⟨hp, rfl⟩
  · exact .inl rfl

end KeyedTable
