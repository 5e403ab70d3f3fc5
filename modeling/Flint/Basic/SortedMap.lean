import Flint.Basic.Table

/-!
# Maps in key order

The value of an ordered map: a table of key and value. Two maps with the same lookups are equal
(`ext_get?`). `patch` lays a map of changes over a map.
-/

abbrev SortedMap (K V : Type) [LinearOrder K] : Type := KeyedTable (Prod.fst : K × V → K)

abbrev SortedSet (K : Type) [LinearOrder K] : Type := KeyedTable (id : K → K)

def SortedSet.ofList {K : Type} [LinearOrder K] (l : List K) : SortedSet K :=
  l.foldl KeyedTable.put KeyedTable.empty

theorem SortedSet.mem_put {K : Type} [LinearOrder K] {s : SortedSet K} {a k : K} :
    k ∈ s.put a ↔ k = a ∨ k ∈ s := by
  rw [KeyedTable.mem_put]
  by_cases hk : k = a
  · simp [hk]
  · simp [hk]

theorem SortedSet.mem_ofList {K : Type} [LinearOrder K] {l : List K} {k : K} :
    k ∈ ofList l ↔ k ∈ l := by
  have hfo : ∀ (l : List K) (s : SortedSet K), k ∈ l.foldl KeyedTable.put s ↔ k ∈ l ∨ k ∈ s := by
    intro l
    induction l with
    | nil => exact fun s => (or_iff_right List.not_mem_nil).symm
    | cons a l ih =>
      intro s
      rw [List.foldl_cons, ih, mem_put, List.mem_cons, or_left_comm, or_assoc]
  exact (hfo l _).trans (or_iff_left (KeyedTable.not_mem_empty k))

theorem SortedSet.ofList_congr {K : Type} [LinearOrder K] {l₁ l₂ : List K}
    (h : ∀ k, k ∈ l₁ ↔ k ∈ l₂) : ofList l₁ = ofList l₂ := by
  apply KeyedTable.ext_rows
  apply KeyedTable.eq_of_mem_iff (ofList l₁).sorted (ofList l₂).sorted
  intro k
  exact (mem_ofList.trans (h k)).trans mem_ofList.symm

namespace SortedMap

open Option hiding any_eq_true mem_map
open SortedSet List

variable {K V : Type} [LinearOrder K]

def empty : SortedMap K V := KeyedTable.empty

def get? (d : SortedMap K V) (k : K) : Option V := (d.lookup k).map Prod.snd

def keys (d : SortedMap K V) : List K := d.rows.map Prod.fst

def insert (d : SortedMap K V) (k : K) (v : V) : SortedMap K V := d.put (k, v)

def erase (d : SortedMap K V) (k : K) : SortedMap K V := d.deleteKey k

def retain (d : SortedMap K V) (p : K → V → Bool) : SortedMap K V := d.delete fun r => !p r.1 r.2

/-- The map with the rows of a list; the last value of a key stays. -/
def ofList (l : List (K × V)) : SortedMap K V := l.foldl (fun d r => d.insert r.1 r.2) empty

variable {d e : SortedMap K V} {k : K} {v : V}

theorem get?_eq_some : d.get? k = some v ↔ (k, v) ∈ d := by
  unfold get?
  rw [map_eq_some_iff]
  constructor
  · rintro ⟨⟨k', v'⟩, hlookup, rfl⟩
    obtain ⟨hmem, rfl⟩ := KeyedTable.lookup_eq_some.mp hlookup
    exact hmem
  · intro hmem
    exact ⟨(k, v), KeyedTable.lookup_eq_some.mpr ⟨hmem, rfl⟩, rfl⟩

theorem any_rows {f : K × V → Bool} : d.rows.any f ↔ ∃ k v, d.get? k = some v ∧ f (k, v) := by
  rw [any_eq_true, Prod.exists]
  exact exists₂_congr fun k v => and_congr_left' get?_eq_some.symm

theorem get?_eq_none : d.get? k = none ↔ ∀ v, (k, v) ∉ d := by
  rw [eq_none_iff_forall_ne_some]
  exact forall_congr' fun v => not_congr get?_eq_some

theorem ext_get? (h : ∀ k, d.get? k = e.get? k) : d = e := by
  apply KeyedTable.ext_rows
  apply KeyedTable.eq_of_mem_iff d.sorted e.sorted
  rintro ⟨k, v⟩
  change (k, v) ∈ d ↔ (k, v) ∈ e
  rw [← get?_eq_some, ← get?_eq_some, h]

@[simp] theorem get?_empty (k : K) : (empty : SortedMap K V).get? k = none := rfl

theorem get?_insert (d : SortedMap K V) (k k' : K) (v : V) :
    (d.insert k v).get? k' = if k' = k then some v else d.get? k' := by
  apply ext
  intro w
  change get? (d.put (k, v)) k' = some w ↔ _
  rw [get?_eq_some, KeyedTable.mem_put, Prod.mk.injEq]
  split
  · next heq =>
    subst heq
    simp [eq_comm]
  · next hne => simp [hne, get?_eq_some]

theorem get?_erase (d : SortedMap K V) (k k' : K) :
    (d.erase k).get? k' = if k' = k then none else d.get? k' := by
  apply ext
  intro w
  change get? (d.deleteKey k) k' = some w ↔ _
  rw [get?_eq_some, KeyedTable.mem_deleteKey]
  split
  · next heq => simp [heq]
  · next hne => simp [hne, get?_eq_some]

theorem get?_retain (d : SortedMap K V) (p : K → V → Bool) (k : K) :
    (d.retain p).get? k = (d.get? k).filter (p k) := by
  apply ext
  intro w
  unfold retain
  rw [get?_eq_some, KeyedTable.mem_delete, filter_eq_some_iff, get?_eq_some,
    Bool.not_eq_false']

theorem mem_keys : k ∈ d.keys ↔ (d.get? k).isSome := by
  unfold keys
  rw [mem_map, isSome_iff_exists]
  constructor
  · rintro ⟨⟨k', v⟩, hmem, rfl⟩
    exact ⟨v, get?_eq_some.mpr hmem⟩
  · rintro ⟨v, hv⟩
    exact ⟨(k, v), get?_eq_some.mp hv, rfl⟩

theorem keys_sorted (d : SortedMap K V) : d.keys.Pairwise (· < ·) := pairwise_map.mpr d.sorted

theorem rows_insert_of_lt (h : ∀ r ∈ d.rows, r.1 < k) :
    (d.insert k v).rows = d.rows ++ [(k, v)] := by
  have hsrt : (d.rows ++ [(k, v)]).Pairwise fun a b => a.1 < b.1 := by
    refine pairwise_append.mpr ⟨d.sorted, pairwise_singleton _ _, ?_⟩
    intro r hr x hx
    rw [mem_singleton.mp hx]
    exact h r hr
  have heq : d.insert k v = ⟨_, hsrt⟩ := by
    apply ext_get?
    intro k'
    apply ext
    intro w
    rw [get?_eq_some, get?_eq_some]
    change (k', w) ∈ d.put (k, v) ↔ (k', w) ∈ d.rows ++ [(k, v)]
    rw [KeyedTable.mem_put, mem_append, mem_singleton, or_comm]
    exact or_congr_left ⟨And.left, fun hmem => ⟨hmem, (h _ hmem).ne⟩⟩
  rw [heq]

/-! ### Changes -/

def patchOne (d : SortedMap K V) (c : K × Option V) : SortedMap K V :=
  match c.2 with
  | some v => d.insert c.1 v
  | none => d.erase c.1

def patch (d : SortedMap K V) (changes : SortedMap K (Option V)) : SortedMap K V :=
  changes.rows.foldl patchOne d

theorem get?_patchOne (d : SortedMap K V) (c : K × Option V) (k : K) :
    (d.patchOne c).get? k = if k = c.1 then c.2 else d.get? k := by
  obtain ⟨k', _ | v⟩ := c
  · exact get?_erase d k' k
  · exact get?_insert d k' k v

theorem get?_foldl_patchOne {l : List (K × Option V)} {w : Option V}
    (h : ∀ c ∈ l, c.1 = k → c.2 = w) (d : SortedMap K V) :
    (l.foldl patchOne d).get? k = if k ∈ l.map Prod.fst then w else d.get? k := by
  induction l generalizing d with
  | nil => rfl
  | cons c l ih =>
    obtain ⟨hc, hl⟩ := forall_mem_cons.mp h
    have hcons : k ∈ (c :: l).map Prod.fst ↔ k = c.1 ∨ k ∈ l.map Prod.fst := List.mem_cons
    rw [List.foldl_cons, ih hl, get?_patchOne]
    simp only [hcons]
    by_cases hk : k = c.1
    · simp [hk, hc hk.symm]
    · simp only [hk, if_false, false_or]

theorem get?_patch (d : SortedMap K V) (changes : SortedMap K (Option V)) (k : K) :
    (d.patch changes).get? k = (changes.get? k).getD (d.get? k) := by
  have hagree : ∀ c ∈ changes.rows, c.1 = k → c.2 = (changes.get? k).join := by
    rintro ⟨k, w⟩ hc rfl
    rw [get?_eq_some.mpr hc]
    rfl
  have hks : k ∈ changes.rows.map Prod.fst ↔ (changes.get? k).isSome := mem_keys
  rw [patch, get?_foldl_patchOne hagree]
  simp only [hks]
  cases changes.get? k <;> rfl

theorem get?_ofList_filterMap (l : List K) (f : K → Option V) (k : K) :
    (ofList (l.filterMap fun k => (f k).map fun v => (k, v))).get? k =
      if k ∈ l then f k else none := by
  have hins : ofList (l.filterMap fun k => (f k).map fun v => (k, v)) =
      ((l.filterMap fun k => (f k).map fun v => (k, v)).map fun r => (r.1, some r.2)).foldl
        patchOne empty := by
    rw [foldl_map]
    rfl
  have hagree : ∀ c ∈ (l.filterMap fun k => (f k).map fun v => (k, v)).map fun r => (r.1, some r.2),
      c.1 = k → c.2 = f k := by
    simp only [mem_map, mem_filterMap, map_eq_some_iff]
    rintro _ ⟨_, ⟨a, -, v, hv, rfl⟩, rfl⟩ rfl
    exact hv.symm
  rw [hins, get?_foldl_patchOne hagree]
  by_cases hk : k ∈ l
  · cases hf : f k <;> simp [hk, hf]
  · simp [hk]

/-! ### Changes to rows -/

theorem lt_of_lt_head {W : Type} {rows : List (K × W)} (hrw : rows.Pairwise fun a b => a.1 < b.1)
    {k : K} (h : ∀ r ∈ rows.head?, k < r.1) : ∀ r ∈ rows, k < r.1 := by
  cases rows with
  | nil => exact nofun
  | cons a rows =>
    have ha : k < a.1 := h a rfl
    exact forall_mem_cons.mpr ⟨ha, fun r hr => ha.trans ((pairwise_cons.mp hrw).1 r hr)⟩

/-- The rows of a map with the rows of the changes laid over them, both in key order. -/
def patchRows : List (K × V) → List (K × Option V) → List (K × V)
  | rows, [] => rows
  | [], c :: changes => (c.2.map fun v => (c.1, v)).toList ++ patchRows [] changes
  | r :: rows, c :: changes =>
    if c.1 < r.1 then (c.2.map fun v => (c.1, v)).toList ++ patchRows (r :: rows) changes
    else if c.1 = r.1 then (c.2.map fun v => (c.1, v)).toList ++ patchRows rows changes
    else r :: patchRows rows (c :: changes)
termination_by rows changes => rows.length + changes.length

variable {rows : List (K × V)} {changes : List (K × Option V)}

theorem lt_of_mem_patchRows {k : K} (hrw : ∀ r ∈ rows, k < r.1) (hchs : ∀ c ∈ changes, k < c.1)
    : ∀ r ∈ patchRows rows changes, k < r.1 := by
  -- the row that a change makes is at the key of the change
  have hmd : ∀ c : K × Option V, k < c.1 → ∀ r ∈ (c.2.map fun v => (c.1, v)).toList, k < r.1 := by
    intro c hc r hr
    obtain ⟨v, -, rfl⟩ := map_eq_some_iff.mp (mem_toList.mp hr)
    exact hc
  fun_induction patchRows rows changes with
  | case1 rows => exact hrw
  | case2 c changes ih | case3 r rows c changes hlt ih =>
    obtain ⟨hc, hchs⟩ := forall_mem_cons.mp hchs
    exact forall_mem_append.mpr ⟨hmd c hc, ih hrw hchs⟩
  | case4 r rows c changes hlt heq ih =>
    obtain ⟨hc, hchs⟩ := forall_mem_cons.mp hchs
    exact forall_mem_append.mpr ⟨hmd c hc, ih (forall_mem_cons.mp hrw).2 hchs⟩
  | case5 r rows c changes hlt hne ih =>
    obtain ⟨hr, hrw⟩ := forall_mem_cons.mp hrw
    exact forall_mem_cons.mpr ⟨hr, ih hrw hchs⟩

theorem patchRows_sorted (hrw : rows.Pairwise fun a b => a.1 < b.1)
    (hchs : changes.Pairwise fun a b => a.1 < b.1) :
    (patchRows rows changes).Pairwise fun a b => a.1 < b.1 := by
  -- a change puts at most one row in front of what is above it
  have hmd : ∀ (c : K × Option V) (l : List (K × V)), (∀ r ∈ l, c.1 < r.1) →
      l.Pairwise (fun a b => a.1 < b.1) →
      ((c.2.map fun v => (c.1, v)).toList ++ l).Pairwise fun a b => a.1 < b.1 := by
    intro c l hl hsrt
    cases hv : c.2 with
    | none => exact hsrt
    | some v => exact pairwise_cons.mpr ⟨hl, hsrt⟩
  fun_induction patchRows rows changes with
  | case1 rows => exact hrw
  | case2 c changes ih =>
    obtain ⟨hc, hchs⟩ := pairwise_cons.mp hchs
    exact hmd c _ (lt_of_mem_patchRows nofun hc) (ih hrw hchs)
  | case3 r rows c changes hlt ih =>
    obtain ⟨hc, hchs⟩ := pairwise_cons.mp hchs
    refine hmd c _ (lt_of_mem_patchRows ?_ hc) (ih hrw hchs)
    exact forall_mem_cons.mpr ⟨hlt, fun r' hr' => hlt.trans ((pairwise_cons.mp hrw).1 r' hr')⟩
  | case4 r rows c changes hlt heq ih =>
    obtain ⟨hc, hchs⟩ := pairwise_cons.mp hchs
    obtain ⟨hr, hrw⟩ := pairwise_cons.mp hrw
    exact hmd c _ (lt_of_mem_patchRows (heq ▸ hr) hc) (ih hrw hchs)
  | case5 r rows c changes hlt hne ih =>
    obtain ⟨hr, hrw⟩ := pairwise_cons.mp hrw
    have hrc : r.1 < c.1 := lt_of_le_of_ne (not_lt.mp hlt) (Ne.symm hne)
    refine pairwise_cons.mpr ⟨lt_of_mem_patchRows hr ?_, ih hrw hchs⟩
    exact forall_mem_cons.mpr ⟨hrc, fun c' hc' => hrc.trans ((pairwise_cons.mp hchs).1 c' hc')⟩

theorem patchRows_append {front : List (K × V)} (h : ∀ r ∈ front, ∀ c ∈ changes, r.1 < c.1) :
    patchRows (front ++ rows) changes = front ++ patchRows rows changes := by
  induction front with
  | nil => rfl
  | cons r front ih =>
    obtain ⟨hr, hfront⟩ := forall_mem_cons.mp h
    cases changes with
    | nil => rw [patchRows, patchRows]
    | cons c changes =>
      have hlt : r.1 < c.1 := hr c (.head _)
      rw [cons_append, patchRows, if_neg hlt.not_gt, if_neg hlt.ne', ih hfront, cons_append]

def valueAt {W : Type} (rows : List (K × W)) (k : K) : Option W :=
  (rows.find? fun r => r.1 = k).map Prod.snd

theorem valueAt_cons {W : Type} (r : K × W) (rows : List (K × W)) (k : K) :
    valueAt (r :: rows) k = if k = r.1 then some r.2 else valueAt rows k := by
  unfold valueAt
  by_cases hk : k = r.1
  · rw [find?_cons_of_pos (by simpa using hk.symm), if_pos hk]
    rfl
  · rw [find?_cons_of_neg (by simpa using Ne.symm hk), if_neg hk]

theorem valueAt_eq_none {W : Type} {rows : List (K × W)} {k : K} (h : ∀ r ∈ rows, k < r.1) :
    valueAt rows k = none := by
  unfold valueAt
  rw [map_eq_none_iff, find?_eq_none]
  intro r hr
  simpa using (ne_of_lt (h r hr)).symm

theorem valueAt_made (c : K × Option V) (rows : List (K × V)) (k : K)
    (hrw : ∀ r ∈ rows, c.1 < r.1) :
    valueAt ((c.2.map fun v => (c.1, v)).toList ++ rows) k =
      if k = c.1 then c.2 else valueAt rows k := by
  obtain ⟨k', _ | v⟩ := c
  · change valueAt rows k = if k = k' then none else valueAt rows k
    split
    · next hk => exact hk ▸ valueAt_eq_none hrw
    · rfl
  · exact valueAt_cons (k', v) rows k

theorem valueAt_patchRows (hrw : rows.Pairwise fun a b => a.1 < b.1)
    (hchs : changes.Pairwise fun a b => a.1 < b.1) (k : K) :
    valueAt (patchRows rows changes) k = (valueAt changes k).getD (valueAt rows k) := by
  fun_induction patchRows rows changes with
  | case1 rows => rfl
  | case2 c changes ih =>
    obtain ⟨hc, hchs⟩ := pairwise_cons.mp hchs
    rw [valueAt_made c _ k (lt_of_mem_patchRows (fun r hr => absurd hr List.not_mem_nil) hc),
      valueAt_cons, ih hrw hchs]
    split <;> rfl
  | case3 r rows c changes hlt ih =>
    obtain ⟨hc, hchs⟩ := pairwise_cons.mp hchs
    have habv : ∀ r' ∈ r :: rows, c.1 < r'.1 := forall_mem_cons.mpr
      ⟨hlt, fun r' hr' => hlt.trans ((pairwise_cons.mp hrw).1 r' hr')⟩
    rw [valueAt_made c _ k (lt_of_mem_patchRows habv hc), valueAt_cons c, ih hrw hchs]
    split <;> rfl
  | case4 r rows c changes hlt heq ih =>
    obtain ⟨hc, hchs⟩ := pairwise_cons.mp hchs
    obtain ⟨hr, hrw⟩ := pairwise_cons.mp hrw
    rw [valueAt_made c _ k (lt_of_mem_patchRows (heq ▸ hr) hc), valueAt_cons c, valueAt_cons r,
      ih hrw hchs, heq]
    split <;> rfl
  | case5 r rows c changes hlt hne ih =>
    obtain ⟨hr, hrw⟩ := pairwise_cons.mp hrw
    have hrc : r.1 < c.1 := lt_of_le_of_ne (not_lt.mp hlt) (Ne.symm hne)
    rw [valueAt_cons r, ih hrw hchs, valueAt_cons r]
    split
    · next hk =>
      -- the changes are all above this row
      have hno : valueAt (c :: changes) k = none := valueAt_eq_none <|
        forall_mem_cons.mpr ⟨hk ▸ hrc, fun c' hc' =>
          hk ▸ hrc.trans ((pairwise_cons.mp hchs).1 c' hc')⟩
      rw [hno]
      rfl
    · rfl

theorem rows_patch (d : SortedMap K V) (changes : SortedMap K (Option V)) :
    (d.patch changes).rows = patchRows d.rows changes.rows := by
  have heq : d.patch changes = ⟨_, patchRows_sorted d.sorted changes.sorted⟩ := by
    apply ext_get?
    intro k
    rw [get?_patch]
    exact (valueAt_patchRows d.sorted changes.sorted k).symm
  rw [heq]

end SortedMap
