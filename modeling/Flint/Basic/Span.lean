import Mathlib.Data.List.Sort
import Mathlib.Algebra.BigOperators.Group.List.Basic
import Mathlib.Algebra.Order.Ring.Int

/-!
# Half-open spans of integers and how often they cover a point

`Span.cover` is the number of spans of a list that contain a point. Cutting a span, joining adjacent
spans and reordering leave the count alone, so an argument about who owns which point is an equation
between counts.
-/

structure Span where
  start : Int
  length : Int

namespace Span

open List

def stop (s : Span) : Int := s.start + s.length

instance : Membership Int Span := ⟨fun s b => s.start ≤ b ∧ b < s.stop⟩

variable {s : Span} {b : Int}

theorem mem_iff : b ∈ s ↔ s.start ≤ b ∧ b < s.start + s.length := Iff.rfl

instance (s : Span) (b : Int) : Decidable (b ∈ s) := decidable_of_iff _ mem_iff.symm

def cover (l : List Span) (b : Int) : ℕ := l.countP fun s => decide (b ∈ s)

@[simp] theorem cover_nil (b : Int) : cover [] b = 0 := rfl

theorem cover_cons (s : Span) (l : List Span) (b : Int) :
    cover (s :: l) b = cover l b + if b ∈ s then 1 else 0 := by
  unfold cover
  rw [countP_cons]
  simp only [decide_eq_true_eq]

theorem cover_append (l m : List Span) (b : Int) :
    cover (l ++ m) b = cover l b + cover m b := countP_append

variable {l : List Span}

theorem cover_perm {m : List Span} (h : l.Perm m) (b : Int) : cover l b = cover m b := h.countP_eq _

theorem cover_pos_iff : 0 < cover l b ↔ ∃ s ∈ l, b ∈ s := by
  unfold cover
  rw [countP_pos_iff]
  simp only [decide_eq_true_eq]

theorem cover_eq_zero_iff : cover l b = 0 ↔ ∀ s ∈ l, b ∉ s := by
  unfold cover
  rw [countP_eq_zero]
  simp only [decide_eq_true_eq]

/-! ### Cutting and joining -/

theorem cover_cut {p k n : Int} (hk : 0 ≤ k) (hn : 0 ≤ n) (b : Int) :
    (if b ∈ (⟨p, k + n⟩ : Span) then 1 else 0 : ℕ)
      = (if b ∈ (⟨p, k⟩ : Span) then 1 else 0) + if b ∈ (⟨p + k, n⟩ : Span) then 1 else 0 := by
  simp only [mem_iff]
  split_ifs <;> omega

def IsRun (l : List Span) : Prop := l.IsChain fun a b => a.stop = b.start

def total (l : List Span) : Int := (l.map Span.length).sum

@[simp] theorem total_nil : total [] = 0 := rfl

@[simp] theorem total_cons (s : Span) (l : List Span) : total (s :: l) = s.length + total l := by
  simp [total]

theorem total_nonneg (h : ∀ s ∈ l, 0 ≤ s.length) : 0 ≤ total l := by
  induction l with
  | nil => simp
  | cons s l ih =>
    rw [total_cons]
    have h₁ := h s (.head _)
    have h₂ := ih fun x hx => h x (.tail s hx)
    omega

/-- **A run counts as one span**, from the start of its first span to the stop of its last. -/
theorem cover_run (hrun : IsRun (s :: l)) (hpos : ∀ x ∈ s :: l, 0 ≤ x.length) (b : Int) :
    cover (s :: l) b = if b ∈ (⟨s.start, total (s :: l)⟩ : Span) then 1 else 0 := by
  induction l generalizing s with
  | nil =>
    rw [cover_cons, cover_nil, total_cons, total_nil, zero_add, add_zero]
  | cons t l ih =>
    have hst : s.stop = t.start := (isChain_cons_cons.mp hrun).1
    have hrs : IsRun (t :: l) := (isChain_cons_cons.mp hrun).2
    have hpos' : ∀ x ∈ t :: l, 0 ≤ x.length := fun x hx => hpos x (.tail s hx)
    have hs : 0 ≤ s.length := hpos s (.head _)
    have hn : 0 ≤ total (t :: l) := total_nonneg hpos'
    rw [cover_cons, ih hrs hpos', total_cons s, cover_cut hs hn b, ← hst, add_comm]
    rfl

def firstAdjacent {α : Type} (bad : α → α → Bool) : List α → Option (α × α)
  | a :: b :: l => if bad a b then some (a, b) else firstAdjacent bad (b :: l)
  | _ => none

theorem firstAdjacent_eq_none {α : Type} (bad : α → α → Bool) (l : List α) :
    firstAdjacent bad l = none ↔ l.IsChain fun a b => bad a b = false := by
  fun_induction firstAdjacent bad l with
  | case1 a b l hbad => simp [hbad]
  | case2 a b l hbad ih =>
    rw [ih, isChain_cons_cons]
    simp [hbad]
  | case3 l hl =>
    match l, hl with
    | [], _ | [a], _ => simp
    | a :: b :: l, hl => exact absurd rfl (hl a b l)

/-! ### Disjointness -/

def Disjoint (s t : Span) : Prop := ∀ b, b ∈ s → b ∉ t

theorem pairwise_disjoint_of_cover_le_one (h : ∀ b, cover l b ≤ 1) : l.Pairwise Disjoint := by
  rw [pairwise_iff_forall_sublist]
  intro s t hsub b hs ht
  have hle : cover [s, t] b ≤ cover l b := hsub.countP_le
  rw [cover_cons, cover_cons, cover_nil, if_pos hs, if_pos ht] at hle
  have := h b
  omega

theorem eq_of_mem_of_cover_le_one {R : Type} {f : R → Span} {l : List R}
    (hcvr : cover (l.map f) b ≤ 1) {x y : R} (hx : x ∈ l) (hy : y ∈ l) (hbx : b ∈ f x)
    (hby : b ∈ f y) : x = y := by
  by_contra hne
  obtain ⟨l₁, l₂, rfl⟩ := append_of_mem hx
  have hy' : y ∈ l₁ ++ l₂ := by
    rw [perm_middle.mem_iff] at hy
    exact mem_of_ne_of_mem (Ne.symm hne) hy
  have hpos : 0 < cover ((l₁ ++ l₂).map f) b :=
    cover_pos_iff.mpr ⟨f y, mem_map_of_mem hy', hby⟩
  rw [cover_perm (perm_middle.map f), map_cons, cover_cons, if_pos hbx] at hcvr
  omega

theorem cover_le_one_of_pairwise_disjoint (h : l.Pairwise Disjoint) (b : Int) : cover l b ≤ 1 := by
  induction l with
  | nil => simp
  | cons s l ih =>
    rw [pairwise_cons] at h
    rw [cover_cons]
    split
    · next hb =>
      have : cover l b = 0 := cover_eq_zero_iff.mpr fun t ht => h.1 t ht b hb
      omega
    · exact ih h.2

/-- On a list sorted by start it is enough that each span stops before its neighbour starts. -/
theorem pairwise_stop_le_of_adjacent (hso : l.Pairwise fun a b => a.start ≤ b.start)
    (hadj : l.IsChain fun a b => a.stop ≤ b.start) : l.Pairwise fun a b => a.stop ≤ b.start := by
  induction l with
  | nil => exact Pairwise.nil
  | cons s l ih =>
    rw [pairwise_cons] at hso ⊢
    refine ⟨?_, ih hso.2 hadj.of_cons⟩
    cases l with
    | nil => exact nofun
    | cons t l =>
      have hst : s.stop ≤ t.start := (isChain_cons_cons.mp hadj).1
      intro x hx
      rcases mem_cons.mp hx with rfl | hx
      · exact hst
      · exact hst.trans ((pairwise_cons.mp hso.2).1 x hx)

/-- **Comparing neighbours is enough**: no point is covered twice exactly when each span stops
before its neighbour starts. -/
theorem cover_le_one_iff_adjacent (hpos : ∀ s ∈ l, 0 < s.length)
    (hso : l.Pairwise fun a b => a.start ≤ b.start) :
    (∀ b, cover l b ≤ 1) ↔ l.IsChain fun a b => a.stop ≤ b.start := by
  constructor
  · intro h
    refine Pairwise.isChain ?_
    have hdis := pairwise_disjoint_of_cover_le_one h
    refine (hso.and hdis).imp_of_mem fun {a b} _ hb hab => ?_
    -- an overlapping neighbour would share its first point
    by_contra hlt
    have hlen := hpos b hb
    refine hab.2 b.start ⟨hab.1, not_le.mp hlt⟩ ⟨le_refl _, ?_⟩
    change b.start < b.start + b.length
    omega
  · intro hadj b
    refine cover_le_one_of_pairwise_disjoint ?_ b
    refine (pairwise_stop_le_of_adjacent hso hadj).imp fun {s t} hst x hs ht => ?_
    have h₁ := hs.2
    have h₂ := ht.1
    omega

end Span
