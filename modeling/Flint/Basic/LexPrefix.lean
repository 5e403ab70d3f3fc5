import Mathlib.Order.Lattice
import Mathlib.Data.List.Lex

/-!
# Prefixes in the dictionary order

The words with a given prefix stand together, from the prefix on. So a scan of a sorted list that
starts at the prefix and stops at the first word without it finds them all (`takeWhile_isPrefix`).
-/

namespace LexPrefix

open List

variable {α : Type} [LinearOrder α]

theorem le_of_isPrefix {p k : List α} (h : p <+: k) : p ≤ k := by
  induction p generalizing k with
  | nil =>
    cases k with
    | nil => exact le_rfl
    | cons a k => exact le_of_lt .nil
  | cons a p ih =>
    obtain ⟨t, rfl⟩ := h
    exact cons_le_cons a (ih (prefix_append p t))

theorem lt_of_not_isPrefix {p k s : List α} (hle : p ≤ k) (hk : ¬p <+: k) (hs : p <+: s) :
    s < k := by
  have hlt : p < k := lt_of_le_of_ne hle fun h => hk (h ▸ prefix_refl p)
  clear hle
  -- the first letter where `k` leaves the prefix is one of the prefix
  induction p generalizing k s with
  | nil => exact absurd nil_prefix hk
  | cons a p ih =>
    obtain ⟨t, rfl⟩ := hs
    cases hlt with
    | rel hab => exact .rel hab
    | cons hlt =>
      have hk' : ¬p <+: _ := fun h => hk ((prefix_cons_inj a).mpr h)
      exact .cons (ih hk' (prefix_append p t) hlt)

theorem takeWhile_isPrefix {β : Type} {key : β → List α} {p : List α} {above starts : β → Bool}
    (habv : ∀ r, above r ↔ p ≤ key r) (hsts : ∀ r, starts r ↔ p <+: key r)
    {l : List β} (hl : l.Pairwise fun a b => key a < key b) :
    (l.filter above).takeWhile starts = l.filter starts := by
  induction l with
  | nil => rfl
  | cons r l ih =>
    obtain ⟨hr, hl⟩ := pairwise_cons.mp hl
    by_cases hp : starts r
    · have hle : above r := (habv r).mpr (le_of_isPrefix ((hsts r).mp hp))
      rw [filter_cons_of_pos hle, filter_cons_of_pos hp, takeWhile_cons_of_pos hp, ih hl]
    · rw [filter_cons_of_neg (p := starts) hp]
      by_cases hle : above r
      · -- no later word has the prefix
        have hno : l.filter starts = [] := by
          rw [filter_eq_nil_iff]
          intro s hs hps
          have hlt := lt_of_not_isPrefix ((habv r).mp hle) (mt (hsts r).mpr hp) ((hsts s).mp hps)
          exact lt_asymm hlt (hr s hs)
        rw [filter_cons_of_pos hle, takeWhile_cons_of_neg hp, hno]
      · rw [filter_cons_of_neg hle, ih hl]

section Components

variable {β : Type} [BEq β] [LawfulBEq β] {x : β} {p q : List β}

omit [BEq β] [LawfulBEq β] in
theorem intercalate_append {l₁ l₂ : List (List β)} (h₁ : l₁ ≠ []) (h₂ : l₂ ≠ []) :
    [x].intercalate (l₁ ++ l₂) = [x].intercalate l₁ ++ x :: [x].intercalate l₂ := by
  induction l₁ with
  | nil => exact absurd rfl h₁
  | cons a l₁ ih =>
    cases l₁ with
    | nil =>
      obtain ⟨b, l₂, rfl⟩ := exists_cons_of_ne_nil h₂
      rw [singleton_append, intercalate_cons_cons, intercalate_singleton,
        append_assoc, singleton_append]
    | cons b l₁ =>
      have hb := ih (cons_ne_nil b l₁)
      rw [cons_append] at hb
      rw [cons_append, cons_append, intercalate_cons_cons, hb,
        intercalate_cons_cons, append_assoc, append_assoc, append_assoc]

theorem splitOn_prefix_iff : splitOn x p <+: splitOn x q ∧ p ≠ q ↔ p ++ [x] <+: q := by
  have hp : [x].intercalate (splitOn x p) = p := intercalate_splitOn x
  have hq : [x].intercalate (splitOn x q) = q := intercalate_splitOn x
  constructor
  · rintro ⟨⟨rest, hrs⟩, hne⟩
    have hrest_ne : rest ≠ [] := by
      rintro rfl
      rw [append_nil] at hrs
      exact hne (by rw [← hp, hrs, hq])
    refine ⟨[x].intercalate rest, ?_⟩
    calc p ++ [x] ++ [x].intercalate rest
        = [x].intercalate (splitOn x p) ++ x :: [x].intercalate rest := by
          rw [hp, append_assoc, singleton_append]
      _ = [x].intercalate (splitOn x p ++ rest) :=
          (intercalate_append (splitOn_ne_nil x p) hrest_ne).symm
      _ = q := by rw [hrs, hq]
  · rintro ⟨rest, rfl⟩
    rw [append_assoc, singleton_append]
    refine ⟨?_, fun heq => ?_⟩
    · rw [splitOn_append_cons_self]
      exact prefix_append _ _
    · have hlen := congrArg length heq
      simp at hlen

end Components

end LexPrefix
