import Mathlib.Data.List.DropRight

/-!
# Signed decimals and comma-separated lists of them

`parseInt` reads an optional sign, at least one digit, and a value within bounds. `joinCsv` writes a
list of integers, and `csvFields` cuts such a text at its commas and drops empty pieces.
-/

namespace Decimal

open List Bool Nat

def isWhiteSpace (c : Char) : Bool :=
  let n := c.toNat
  (9 ≤ n && n ≤ 13) || n = 0x20 || n = 0x85 || n = 0xA0 || n = 0x1680 ||
    (0x2000 ≤ n && n ≤ 0x200A) || n = 0x2028 || n = 0x2029 || n = 0x202F || n = 0x205F ||
    n = 0x3000

def trim (cs : List Char) : List Char := (cs.dropWhile isWhiteSpace).rdropWhile isWhiteSpace

def digitsValue (cs : List Char) : Option ℕ :=
  if cs ≠ [] ∧ cs.all Char.isDigit then some (ofDigitChars 10 cs 0) else none

def signedValue : List Char → Option Int
  | '-' :: ds => (digitsValue ds).map fun n : ℕ => -(n : Int)
  | '+' :: ds | ds => (digitsValue ds).map fun n : ℕ => (n : Int)

def parseInt (lo hi : Int) (cs : List Char) : Option Int :=
  (signedValue cs).filter fun n => lo ≤ n && n ≤ hi

def joinCsv (ids : List Int) : String := ",".intercalate (ids.map toString)

def csvFields (csv : String) : List (List Char) :=
  (csv.toList.splitOn ',').filter fun f => !f.isEmpty

theorem toList_toString_ofNat (n : ℕ) : (toString (n : Int)).toList = toDigits 10 n := by
  rw [Int.toString_eq_repr, Int.repr_eq_if, if_pos (by omega), Int.toNat_natCast, toList_repr]

theorem toList_toString_neg {n : Int} (h : n < 0) :
    (toString n).toList = '-' :: toDigits 10 (-n).toNat := by
  rw [Int.toString_eq_repr, Int.repr_eq_if, if_neg (by omega), String.toList_append, toList_repr]
  rfl

theorem char_of_mem_toString {n : Int} {c : Char} (h : c ∈ (toString n).toList) :
    c.isDigit ∨ c = '-' := by
  by_cases hn : n < 0
  · rw [toList_toString_neg hn, mem_cons] at h
    exact h.symm.imp_left (isDigit_of_mem_toDigits (by omega) (by omega))
  · obtain ⟨m, rfl⟩ := Int.eq_ofNat_of_zero_le (Int.not_lt.mp hn)
    rw [toList_toString_ofNat] at h
    exact .inl (isDigit_of_mem_toDigits (by omega) (by omega) h)

theorem toString_ne_nil (n : Int) : (toString n).toList ≠ [] := by
  by_cases hn : n < 0
  · rw [toList_toString_neg hn]
    exact cons_ne_nil _ _
  · obtain ⟨m, rfl⟩ := Int.eq_ofNat_of_zero_le (Int.not_lt.mp hn)
    rw [toList_toString_ofNat]
    exact toDigits_ne_nil

theorem not_isWhiteSpace_of_isDigit {c : Char} (h : c.isDigit) : isWhiteSpace c = false := by
  simp only [Char.isDigit, and_eq_true, decide_eq_true_eq, ge_iff_le, UInt32.le_iff_toNat_le] at h
  have h₁ : 48 ≤ c.toNat := h.1
  have h₂ : c.toNat ≤ 57 := h.2
  simp only [isWhiteSpace, or_eq_false_iff, and_eq_false_iff, decide_eq_false_iff_not]
  omega

theorem not_isWhiteSpace_of_mem_toString {n : Int} {c : Char} (h : c ∈ (toString n).toList) :
    isWhiteSpace c = false := by
  rcases char_of_mem_toString h with h | rfl
  · exact not_isWhiteSpace_of_isDigit h
  · decide

/-! ### The round trip -/

theorem trim_toString (n : Int) : trim (toString n).toList = (toString n).toList := by
  have hne := toString_ne_nil n
  have hdr : (toString n).toList.dropWhile isWhiteSpace = (toString n).toList := by
    rw [dropWhile_eq_self_iff]
    intro hpos
    rw [not_isWhiteSpace_of_mem_toString (getElem_mem hpos)]
    exact false_ne_true
  unfold trim
  rw [hdr, rdropWhile_eq_self_iff]
  intro hl
  rw [not_isWhiteSpace_of_mem_toString (getLast_mem hl)]
  exact false_ne_true

theorem digitsValue_toDigits (n : ℕ) : digitsValue (toDigits 10 n) = some n := by
  have hall : (toDigits 10 n).all Char.isDigit :=
    all_eq_true.mpr fun c hc => isDigit_of_mem_toDigits (by omega) (by omega) hc
  unfold digitsValue
  rw [if_pos ⟨toDigits_ne_nil, hall⟩, ofDigitChars_ten_toDigits]

theorem signedValue_of_digits {cs : List Char} (h : ∀ c ∈ cs, c.isDigit) :
    signedValue cs = (digitsValue cs).map fun n : ℕ => (n : Int) := by
  unfold signedValue
  split
  · exact absurd (h '-' (.head _)) (by decide)
  · exact absurd (h '+' (.head _)) (by decide)
  · rfl

theorem signedValue_toString (n : Int) : signedValue (toString n).toList = some n := by
  by_cases hn : n < 0
  · rw [toList_toString_neg hn]
    rw [signedValue, digitsValue_toDigits, Option.map_some, Int.toNat_of_nonneg (by omega),
      Int.neg_neg]
  · obtain ⟨m, rfl⟩ := Int.eq_ofNat_of_zero_le (Int.not_lt.mp hn)
    rw [toList_toString_ofNat, signedValue_of_digits fun c hc =>
      isDigit_of_mem_toDigits (by omega) (by omega) hc, digitsValue_toDigits, Option.map_some]

/-- **Parsing inverts printing**, white space around the number or not. -/
theorem parseInt_trim_toString {lo hi n : Int} (hlo : lo ≤ n) (hhi : n ≤ hi) :
    parseInt lo hi (trim (toString n).toList) = some n := by
  unfold parseInt
  rw [trim_toString, signedValue_toString, Option.filter_some, if_pos]
  simp only [and_eq_true, decide_eq_true_eq]
  exact ⟨hlo, hhi⟩

/-- **Cutting inverts joining**: the fields of a joined list are the written integers. -/
theorem csvFields_joinCsv {ids : List Int} (h : ids ≠ []) :
    csvFields (joinCsv ids) = ids.map fun n => (toString n).toList := by
  have hli : (joinCsv ids).toList = [','].intercalate (ids.map fun n => (toString n).toList) := by
    unfold joinCsv
    rw [String.toList_intercalate, map_map]
    rfl
  unfold csvFields
  rw [hli, splitOn_intercalate]
  · rw [filter_eq_self]
    intro f hf
    obtain ⟨n, -, rfl⟩ := mem_map.mp hf
    simpa using toString_ne_nil n
  · intro f hf hc
    obtain ⟨n, -, rfl⟩ := mem_map.mp hf
    rcases char_of_mem_toString hc with h | h
    · exact absurd h (by decide)
    · exact absurd h (by decide)
  · simpa using h

end Decimal
