import Mathlib.Data.UInt

/-!
# Byte ranges of locks

A lock range is an offset and a length, both 64-bit; a length of all ones reaches to the end of the
file. Conflicts are found with `stop`, which saturates. What an unlock leaves of a held range is
computed in `trim_owner_range` with sums that wrap, and there a length of all ones is not treated
apart: the end of a cut `[c, EOF)` comes out as `c - 1`.
-/

namespace Flint.Locking

open List

inductive Nfs4Status
  | ok | noFileHandle | badStateId | inval | badSession | delay | noGrace | grace | denied
deriving DecidableEq

inductive LockType
  | read | write | readWrite | writeRead
deriving DecidableEq

def LockType.code : LockType → UInt32
  | .read => 1
  | .write => 2
  | .readWrite => 3
  | .writeRead => 4

def LockType.ofCode (c : UInt32) : Option LockType :=
  if c = 1 then some .read
  else if c = 2 then some .write
  else if c = 3 then some .readWrite
  else if c = 4 then some .writeRead
  else none

theorem LockType.ofCode_code (t : LockType) : LockType.ofCode t.code = some t := by
  cases t <;> decide

structure LockRange where
  offset : UInt64
  length : UInt64
deriving DecidableEq

def toEof : UInt64 := 18446744073709551615

def checkedAdd (a b : UInt64) : Option UInt64 :=
  if a.toNat + b.toNat < 2 ^ 64 then some (a + b) else none

def validateLockRange (offset length : UInt64) : Except Nfs4Status Unit :=
  if length = 0 then .error .inval
  else if length ≠ toEof ∧ checkedAdd offset length = none then .error .inval
  else .ok ()

namespace LockRange

def stop (r : LockRange) : UInt64 :=
  if r.length = toEof ∨ r.length = 0 then toEof else (checkedAdd r.offset r.length).getD toEof

def overlaps (r other : LockRange) : Bool := r.offset < other.stop && other.offset < r.stop

def conflictsWith (r other : LockRange) (selfType otherType : LockType) : Bool :=
  if !r.overlaps other then false
  else if selfType = .read ∧ otherType = .read then false
  else true

def leftOf (held cut : LockRange) : List LockRange :=
  if held.offset < cut.offset then [⟨held.offset, cut.offset - held.offset⟩] else []

/-- The part of a held range after the cut: the sums wrap, and of the two ways to write "to the end
of the file" only the old one, 0, is treated apart. -/
def rightOf (held cut : LockRange) : List LockRange :=
  if cut.length = 0 then []
  else if held.length = 0 then [⟨cut.offset + cut.length, 0⟩]
  else if held.offset + held.length > cut.offset + cut.length then
    [⟨cut.offset + cut.length, held.offset + held.length - (cut.offset + cut.length)⟩]
  else []

def survivors (held cut : LockRange) : List LockRange := held.leftOf cut ++ held.rightOf cut

/-! ### The bytes of a range -/

/-- The byte `b` belongs to the range. A range to the end of the file covers every byte from its
offset up. -/
def Covers (r : LockRange) (b : ℕ) : Prop :=
  r.offset.toNat ≤ b ∧ (r.length = toEof ∨ r.length = 0 ∨ b < r.offset.toNat + r.length.toNat)

instance (r : LockRange) (b : ℕ) : Decidable (r.Covers b) := inferInstanceAs (Decidable (_ ∧ _))

structure Valid (r : LockRange) : Prop where
  nonzero : r.length ≠ 0
  fits : r.length = toEof ∨ r.offset.toNat + r.length.toNat < 2 ^ 64

/-- A valid range that does not start at the very last offset. -/
structure Proper (r : LockRange) : Prop extends Valid r where
  starts : r.offset ≠ toEof

theorem toNat_toEof : toEof.toNat = 2 ^ 64 - 1 := by decide

theorem toNat_eq_toEof {x : UInt64} : x = toEof ↔ x.toNat = 2 ^ 64 - 1 := by
  rw [← UInt64.toNat_inj, toNat_toEof]

theorem checkedAdd_eq_none {a b : UInt64} : checkedAdd a b = none ↔ 2 ^ 64 ≤ a.toNat + b.toNat := by
  unfold checkedAdd
  split
  · next h => exact ⟨nofun, fun hle => absurd h (Nat.not_lt.mpr hle)⟩
  · next h => exact ⟨fun _ => Nat.not_lt.mp h, fun _ => rfl⟩

theorem validateLockRange_ok {offset length : UInt64} :
    validateLockRange offset length = .ok () ↔ Valid ⟨offset, length⟩ := by
  unfold validateLockRange
  simp only [checkedAdd_eq_none]
  constructor
  · intro h
    split_ifs at h with h₁ h₂
    refine ⟨h₁, ?_⟩
    by_cases heof : length = toEof
    · exact .inl heof
    · exact .inr (Nat.not_le.mp fun hle => h₂ ⟨heof, hle⟩)
  · rintro ⟨h₁, h₂⟩
    rw [if_neg h₁, if_neg]
    rintro ⟨heof, hle⟩
    exact absurd (h₂.resolve_left heof) (Nat.not_lt.mpr hle)

theorem toNat_eq_zero {x : UInt64} : x = 0 ↔ x.toNat = 0 := UInt64.toNat_inj.symm

variable {r : LockRange}

theorem toNat_stop : r.stop.toNat =
    if r.length.toNat = 2 ^ 64 - 1 ∨ r.length.toNat = 0 then 2 ^ 64 - 1
    else min (r.offset.toNat + r.length.toNat) (2 ^ 64 - 1) := by
  unfold stop checkedAdd
  simp only [toNat_eq_toEof, toNat_eq_zero]
  split_ifs with heof hlt
  · rw [toNat_toEof]
  · change (r.offset + r.length).toNat = _
    rw [UInt64.toNat_add]
    omega
  · change toEof.toNat = _
    rw [toNat_toEof]
    omega

theorem Valid.cases (h : r.Valid) :
    0 < r.length.toNat ∧ (r.length.toNat = 2 ^ 64 - 1 ∨
      r.length.toNat ≠ 2 ^ 64 - 1 ∧ r.offset.toNat + r.length.toNat < 2 ^ 64) := by
  refine ⟨Nat.pos_of_ne_zero fun h0 => h.nonzero (UInt64.toNat_inj.mp h0), ?_⟩
  by_cases heof : r.length = toEof
  · exact .inl (toNat_eq_toEof.mp heof)
  · exact .inr ⟨fun hlen => heof (toNat_eq_toEof.mpr hlen), h.fits.resolve_left heof⟩

theorem Proper.toNat_ne (h : r.Proper) : r.offset.toNat ≠ 2 ^ 64 - 1 :=
  fun heq => h.starts (toNat_eq_toEof.mpr heq)

variable {q : LockRange}

theorem overlaps_iff (hq : q.Valid) : r.overlaps q ↔
    (r.offset.toNat <
      if q.length.toNat = 2 ^ 64 - 1 then 2 ^ 64 - 1 else q.offset.toNat + q.length.toNat) ∧
    q.offset.toNat < if r.length.toNat = 2 ^ 64 - 1 ∨ r.length.toNat = 0 then 2 ^ 64 - 1
      else min (r.offset.toNat + r.length.toNat) (2 ^ 64 - 1) := by
  have hcas := hq.cases
  unfold overlaps
  rw [Bool.and_eq_true, decide_eq_true_eq, decide_eq_true_eq, UInt64.lt_iff_toNat_lt,
    UInt64.lt_iff_toNat_lt, toNat_stop, toNat_stop]
  split_ifs <;> omega

theorem covers_iff {b : ℕ} : r.Covers b ↔ r.offset.toNat ≤ b ∧ (r.length.toNat = 2 ^ 64 - 1 ∨
    r.length.toNat = 0 ∨ b < r.offset.toNat + r.length.toNat) := by
  rw [Covers, toNat_eq_toEof, toNat_eq_zero]

theorem Valid.overlaps_iff (hr : r.Valid) (hq : q.Valid) : r.overlaps q ↔
    (r.offset.toNat <
      if q.length.toNat = 2 ^ 64 - 1 then 2 ^ 64 - 1 else q.offset.toNat + q.length.toNat) ∧
    q.offset.toNat <
      if r.length.toNat = 2 ^ 64 - 1 then 2 ^ 64 - 1 else r.offset.toNat + r.length.toNat := by
  have hcas := hr.cases
  rw [LockRange.overlaps_iff hq]
  split_ifs <;> omega

theorem Valid.covers_iff (h : r.Valid) {b : ℕ} : r.Covers b ↔ r.offset.toNat ≤ b ∧
    (r.length.toNat = 2 ^ 64 - 1 ∨ b < r.offset.toNat + r.length.toNat) := by
  have hcas := h.cases
  rw [LockRange.covers_iff]
  omega

/-- **The saturating test is right**, for ranges that start below the last offset. -/
theorem not_covers_of_not_overlaps (hr : r.Proper) (hq : q.Proper) (h : r.overlaps q = false)
    (b : ℕ) : ¬(r.Covers b ∧ q.Covers b) := by
  rw [hr.covers_iff, hq.covers_iff]
  rintro ⟨hbr, hbq⟩
  have hov : r.overlaps q := by
    rw [hr.overlaps_iff hq.toValid]
    have hr₀ := hr.toNat_ne
    have hq₀ := hq.toNat_ne
    have hlt₁ := r.offset.toNat_lt
    have hlt₂ := q.offset.toNat_lt
    have hr₁ := hr.toValid.cases
    have hq₁ := hq.toValid.cases
    split_ifs <;> omega
  rw [h] at hov
  cases hov

/-! ### What a cut leaves -/

theorem toNat_wrappingEnd (h : r.Valid) :
    (r.offset + r.length).toNat =
      if r.length.toNat = 2 ^ 64 - 1 then
        (if r.offset.toNat = 0 then 2 ^ 64 - 1 else r.offset.toNat - 1)
      else r.offset.toNat + r.length.toNat := by
  have hlt := r.offset.toNat_lt
  rw [UInt64.toNat_add]
  have hcas := h.cases
  split_ifs <;> omega

variable {held cut : LockRange}

theorem mem_survivors (hh : held.Valid) (hc : cut.Valid) :
    r ∈ held.survivors cut ↔
      held.offset.toNat < cut.offset.toNat ∧ r.offset.toNat = held.offset.toNat ∧
        r.length.toNat = cut.offset.toNat - held.offset.toNat ∨
      (cut.offset + cut.length).toNat < (held.offset + held.length).toNat ∧
        r.offset.toNat = (cut.offset + cut.length).toNat ∧
        r.length.toNat = (held.offset + held.length).toNat - (cut.offset + cut.length).toNat := by
  have hext : ∀ o l : UInt64, r = ⟨o, l⟩ ↔ r.offset.toNat = o.toNat ∧ r.length.toNat = l.toNat := by
    intro o l
    rw [UInt64.toNat_inj, UInt64.toNat_inj]
    constructor
    · rintro rfl
      exact ⟨rfl, rfl⟩
    · rintro ⟨rfl, rfl⟩
      rfl
  have hside : ∀ o a b : UInt64, (r ∈ if a < b then [⟨o, b - a⟩] else []) ↔ a.toNat < b.toNat ∧
      r.offset.toNat = o.toNat ∧ r.length.toNat = b.toNat - a.toNat := by
    intro o a b
    split
    · next hlt =>
      have hlt' := UInt64.lt_iff_toNat_lt.mp hlt
      rw [mem_singleton, hext, UInt64.toNat_sub_of_le _ _ (UInt64.le_of_lt hlt)]
      exact ⟨fun h => ⟨hlt', h⟩, And.right⟩
    · next hlt => exact ⟨nofun, fun h => absurd (UInt64.lt_iff_toNat_lt.mpr h.1) hlt⟩
  unfold survivors leftOf rightOf
  rw [if_neg hc.nonzero, if_neg hh.nonzero, mem_append]
  exact or_congr (hside ..) (hside ..)

/-- The cut runs to the end of the file, and its wrapped end lies before the held range. -/
def Overshoots (cut held : LockRange) : Prop :=
  cut.length = toEof ∧ 0 < cut.offset.toNat ∧
    if held.length = toEof then cut.offset.toNat < held.offset.toNat
    else cut.offset.toNat ≤ held.offset.toNat

instance (cut held : LockRange) : Decidable (Overshoots cut held) :=
  inferInstanceAs (Decidable (_ ∧ _))

/-- **What a cut leaves is part of the range**, unless the cut overshoots. -/
theorem survivors_subset (hh : held.Proper) (hc : cut.Valid) (hov : held.overlaps cut)
    (hshoot : ¬Overshoots cut held) (hr : r ∈ held.survivors cut) :
    r.Proper ∧ ∀ b, r.Covers b → held.Covers b := by
  rw [hh.overlaps_iff hc] at hov
  rw [mem_survivors hh.toValid hc, toNat_wrappingEnd hh.toValid, toNat_wrappingEnd hc] at hr
  have hst := hh.toNat_ne
  have hlt₁ := held.offset.toNat_lt
  have hlt₂ := cut.offset.toNat_lt
  unfold Overshoots at hshoot
  simp only [toNat_eq_toEof] at hshoot
  -- where the piece lies, and that its sum is exact or it runs to the end as the range does
  have hpiece : r.length.toNat ≠ 0 ∧ r.offset.toNat ≠ 2 ^ 64 - 1 ∧
      held.offset.toNat ≤ r.offset.toNat ∧
      (r.length.toNat = 2 ^ 64 - 1 ∧ held.length.toNat = 2 ^ 64 - 1 ∨
        r.length.toNat ≠ 2 ^ 64 - 1 ∧ r.offset.toNat + r.length.toNat < 2 ^ 64 ∧
        (held.length.toNat = 2 ^ 64 - 1 ∨
          r.offset.toNat + r.length.toNat ≤ held.offset.toNat + held.length.toNat)) := by
    have hcas₁ := hh.toValid.cases
    have hcas₂ := hc.cases
    split_ifs at hov hshoot hr <;> omega
  obtain ⟨hpos, hoff, hlo, hlen⟩ := hpiece
  have hval : r.Valid := by
    refine ⟨fun h0 => hpos (by rw [h0]; rfl), ?_⟩
    rw [toNat_eq_toEof]
    omega
  refine ⟨⟨hval, fun h => hoff (toNat_eq_toEof.mp h)⟩, fun b hb => ?_⟩
  rw [hval.covers_iff] at hb
  rw [hh.covers_iff]
  omega

/-- The sums of `trim_owner_range` are right: both ranges have an end; or the cut takes everything;
or both run to the end of the file and the held range starts first. -/
def CutsExactly (cut held : LockRange) : Prop :=
  held.length ≠ toEof ∧ cut.length ≠ toEof ∨
    cut.length = toEof ∧ cut.offset = 0 ∧ held.offset ≠ toEof ∨
    cut.length = toEof ∧ held.length = toEof ∧ 0 < held.offset.toNat ∧
      held.offset.toNat ≤ cut.offset.toNat ∧ cut.offset ≠ toEof

instance (cut held : LockRange) : Decidable (CutsExactly cut held) :=
  inferInstanceAs (Decidable (_ ∨ _))

def Meets (r q : LockRange) : Prop :=
  r.Covers (max r.offset.toNat q.offset.toNat) ∧ q.Covers (max r.offset.toNat q.offset.toNat)

instance (r q : LockRange) : Decidable (r.Meets q) := inferInstanceAs (Decidable (_ ∧ _))

theorem meets_iff : r.Meets q ↔ ∃ b, r.Covers b ∧ q.Covers b := by
  refine ⟨fun h => ⟨_, h⟩, ?_⟩
  rintro ⟨b, ⟨hr, hr'⟩, hq, hq'⟩
  have hle : max r.offset.toNat q.offset.toNat ≤ b := Nat.max_le.mpr ⟨hr, hq⟩
  refine ⟨⟨Nat.le_max_left _ _, ?_⟩, Nat.le_max_right _ _, ?_⟩
  · exact hr'.imp_right fun h => h.imp_right fun hlt => Nat.lt_of_le_of_lt hle hlt
  · exact hq'.imp_right fun h => h.imp_right fun hlt => Nat.lt_of_le_of_lt hle hlt

theorem CutsExactly.toNat (h : CutsExactly cut held) :
    held.length.toNat ≠ 2 ^ 64 - 1 ∧ cut.length.toNat ≠ 2 ^ 64 - 1 ∨
      cut.length.toNat = 2 ^ 64 - 1 ∧ cut.offset.toNat = 0 ∧ held.offset.toNat ≠ 2 ^ 64 - 1 ∨
      cut.length.toNat = 2 ^ 64 - 1 ∧ held.length.toNat = 2 ^ 64 - 1 ∧ 0 < held.offset.toNat ∧
        held.offset.toNat ≤ cut.offset.toNat ∧ cut.offset.toNat ≠ 2 ^ 64 - 1 := by
  unfold CutsExactly at h
  simp only [ne_eq, toNat_eq_toEof, ← UInt64.toNat_inj (b := 0)] at h
  exact h

theorem covers_survivors {b : ℕ} (hc : cut.Valid) (hov : held.overlaps cut) :
    (∃ r ∈ held.survivors cut, r.Covers b) ↔ held.offset.toNat ≤ b ∧ b < cut.offset.toNat ∨
      (cut.offset + cut.length).toNat ≤ b ∧ (held.length.toNat = 0 ∨
        (cut.offset + cut.length).toNat < (held.offset + held.length).toNat ∧
        (b < (held.offset + held.length).toNat ∨
          (held.offset + held.length).toNat = (cut.offset + cut.length).toNat + (2 ^ 64 - 1))) := by
  rw [overlaps_iff hc] at hov
  have hcas := hc.cases
  have hlt := cut.offset.toNat_lt
  unfold survivors leftOf rightOf
  rw [if_neg hc.nonzero]
  simp only [mem_append, or_and_right, exists_or, gt_iff_lt, toNat_eq_zero]
  refine or_congr ?_ ?_
  · split
    · next h =>
      have hsub := UInt64.toNat_sub_of_le _ _ (UInt64.le_of_lt h)
      rw [UInt64.lt_iff_toNat_lt] at h
      simp only [mem_singleton, exists_eq_left, covers_iff, hsub]
      split_ifs at hov <;> omega
    · next h =>
      rw [UInt64.lt_iff_toNat_lt] at h
      simp only [not_mem_nil, false_and, exists_false, false_iff]
      omega
  · split_ifs with hz h
    · simp [covers_iff, hz]
    · have hsub := UInt64.toNat_sub_of_le _ _ (UInt64.le_of_lt h)
      rw [UInt64.lt_iff_toNat_lt] at h
      simp only [mem_singleton, exists_eq_left, covers_iff, hsub]
      omega
    · rw [UInt64.lt_iff_toNat_lt] at h
      simp only [not_mem_nil, false_and, exists_false, false_iff]
      omega

def remains (held cut : LockRange) : List LockRange :=
  if held.overlaps cut then held.survivors cut else [held]

theorem covers_remains_iff {b : ℕ} : (∃ r ∈ held.remains cut, r.Covers b) ↔
    held.overlaps cut ∧ (∃ r ∈ held.survivors cut, r.Covers b) ∨
      ¬held.overlaps cut ∧ held.Covers b := by
  unfold remains
  split <;> simp [*]

theorem meets_iff_toNat (hc : cut.Valid) : held.Meets cut ↔
    (cut.length.toNat = 2 ^ 64 - 1 ∨ held.offset.toNat < cut.offset.toNat + cut.length.toNat) ∧
    (held.length.toNat = 2 ^ 64 - 1 ∨ held.length.toNat = 0 ∨
      cut.offset.toNat < held.offset.toNat + held.length.toNat) := by
  have hcas := hc.cases
  rw [Meets, covers_iff, covers_iff]
  omega

/-- **A cut leaves the bytes outside it**, where it cuts exactly. -/
theorem covers_remains (hh : held.Valid) (hc : cut.Valid)
    (hexa : held.Meets cut → CutsExactly cut held) :
    (∀ r ∈ held.remains cut, r.Valid) ∧
      ∀ b, (∃ r ∈ held.remains cut, r.Covers b) ↔ held.Covers b ∧ ¬cut.Covers b := by
  have hcas₁ := hh.cases
  have hcas₂ := hc.cases
  have hlt₁ := held.offset.toNat_lt
  have hlt₂ := cut.offset.toNat_lt
  have hex := fun hmt => (hexa ((meets_iff_toNat hc).mpr hmt)).toNat
  refine ⟨fun r hr => ?_, fun b => ?_⟩
  · unfold remains at hr
    split at hr
    · next hov =>
      rw [hh.overlaps_iff hc] at hov
      rw [mem_survivors hh hc, toNat_wrappingEnd hh, toNat_wrappingEnd hc] at hr
      have hpos : r.length.toNat ≠ 0 ∧ r.offset.toNat + r.length.toNat < 2 ^ 64 := by
        split_ifs at hov hr <;> omega
      exact ⟨fun h0 => hpos.1 (by rw [h0]; rfl), .inr hpos.2⟩
    · exact mem_singleton.mp hr ▸ hh
  · rw [covers_remains_iff, and_congr_right (covers_survivors hc), hh.overlaps_iff hc,
    hh.covers_iff, hc.covers_iff, toNat_wrappingEnd hh, toNat_wrappingEnd hc]
    split_ifs <;> omega

end LockRange

end Flint.Locking
