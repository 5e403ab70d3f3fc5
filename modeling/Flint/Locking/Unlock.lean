import Flint.Locking.Requests

/-!
# An unlock as a difference of sets of bytes

`trim_owner_range` should leave its owner the bytes that it had outside the cut, each in its mode
(`CutOut`). Its sums wrap, and a range to the end of the file then gets an end that lies before its
start.
-/

namespace Flint.Locking

open LockManager LockRange

def HasByte (m : LockManager) (w : Holder) (t : LockType) (b : ℕ) : Prop :=
  ∃ r, Holds m w t r ∧ r.Covers b

structure CutOut (m : LockManager) (w : Holder) (cut : LockRange) (m' : LockManager) : Prop where
  bytes : ∀ t b, HasByte m' w t b ↔ HasByte m w t b ∧ ¬cut.Covers b
  others : ∀ e : Lock, e.holder ≠ w → (e ∈ m'.locks ↔ e ∈ m.locks)

namespace LockRange

/-- A byte behind a cut that has an end, in a range that the cut does not meet or whose sum gives an
end behind the byte. -/
def Outlasts (r cut : LockRange) (b : ℕ) : Prop :=
  r.Covers b ∧ (¬r.Meets cut ∨ r.length = 0 ∨
    b < r.offset.toNat + r.length.toNat ∧ r.offset.toNat + r.length.toNat < 2 ^ 64)

/-- A range of which a cut to the end of the file leaves at most one byte too many. -/
def Ends (r cut : LockRange) : Prop :=
  r.length ≠ 0 ∧ r.offset ≠ toEof ∧ (cut.offset = 0 ∨ cut.offset ≠ toEof ∧
    2 ^ 64 ≤ r.offset.toNat + r.length.toNat ∧
      r.offset.toNat + r.length.toNat ≤ 2 ^ 64 + cut.offset.toNat)

def Spills (r cut : LockRange) : Prop :=
  cut.offset ≠ 0 ∧ r.offset.toNat + r.length.toNat = 2 ^ 64 + cut.offset.toNat

end LockRange

def SumsRight (m : LockManager) (w : Holder) (cut : LockRange) : Prop :=
  ∀ t r, Holds m w t r → r.Meets cut →
    if cut.length = toEof then
      r.Ends cut ∧ (r.Spills cut → HasByte m w t (cut.offset.toNat - 1))
    else
      ∀ b, cut.offset.toNat + cut.length.toNat ≤ b → r.Covers b →
        ∃ r', Holds m w t r' ∧ r'.Outlasts cut b

namespace LockRange

variable {held cut : LockRange} {b : ℕ}

theorem covers_remains_of_end (hc : cut.Valid) (hend : cut.length ≠ toEof) :
    (∃ r ∈ held.remains cut, r.Covers b) ↔ held.Covers b ∧ b < cut.offset.toNat ∨
      cut.offset.toNat + cut.length.toNat ≤ b ∧ held.Outlasts cut b := by
  have hcas := hc.cases
  rw [ne_eq, toNat_eq_toEof] at hend
  have hlt := held.offset.toNat_lt
  have hlt' := held.length.toNat_lt
  rw [covers_remains_iff, and_congr_right (covers_survivors hc), overlaps_iff hc, Outlasts,
    meets_iff_toNat hc, covers_iff, toNat_eq_zero, UInt64.toNat_add, UInt64.toNat_add]
  split_ifs <;> omega

theorem covers_remains_of_eof (hc : cut.Valid) (heof : cut.length = toEof)
    (h : held.Meets cut → held.Ends cut) :
    (∃ r ∈ held.remains cut, r.Covers b) ↔ held.Covers b ∧ b < cut.offset.toNat ∨
      (held.Meets cut ∧ held.Spills cut) ∧ b = cut.offset.toNat - 1 := by
  rw [toNat_eq_toEof] at heof
  simp only [Ends, ne_eq, toNat_eq_toEof, toNat_eq_zero, meets_iff_toNat hc] at h
  have hlt := held.offset.toNat_lt
  have hlt' := held.length.toNat_lt
  have hlt₂ := cut.offset.toNat_lt
  rw [covers_remains_iff, and_congr_right (covers_survivors hc), overlaps_iff hc, Spills,
    meets_iff_toNat hc, covers_iff, ne_eq, toNat_eq_zero, UInt64.toNat_add, UInt64.toNat_add]
  split_ifs <;> omega

theorem ends_of_cleared (hc : cut.Valid) (heof : cut.length = toEof) (hmt : held.Meets cut)
    (h : ∀ b, (∃ r ∈ held.remains cut, r.Covers b) → b < cut.offset.toNat) : held.Ends cut := by
  have hla := h (2 ^ 64 - 1)
  have hfst := h cut.offset.toNat
  rw [toNat_eq_toEof] at heof
  rw [meets_iff_toNat hc] at hmt
  have hlt := held.offset.toNat_lt
  have hlt' := held.length.toNat_lt
  have hlt₂ := cut.offset.toNat_lt
  simp only [Ends, ne_eq, toNat_eq_toEof, toNat_eq_zero]
  rw [covers_remains_iff, and_congr_right (covers_survivors hc), overlaps_iff hc,
    covers_iff, UInt64.toNat_add, UInt64.toNat_add] at hla hfst
  split_ifs at hla hfst <;> omega

end LockRange

variable {m : LockManager} {w : Holder} {cut : LockRange}

theorem Trimmed.others {m' : LockManager} (h : Indexed m)
    (htrim : Trimmed w.clientId w.owner w.filehandle cut (m.locksByFh w.filehandle) m m') {e : Lock}
    (he : e.holder ≠ w) : e ∈ m'.locks ↔ e ∈ m.locks := by
  refine ⟨fun hm => ?_, fun hm => htrim.kept e hm fun ⟨⟨hc, ho, _⟩, hk⟩ => he ?_⟩
  · rcases htrim.origin e hm with ⟨hm, _⟩ | ⟨_, _, _, _, _, _, _, hfor⟩
    · exact hm
    · exact absurd hfor.holder he
  · rw [Lock.holder, hc, ho, (h.mem_list hm).mp hk]

/-- **An unlock is a difference of sets of bytes** exactly when the sums are right. -/
theorem cutOut_iff (h : Indexed m) (hcut : validateLockRange cut.offset cut.length = .ok ())
    (hrm : m.entryKeyCounter.toNat + 2 * (m.locksByFh w.filehandle).length < 2 ^ 64) :
    CutOut m w cut (m.trimOwnerRange w.clientId w.owner w.filehandle cut) ↔ SumsRight m w cut := by
  have hc : cut.Valid := validateLockRange_ok.mp hcut
  have htrim := trimOwnerRange_spec w.clientId w.owner cut h hrm
  have hbyte : ∀ t b, HasByte (m.trimOwnerRange w.clientId w.owner w.filehandle cut) w t b ↔
      ∃ r, Holds m w t r ∧ ∃ r' ∈ r.remains cut, r'.Covers b := by
    intro t b
    simp only [HasByte, htrim.holds h, rangesLeft, if_true]
    exact ⟨fun ⟨r', ⟨r, hr, hr'⟩, hb⟩ => ⟨r, hr, r', hr', hb⟩,
      fun ⟨r, hr, r', hr', hb⟩ => ⟨r', ⟨r, hr, hr'⟩, hb⟩⟩
  have hout : ∀ {b}, ¬cut.Covers b ↔ b < cut.offset.toNat ∨
      cut.length ≠ toEof ∧ cut.offset.toNat + cut.length.toNat ≤ b := by
    intro b
    rw [hc.covers_iff, ne_eq, toNat_eq_toEof]
    omega
  refine ⟨fun hcutOut t r hr hmeet => ?_, fun hright => ⟨fun t b => ?_, fun e => htrim.others h⟩⟩
  · have hlf : ∀ b, (∃ r' ∈ r.remains cut, r'.Covers b) → HasByte m w t b ∧ ¬cut.Covers b :=
      fun b hb => (hcutOut.bytes t b).mp ((hbyte t b).mpr ⟨r, hr, hb⟩)
    split
    · next heof =>
      have hends := ends_of_cleared hc heof hmeet fun b hb =>
        (hout.mp (hlf b hb).2).resolve_right fun hend => hend.1 heof
      exact ⟨hends, fun hspill => (hlf _ ((covers_remains_of_eof hc heof fun _ => hends).mpr
        (.inr ⟨⟨hmeet, hspill⟩, rfl⟩))).1⟩
    · next hend =>
      intro b hle hb
      obtain ⟨r', hr', hb'⟩ := (hbyte t b).mp
        ((hcutOut.bytes t b).mpr ⟨⟨r, hr, hb⟩, hout.mpr (.inr ⟨hend, hle⟩)⟩)
      refine ⟨r', hr', ?_⟩
      exact (((covers_remains_of_end hc hend).mp hb').resolve_left fun hlt => by omega).2
  · rw [hbyte]
    by_cases heof : cut.length = toEof
    · have hends : ∀ {r}, Holds m w t r → r.Meets cut →
          r.Ends cut ∧ (r.Spills cut → HasByte m w t (cut.offset.toNat - 1)) := fun hr hmeet => by
        have hsums := hright t _ hr hmeet
        rwa [if_pos heof] at hsums
      constructor
      · rintro ⟨r, hr, hb⟩
        rcases (covers_remains_of_eof hc heof fun hmeet => (hends hr hmeet).1).mp hb with
          ⟨hb, hlt⟩ | ⟨⟨hmeet, hspill⟩, rfl⟩
        · exact ⟨⟨r, hr, hb⟩, hout.mpr (.inl hlt)⟩
        · have hpos := mt toNat_eq_zero.mpr hspill.1
          exact ⟨(hends hr hmeet).2 hspill, hout.mpr (.inl (by omega))⟩
      · rintro ⟨⟨r, hr, hb⟩, hnot⟩
        have hlt := (hout.mp hnot).resolve_right fun hend => hend.1 heof
        exact ⟨r, hr, (covers_remains_of_eof hc heof fun hmeet => (hends hr hmeet).1).mpr
          (.inl ⟨hb, hlt⟩)⟩
    · constructor
      · rintro ⟨r, hr, hb⟩
        rcases (covers_remains_of_end hc heof).mp hb with ⟨hb, hlt⟩ | ⟨hle, hb, -⟩
        · exact ⟨⟨r, hr, hb⟩, hout.mpr (.inl hlt)⟩
        · exact ⟨⟨r, hr, hb⟩, hout.mpr (.inr ⟨heof, hle⟩)⟩
      · rintro ⟨⟨r, hr, hb⟩, hnot⟩
        rcases hout.mp hnot with hlt | ⟨-, hle⟩
        · exact ⟨r, hr, (covers_remains_of_end hc heof).mpr (.inl ⟨hb, hlt⟩)⟩
        · -- behind the cut the byte may be in another entry
          obtain ⟨r', hr', hlasts⟩ : ∃ r', Holds m w t r' ∧ r'.Outlasts cut b := by
            by_cases hmeet : r.Meets cut
            · have hsums := hright t r hr hmeet
              rw [if_neg heof] at hsums
              exact hsums b hle hb
            · exact ⟨r, hr, hb, .inl hmeet⟩
          exact ⟨r', hr', (covers_remains_of_end hc heof).mpr (.inr ⟨hle, hlasts⟩)⟩

def hundredLocked : LockManager := LockManager.new.addMinted 1 [10] [1] .write ⟨0, 100⟩

theorem holds_hundredLocked {t : LockType} {r : LockRange}
    (h : Holds hundredLocked ⟨1, [10], [1]⟩ t r) :
    r = ⟨0, 100⟩ := by
  rcases (addMinted_holds .new _ _ _).mp h with ⟨-, -, rfl⟩ | ⟨e, he, -⟩
  · rfl
  · exact absurd he (KeyedTable.not_mem_empty e)

/-- The bytes from 60 to 69 are taken out of the middle. -/
theorem unlocked_in_the_middle : CutOut hundredLocked ⟨1, [10], [1]⟩ ⟨60, 10⟩
    (hundredLocked.trimOwnerRange 1 [10] [1] ⟨60, 10⟩) := by
  refine (cutOut_iff (w := ⟨1, [10], [1]⟩)
    (addMinted_indexed 1 [10] [1] .write ⟨0, 100⟩ .new (by decide))
    (by decide) (by decide)).mpr fun t r hr _ => ?_
  obtain rfl := holds_hundredLocked hr
  exact fun b _ hb => ⟨_, hr, hb,
    .inr (.inr ⟨(hb.2.resolve_left (by decide)).resolve_left (by decide),
    by decide⟩)⟩

/-- An unlock from byte 50 to the end of the file leaves byte 50 locked. -/
theorem unlock_to_eof_keeps_bytes : validateLockRange 50 toEof = .ok () ∧
    ∃ e ∈ (hundredLocked.trimOwnerRange 1 [10] [1] ⟨50, toEof⟩).locks,
      e.holder = ⟨1, [10], [1]⟩ ∧ e.lockType = .write ∧ e.range.Covers 50 := by
  decide

end Flint.Locking
