import Flint.Basic.Register

/-!
# Epochs of a register

The values of a register carry an epoch. `Register.Grows` is a move that does not bring it down, and
`Register.Held` says that an answer was read and the register is in its epoch or a later one.

`Register.Entitled r e x` is the condition on a write stamped `e` whose writer read `x`: if nothing
was written since, the register is in the epoch `e` or an earlier one.
-/

namespace Register

variable {V : Type} {epoch : V → ℕ} {r r' : Register V} {x : Option (ℕ × V)} {e : ℕ} {v : V}

def AtLeast (epoch : V → ℕ) (r : Register V) (e : ℕ) : Prop := ∃ v, r.value = some v ∧ e ≤ epoch v

def AtMost (epoch : V → ℕ) (r : Register V) (e : ℕ) : Prop := ∀ v ∈ r.value, epoch v ≤ e

theorem AtLeast.le_of_atMost {e₀ : ℕ} (h : r.AtLeast epoch e₀) (hmo : r.AtMost epoch e) :
    e₀ ≤ e := by
  obtain ⟨v, hv, hle⟩ := h
  exact Nat.le_trans hle (hmo v hv)

theorem atLeast_put (v : V) : (r.put v).AtLeast epoch (epoch v) := ⟨v, rfl, Nat.le_refl _⟩

def Grows (epoch : V → ℕ) (r r' : Register V) : Prop :=
  r' = r ∨ ∃ v, r' = r.put v ∧ r.AtMost epoch (epoch v)

namespace Grows

theorem refl (r : Register V) : r.Grows epoch r := .inl rfl

theorem atLeast (h : r.Grows epoch r') (he : r.AtLeast epoch e) : r'.AtLeast epoch e := by
  rcases h with rfl | ⟨v, rfl, hmo⟩
  · exact he
  · exact ⟨v, rfl, he.le_of_atMost hmo⟩

theorem seen (h : r.Grows epoch r') (hx : r.Seen x) : r'.Seen x := by
  rcases h with rfl | ⟨v, rfl, -⟩
  · exact hx
  · exact hx.put v

end Grows

/-- `o` was read or written, and the epoch has not gone back since. -/
structure Held (epoch : V → ℕ) (r : Register V) (o : ℕ × V) : Prop where
  seen : r.Seen (some o)
  atLeast : r.AtLeast epoch (epoch o.2)

theorem Held.grows {o : ℕ × V} (ho : r.Held epoch o) (h : r.Grows epoch r') : r'.Held epoch o :=
  ⟨h.seen ho.seen, h.atLeast ho.atLeast⟩

theorem held_put (v : V) : (r.put v).Held epoch ((r.put v).version, v) :=
  ⟨(r.put v).seen_read, atLeast_put v⟩

theorem held_read {o : ℕ × V} (h : r.read = some o) : r.Held epoch o := by
  have hsn : r.Seen r.read := r.seen_read
  rw [h] at hsn
  obtain ⟨v, hv, rfl⟩ := Option.map_eq_some_iff.mp h
  exact ⟨hsn, v, hv, Nat.le_refl _⟩

/-- A conditional write that names a value which was read takes effect on that value. -/
theorem Held.atMost {o : ℕ × V} (ho : r.Held epoch o) (hcur : r.current (some o)) :
    r.AtMost epoch (epoch o.2) := by
  intro v hv
  have hrd : some o = r.read := ho.seen.eq_read hcur
  rw [read, Option.mem_def.mp hv] at hrd
  cases hrd
  exact Nat.le_refl _

theorem atMost_of_current_none (hcur : r.current none) : r.AtMost epoch e := by
  intro v hv
  have hrd : none = r.read := r.seen_none.eq_read hcur
  rw [read, Option.mem_def.mp hv] at hrd
  cases hrd

/-- A write stamped `e` that expects `x` does not bring the epoch down. -/
structure Entitled (epoch : V → ℕ) (r : Register V) (e : ℕ) (x : Option (ℕ × V)) : Prop where
  seen : r.Seen x
  atMost : r.current x → r.AtMost epoch e

namespace Entitled

theorem of_atMost (hsn : r.Seen x) (hmo : r.AtMost epoch e) : r.Entitled epoch e x :=
  ⟨hsn, fun _ => hmo⟩

theorem grows (h : r.Entitled epoch e x) (hgrw : r.Grows epoch r') : r'.Entitled epoch e x := by
  rcases hgrw with rfl | ⟨v, rfl, -⟩
  · exact h
  · refine ⟨h.seen.put v, fun hcur => ?_⟩
    rw [h.seen.not_current_put v] at hcur
    cases hcur

end Entitled

end Register
