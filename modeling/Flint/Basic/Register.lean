import Mathlib.Data.Nat.Notation
import Mathlib.Data.Option.Basic

/-!
# A register with conditional writes

A register holds a value, or none so far, and counts its writes; the count is the tag of the value.
A conditional write takes effect if the tag is still the one its writer read.

`Register.Seen r x`: `x` is the answer of a read of `r`, now or before. No answer given before a
write matches after it, so a conditional write takes effect on the value its writer read
(`Seen.eq_read`).
-/

structure Register (V : Type) where
  value : Option V
  version : ℕ

namespace Register

open Option

variable {V : Type} {r : Register V} {x : Option (ℕ × V)} {v : V}

def new (value : Option V) : Register V := ⟨value, 0⟩

def read (r : Register V) : Option (ℕ × V) := r.value.map fun v => (r.version, v)

def put (r : Register V) (v : V) : Register V := ⟨some v, r.version + 1⟩

def current (r : Register V) (x : Option (ℕ × V)) : Bool :=
  decide (x.map Prod.fst = r.read.map Prod.fst)

@[simp] theorem read_put : (r.put v).read = some (r.version + 1, v) := rfl

/-- `x` is what a read returned, now or before. -/
structure Seen (r : Register V) (x : Option (ℕ × V)) : Prop where
  le_version : ∀ p ∈ x, p.1 ≤ r.version
  eq_read : r.current x → x = r.read

theorem seen_read (r : Register V) : r.Seen r.read := by
  refine ⟨?_, fun _ => rfl⟩
  intro p hp
  obtain ⟨v, -, rfl⟩ := map_eq_some_iff.mp hp
  exact Nat.le_refl r.version

theorem seen_none (r : Register V) : r.Seen none := by
  refine ⟨nofun, fun hcurr => ?_⟩
  rw [current, decide_eq_true_eq, map_none] at hcurr
  exact (map_eq_none_iff.mp hcurr.symm).symm

/-- A write moves the tag away from everything that was read before. -/
theorem Seen.not_current_put (h : r.Seen x) (v : V) : (r.put v).current x = false := by
  rw [current, decide_eq_false_iff_not, read_put]
  intro heq
  obtain ⟨p, hp, htag⟩ := map_eq_some_iff.mp heq
  have hle : p.1 ≤ r.version := h.le_version p hp
  rw [htag] at hle
  exact absurd hle (Nat.not_succ_le_self r.version)

theorem Seen.put (h : r.Seen x) (v : V) : (r.put v).Seen x := by
  refine ⟨fun p hp => Nat.le_succ_of_le (h.le_version p hp), fun hcur => ?_⟩
  rw [h.not_current_put v] at hcur
  cases hcur

def replace (r : Register V) (value : Option V) : Register V := ⟨value, r.version + 1⟩

structure Past (r₀ r : Register V) : Prop where
  le_version : r₀.version ≤ r.version
  eq_of_version : r₀.version = r.version → r₀ = r

theorem Past.refl (r : Register V) : r.Past r := ⟨Nat.le_refl _, fun _ => rfl⟩

theorem Past.replace {r₀ : Register V} (h : r₀.Past r) (value : Option V) :
    r₀.Past (r.replace value) := by
  refine ⟨Nat.le_succ_of_le h.le_version, fun heq => ?_⟩
  have hle : r₀.version ≤ r.version := h.le_version
  rw [heq] at hle
  exact absurd hle (Nat.not_succ_le_self r.version)

end Register
