import Mathlib.Data.Char
import Flint.Basic.LexPrefix
import Flint.Basic.SortedMap

/-!
# Strings and paths

A path is a string with slashes between its components. `Ancestor p q`: `p/` begins `q`. A map from
paths is `Materialisable` if a tree of files can hold them all.
-/

namespace Flint

def Str : Type := List Char

instance : LinearOrder Str := inferInstanceAs (LinearOrder (List Char))

instance : LawfulBEq Str := inferInstance

instance : Inhabited Str := inferInstanceAs (Inhabited (List Char))

def Str.single (c : Char) : Str := [c]

def Str.startsWith (s p : Str) : Bool := List.isPrefixOf (α := Char) p s

theorem Str.startsWith_iff {s p : Str} :
    s.startsWith p ↔ List.IsPrefix (α := Char) p s := List.isPrefixOf_iff_prefix

theorem Str.le_of_startsWith {p s : Str} (h : s.startsWith p) : p ≤ s :=
  LexPrefix.le_of_isPrefix (α := Char) (Str.startsWith_iff.mp h)

theorem Str.lt_of_not_startsWith {p k s : Str} (hle : p ≤ k) (hk : k.startsWith p ≠ true)
    (hs : s.startsWith p) : s < k :=
  LexPrefix.lt_of_not_isPrefix (α := Char) hle (mt Str.startsWith_iff.mpr hk)
    (Str.startsWith_iff.mp hs)

namespace Str

def isEmpty (s : Str) : Bool := List.isEmpty (α := Char) s

def append (a b : Str) : Str := List.append (α := Char) a b

def stripPrefix (p s : Str) : Option Str :=
  if s.startsWith p then some (List.drop (α := Char) (List.length (α := Char) p) s) else none

def rsplitOnce (c : Char) : List Char → Option (Str × Str)
  | [] => none
  | x :: l =>
    match rsplitOnce c l with
    | some (a, b) => some (List.cons x a, b)
    | none => if x = c then some ([], l) else none

def dir (p : Str) : Str := p.append ['/']

/-- The paths that `u` lies under: what is before each slash. -/
def ancestorsFrom (front : List Char) : List Char → List (List Char)
  | [] => []
  | c :: l =>
    if c = '/' then front :: ancestorsFrom (front ++ [c]) l else ancestorsFrom (front ++ [c]) l

def ancestors (u : Str) : List Str := ancestorsFrom [] u

end Str

def Str.components (p : Str) : List (List Char) := List.splitOn '/' p

def Ancestor (p q : Str) : Prop := p.components <+: q.components ∧ p ≠ q

instance (p q : Str) : Decidable (Ancestor p q) := inferInstanceAs (Decidable (_ ∧ _))

theorem ancestor_iff {p q : Str} : Ancestor p q ↔ List.IsPrefix p.dir q :=
  LexPrefix.splitOn_prefix_iff

/-- No file is cited at a directory of another one. -/
def Materialisable {V : Type} (cited : SortedMap Str V) : Prop :=
  ∀ p q, (cited.get? p).isSome → (cited.get? q).isSome → ¬Ancestor p q

instance {V : Type} (cited : SortedMap Str V) : Decidable (Materialisable cited) :=
  decidable_of_iff (∀ p ∈ cited.keys, ∀ q ∈ cited.keys, ¬Ancestor p q) (by
    simp only [SortedMap.mem_keys, Materialisable]
    exact ⟨fun h p q hp hq => h p hp q hq, fun h p hp q hq => h p q hp hq⟩)

end Flint
