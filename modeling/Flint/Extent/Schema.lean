import Mathlib.Data.String.Basic
import Mathlib.Data.List.Dedup
import Flint.Basic.Table
import Flint.Basic.Span
import Flint.Basic.Outcome

/-!
# The tables of the block-layout extent allocator

One volume of the allocator: the rows that carry its name. Integer columns are signed 64-bit in the
schema and unbounded here, so every sum of columns is exact. A `u64` argument keeps its width:
`castI64` is the cast `as i64` with which a file id enters a column, `asI64` the checked conversion
of an offset or a client id, and `UInt64.ofInt` the cast with which a column leaves in a reply.
-/

namespace Flint.Extent

open Outcome KeyedTable List

inductive SqlError
  | queryReturnedNoRows
  | constraintViolation (table : String)
deriving DecidableEq

inductive ExtentAllocError
  | conflict (holders : List UInt64)
  | fencedClient
  | notQuiescent (holders : List UInt64)
  | noSpace (needed ceiling nextFree : UInt64)
  /-- The volume's extents table would exceed the row bound. -/
  | rowBudget (rows budget : UInt64)
  /-- The client's fence is absent or not confirmed at the target. -/
  | unconfirmedFence
  | commitRejected (reason : String)
  | invalidRange (reason : String)
  | corruption (reason : String)
  | sql (error : SqlError)
deriving DecidableEq

abbrev Tx (α : Type) := Except ExtentAllocError α

/-! ### Argument conversions -/

def i64Max : Int := 9223372036854775807

def castI64 (fileId : UInt64) : Int := fileId.toInt64.toInt

def asI64 (v : UInt64) (what : String) : Tx Int := do
  refuse ((v.toNat : Int) > i64Max) (.invalidRange what)
  pure v.toNat

theorem castI64_injective {f f' : UInt64} (h : castI64 f = castI64 f') : f = f' := by
  have h₁ : f.toInt64 = f'.toInt64 := Int64.toInt_inj.mp h
  have h₂ := congrArg Int64.toUInt64 h₁
  simpa using h₂

theorem toNat_ofInt {n : Int} (hlo : 0 ≤ n) (hhi : n ≤ i64Max) :
    ((UInt64.ofInt n).toNat : Int) = n := by
  unfold i64Max at hhi
  obtain ⟨k, rfl⟩ := Int.eq_ofNat_of_zero_le hlo
  rw [UInt64.ofInt]
  simp
  omega

def checkedEnd (offset length : UInt64) : Tx Int := do
  refuse (length = 0) (.invalidRange "zero length")
  let stop : Int := offset.toNat + length.toNat
  refuse (stop > 18446744073709551615) (.invalidRange "offset + length overflows")
  refuse (stop > i64Max) (.invalidRange "range exceeds i64")
  pure stop

theorem asI64_ok {v : UInt64} {what : String} {n : Int} (h : asI64 v what = .ok n) :
    n = v.toNat ∧ (v.toNat : Int) ≤ i64Max := by
  obtain ⟨_, hfit, hn⟩ := bind_ok.mp h
  exact ⟨(pure_ok.mp hn).symm, not_lt.mp (refuse_ok.mp hfit)⟩

theorem checkedEnd_ok {offset length : UInt64} {stop : Int}
    (h : checkedEnd offset length = .ok stop) :
    stop = offset.toNat + length.toNat ∧ 0 < length.toNat ∧
      (offset.toNat + length.toNat : Int) ≤ i64Max := by
  obtain ⟨_, hz, h⟩ := bind_ok.mp h
  obtain ⟨_, -, h⟩ := bind_ok.mp h
  obtain ⟨_, hfit, hn⟩ := bind_ok.mp h
  refine ⟨(pure_ok.mp hn).symm, ?_, not_lt.mp (refuse_ok.mp hfit)⟩
  have hne : length ≠ 0 := refuse_ok.mp hz
  exact Nat.pos_of_ne_zero fun h0 => hne (UInt64.toNat_inj.mp h0)

/-! ### Rows -/

inductive ExtentState
  | invalid | rw
deriving DecidableEq

inductive GrantMode
  | rw | read

/-- `length` bytes of a file from `logicalOffset` up stand at `physicalOffset` of the volume. -/
structure ExtentRow where
  fileId : Int
  logicalOffset : Int
  length : Int
  physicalOffset : Int
  gen : Int
  state : ExtentState
deriving DecidableEq

/-- A row of `extent_grants`; `gen` is the extent's generation at the grant. -/
structure GrantRow where
  fileId : Int
  logicalOffset : Int
  clientId : Int
  mode : GrantMode
  gen : Int
  fenced : Bool

structure GraceRow where
  fileId : Int
  logicalOffset : Int
  clientId : Int
  gen : Int
deriving DecidableEq

structure Arena where
  sizeCeiling : Int
  nextFree : Int
  extentRows : Int

structure FreeRow where
  physicalOffset : Int
  length : Int
  lastGen : Int
deriving DecidableEq

/-- A row of `extent_quarantine`; `fencedClients` is a comma-separated list of ids. -/
structure QuarantineRow where
  physicalOffset : Int
  length : Int
  gen : Int
  fencedClients : String
  quarantinedUnix : Int

structure FenceRow where
  clientId : Int
  hostNqn : String
  fencedUnix : Int
  deliveredUnix : Int

structure HostRow where
  clientId : Int
  hostNqn : String
  admittedUnix : Int

structure AttachRow where
  hostNqn : String
  nodeName : String
  attachedUnix : Int

structure SeatRow where
  epoch : Int
  composer : String
  seatedUnix : Int

structure LegRow where
  targetId : String
  syncState : String
  markedUnix : Int

structure LeaseRow where
  epoch : Int
  holder : String
  expiresUnix : Int

/-! ### Keys and spans -/

def ExtentRow.key (r : ExtentRow) : Int ×ₗ Int := toLex (r.fileId, r.logicalOffset)

def GrantRow.key (g : GrantRow) : Int ×ₗ (Int ×ₗ Int) :=
  toLex (g.fileId, toLex (g.logicalOffset, g.clientId))

def GraceRow.key (g : GraceRow) : Int ×ₗ (Int ×ₗ Int) :=
  toLex (g.fileId, toLex (g.logicalOffset, g.clientId))

def ExtentRow.logical (r : ExtentRow) : Span := ⟨r.logicalOffset, r.length⟩

def ExtentRow.physical (r : ExtentRow) : Span := ⟨r.physicalOffset, r.length⟩

theorem ExtentRow.mem_logical {r : ExtentRow} {b : Int} :
    b ∈ r.logical ↔ r.logicalOffset ≤ b ∧ b < r.logicalOffset + r.length := Iff.rfl

theorem ExtentRow.mem_physical {r : ExtentRow} {b : Int} :
    b ∈ r.physical ↔ r.physicalOffset ≤ b ∧ b < r.physicalOffset + r.length := Iff.rfl

def FreeRow.span (r : FreeRow) : Span := ⟨r.physicalOffset, r.length⟩

def QuarantineRow.span (r : QuarantineRow) : Span := ⟨r.physicalOffset, r.length⟩

theorem ExtentRow.key_eq {r r' : ExtentRow} :
    r.key = r'.key ↔ r.fileId = r'.fileId ∧ r.logicalOffset = r'.logicalOffset := by
  simp [ExtentRow.key]

theorem GrantRow.key_eq {g g' : GrantRow} :
    g.key = g'.key ↔
      g.fileId = g'.fileId ∧ g.logicalOffset = g'.logicalOffset ∧ g.clientId = g'.clientId := by
  simp [GrantRow.key]

theorem GraceRow.key_eq {g g' : GraceRow} :
    g.key = g'.key ↔
      g.fileId = g'.fileId ∧ g.logicalOffset = g'.logicalOffset ∧ g.clientId = g'.clientId := by
  simp [GraceRow.key]

structure Volume where
  arena : Option Arena
  extents : KeyedTable ExtentRow.key
  grants : KeyedTable GrantRow.key
  grace : KeyedTable GraceRow.key
  free : KeyedTable FreeRow.physicalOffset
  quarantine : KeyedTable QuarantineRow.physicalOffset
  fenced : KeyedTable FenceRow.clientId
  hosts : KeyedTable HostRow.clientId
  attaches : KeyedTable AttachRow.hostNqn
  seat : Option SeatRow
  legs : KeyedTable LegRow.targetId
  lease : Option LeaseRow

def Volume.empty : Volume where
  arena := none
  extents := .empty
  grants := .empty
  grace := .empty
  free := .empty
  quarantine := .empty
  fenced := .empty
  hosts := .empty
  attaches := .empty
  seat := none
  legs := .empty
  lease := none

/-! ### Statements -/

section Statements

variable {R K : Type} [LinearOrder K] {key : R → K}

def insertInto (table : String) (t : KeyedTable key) (r : R) : Tx (KeyedTable key) :=
  match t.insert r with
  | some u => .ok u
  | none => .error (.sql (.constraintViolation table))

theorem insertInto_ok {table : String} {t u : KeyedTable key} {r : R} :
    insertInto table t r = .ok u ↔ t.insert r = some u := by
  unfold insertInto
  cases t.insert r with
  | none | some v => simp

theorem foldlM_insertInto_perm {table : String} {l : List R} {t u : KeyedTable key}
    (h : l.foldlM (insertInto table) t = .ok u) : u.rows.Perm (l ++ t.rows) := by
  induction l generalizing t with
  | nil =>
    obtain rfl := pure_ok.mp h
    exact Perm.refl _
  | cons r l ih =>
    rw [foldlM_cons] at h
    obtain ⟨v, hv, hu⟩ := bind_ok.mp h
    have hins := insert_perm (insertInto_ok.mp hv)
    exact (ih hu).trans ((hins.append_left l).trans perm_middle)

end Statements

def Volume.addExtentRows (s : Volume) (n : Int) : Volume :=
  { s with arena := s.arena.map fun a => { a with extentRows := a.extentRows + n } }

def overlappingExtents (s : Volume) (file start stop : Int) : List ExtentRow :=
  s.extents.select fun r =>
    r.fileId = file && r.logicalOffset < stop && r.logicalOffset + r.length > start

def grantsAt (s : Volume) (file offset : Int) : List GrantRow :=
  s.grants.select fun g => g.fileId = file && g.logicalOffset = offset

def liveUnfencedHolders (s : Volume) (file : Int) (extents : List ExtentRow)
    (except : Option UInt64) : List UInt64 :=
  let ids := extents.flatMap fun e =>
    ((grantsAt s file e.logicalOffset).filter fun g => !g.fenced).map fun g =>
      UInt64.ofInt g.clientId
  (ids.filter fun id => some id ≠ except).dedup.insertionSort (· ≤ ·)

def deliveredUnix (s : Volume) (client : Int) : Int :=
  ((s.fenced.lookup client).map FenceRow.deliveredUnix).getD 0

/-! ### What the queries return -/

theorem mem_overlappingExtents {s : Volume} {file start stop : Int} {r : ExtentRow} :
    r ∈ overlappingExtents s file start stop ↔
      r ∈ s.extents ∧ r.fileId = file ∧ r.logicalOffset < stop ∧
        start < r.logicalOffset + r.length := by
  unfold overlappingExtents
  simp only [mem_select, Bool.and_eq_true, decide_eq_true_eq, gt_iff_lt, and_assoc]

theorem mem_grantsAt {s : Volume} {file offset : Int} {g : GrantRow} :
    g ∈ grantsAt s file offset ↔ g ∈ s.grants ∧ g.fileId = file ∧ g.logicalOffset = offset := by
  unfold grantsAt
  simp only [mem_select, Bool.and_eq_true, decide_eq_true_eq]

theorem liveUnfencedHolders_eq_nil {s : Volume} {file : Int} {extents : List ExtentRow}
    {except : Option UInt64} :
    liveUnfencedHolders s file extents except = [] ↔
      ∀ e ∈ extents, ∀ g ∈ s.grants, g.fileId = file → g.logicalOffset = e.logicalOffset →
        g.fenced = false → some (UInt64.ofInt g.clientId) = except := by
  have hnil : ∀ l : List UInt64, l.dedup.insertionSort (· ≤ ·) = [] ↔ l = [] := by
    intro l
    constructor
    · intro h
      have hpm := (l.dedup.perm_insertionSort (· ≤ ·)).symm
      rw [h] at hpm
      refine eq_nil_iff_forall_not_mem.mpr fun x hx => ?_
      exact not_mem_nil (hpm.mem_iff.mp (mem_dedup.mpr hx))
    · rintro rfl
      rfl
  unfold liveUnfencedHolders
  rw [hnil, filter_eq_nil_iff]
  simp only [mem_flatMap, mem_map, mem_filter, mem_grantsAt, Bool.not_eq_true',
    decide_eq_true_eq, not_not]
  constructor
  · intro h e he g hg hf ho hu
    exact h _ ⟨e, he, g, ⟨⟨hg, hf, ho⟩, hu⟩, rfl⟩
  · rintro h _ ⟨e, he, g, ⟨⟨hg, hf, ho⟩, hu⟩, rfl⟩
    exact h e he g hg hf ho hu

end Flint.Extent
