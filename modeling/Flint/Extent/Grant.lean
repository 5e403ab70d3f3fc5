import Flint.Extent.Verify

/-!
# Arena registration and the grant transactions

`grant` is LAYOUTGET's allocation and grant in one transaction; `grant_read` grants what is
committed and never allocates. `gapsFrom` is the cursor scan of `grant`, and `allocateGap` the body
of its allocation loop.
-/

namespace Flint.Extent

open FreeRow Outcome

/-- `register_volume`: the ceiling of an existing arena is left untouched. -/
def registerVolume (s : Volume) (sizeCeiling : UInt64) : Tx (Volume × Unit) := do
  let ceiling ← asI64 sizeCeiling "ceiling exceeds i64"
  match s.arena with
  | some _ => pure (s, ())
  | none => pure ({ s with arena := some ⟨ceiling, 0, 0⟩ }, ())

/-- `expand_volume`: raise the ceiling; a request at or below it is answered with it. -/
def expandVolume (volume : String) (s : Volume) (newCeiling : UInt64) : Tx (Volume × UInt64) := do
  let want ← asI64 newCeiling "ceiling exceeds i64"
  match s.arena with
  | none => .error (.invalidRange "volume has no extent arena to expand")
  | some a =>
    if want ≤ a.sizeCeiling then
      pure (s, UInt64.ofInt a.sizeCeiling)
    else do
      let s' := { s with arena := some { a with sizeCeiling := want } }
      verifyVolumeInvariants volume s'
      pure (s', UInt64.ofInt want)

def absorbPrev (free : KeyedTable physicalOffset) (r : FreeRow) :
    KeyedTable physicalOffset × FreeRow :=
  match free.last (fun f => f.physicalOffset < r.physicalOffset) with
  | some p =>
    if p.physicalOffset + p.length = r.physicalOffset then
      (free.deleteKey p.physicalOffset,
        ⟨p.physicalOffset, r.length + p.length, max r.lastGen p.lastGen⟩)
    else (free, r)
  | none => (free, r)

def absorbNext (free : KeyedTable physicalOffset) (r : FreeRow) :
    KeyedTable physicalOffset × FreeRow :=
  match free.lookup (r.physicalOffset + r.length) with
  | some n =>
    (free.deleteKey (r.physicalOffset + r.length),
      ⟨r.physicalOffset, r.length + n.length, max r.lastGen n.lastGen⟩)
  | none => (free, r)

def freeInsertCoalescing (free : KeyedTable physicalOffset) (r : FreeRow) :
    Tx (KeyedTable physicalOffset) :=
  let (free, r) := absorbPrev free r
  let (free, r) := absorbNext free r
  insertInto "extent_free" free r

/-! ### Allocation -/

def gapsFrom (stop : Int) : Int → List ExtentRow → List Span
  | cursor, [] => if cursor < stop then [⟨cursor, stop - cursor⟩] else []
  | cursor, e :: es =>
    (if e.logicalOffset > cursor then [⟨cursor, e.logicalOffset - cursor⟩] else []) ++
      gapsFrom stop (max cursor (e.logicalOffset + e.length)) es

def checkRowBudget (budget : Int) (s : Volume) (gaps : List Span) : Tx Unit :=
  match s.arena with
  | some a =>
    refuse (gaps ≠ [] ∧ a.extentRows + gaps.length > budget)
      (.rowBudget (UInt64.ofInt a.extentRows) (UInt64.ofInt budget))
  | none => .ok ()

/-- Space taken for one gap, and whether it carries a previous incarnation's bytes. -/
structure Taken where
  vol : Volume
  phys : Int
  gen : Int
  reused : Bool

def keepRemainder (rest : KeyedTable physicalOffset) (len : Int) (f : FreeRow) :
    Tx (KeyedTable physicalOffset) :=
  if f.length > len then
    freeInsertCoalescing rest ⟨f.physicalOffset + len, f.length - len, f.lastGen⟩
  else .ok rest

def takeFree (s : Volume) (len : Int) (f : FreeRow) : Tx Taken := do
  let free ← keepRemainder (s.free.deleteKey f.physicalOffset) len f
  pure ⟨{ s with free }, f.physicalOffset, f.lastGen + 1, true⟩

def takeBump (s : Volume) (len : Int) : Tx Taken :=
  match s.arena with
  | none => .error (.sql .queryReturnedNoRows)
  | some a => do
    refuse (a.nextFree + len > a.sizeCeiling)
      (.noSpace (UInt64.ofInt len) (UInt64.ofInt a.sizeCeiling) (UInt64.ofInt a.nextFree))
    pure ⟨{ s with arena := some { a with nextFree := a.nextFree + len } }, a.nextFree, 1, false⟩

def takeSpace (s : Volume) (freshOnly : Bool) (len : Int) : Tx Taken :=
  let hit := if freshOnly then none else s.free.first fun f => f.length ≥ len
  match hit with
  | some f => takeFree s len f
  | none => takeBump s len

structure Alloc where
  vol : Volume
  newRows : List ExtentRow
  reusedPhys : List Int

def allocateGap (file : Int) (freshOnly : Bool) (w : Alloc) (g : Span) : Tx Alloc := do
  let t ← takeSpace w.vol freshOnly g.length
  let row : ExtentRow := ⟨file, g.start, g.length, t.phys, t.gen, .invalid⟩
  let extents ← insertInto "extents" t.vol.extents row
  pure
    { vol := { t.vol with extents }
      newRows := w.newRows ++ [row]
      reusedPhys := if t.reused then w.reusedPhys ++ [t.phys] else w.reusedPhys }

/-! ### Granting -/

structure GrantedExtent where
  logicalOffset : UInt64
  length : UInt64
  physicalOffset : UInt64
  generation : UInt64
  committed : Bool
  needsScrub : Bool
deriving DecidableEq

def ExtentRow.granted (r : ExtentRow) (reusedPhys : List Int) : GrantedExtent where
  logicalOffset := UInt64.ofInt r.logicalOffset
  length := UInt64.ofInt r.length
  physicalOffset := UInt64.ofInt r.physicalOffset
  generation := UInt64.ofInt r.gen
  committed := r.state = .rw
  needsScrub := reusedPhys.contains r.physicalOffset

def ExtentRow.grantRow (r : ExtentRow) (client : Int) (mode : GrantMode) : GrantRow :=
  ⟨r.fileId, r.logicalOffset, client, mode, r.gen, false⟩

def grantRows (s : Volume) (client : Int) (mode : GrantMode) (rows : List ExtentRow) : Volume :=
  { s with grants := rows.foldl (fun t r => t.insertOrIgnore (r.grantRow client mode)) s.grants }

def refuseFenced (s : Volume) (client : Int) : Tx Unit :=
  refuse (s.grants.rows.any fun g => g.clientId = client && g.fenced) .fencedClient

def sortedByOffset (rows : List ExtentRow) : List ExtentRow :=
  rows.insertionSort fun a b => a.logicalOffset ≤ b.logicalOffset

def grant (budget : Int) (volume : String) (s : Volume) (fileId clientId logicalOffset
    length : UInt64) (freshOnly : Bool) : Tx (Volume × List GrantedExtent) := do
  let start ← asI64 logicalOffset "offset exceeds i64"
  let stop ← checkedEnd logicalOffset length
  let client ← asI64 clientId "client id exceeds i64"
  let file := castI64 fileId
  refuseFenced s client
  let existing := overlappingExtents s file start stop
  let holders := liveUnfencedHolders s file existing (some clientId)
  refuse (holders ≠ []) (.conflict holders)
  let gaps := gapsFrom stop start existing
  checkRowBudget budget s gaps
  let w ← gaps.foldlM (allocateGap file freshOnly) ⟨s, [], []⟩
  let s' := if w.newRows = [] then w.vol else w.vol.addExtentRows w.newRows.length
  let all := sortedByOffset (existing ++ w.newRows)
  let s' := grantRows s' client .rw all
  verifyWindowInvariants volume s' (all.map ExtentRow.touched)
  pure (s', all.map fun e => e.granted w.reusedPhys)

def grantRead (volume : String) (s : Volume) (fileId clientId logicalOffset length : UInt64) :
    Tx (Volume × List GrantedExtent) := do
  let start ← asI64 logicalOffset "offset exceeds i64"
  let stop ← checkedEnd logicalOffset length
  let client ← asI64 clientId "client id exceeds i64"
  let file := castI64 fileId
  refuseFenced s client
  let committed := (overlappingExtents s file start stop).filter fun e => e.state = .rw
  let s' := grantRows s client .read committed
  verifyWindowInvariants volume s' (committed.map ExtentRow.touched)
  pure (s', committed.map fun e => { e.granted [] with committed := true })

end Flint.Extent
