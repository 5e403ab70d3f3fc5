import Flint.Basic.Decimal
import Flint.Extent.Grant

/-!
# Return, merge, reclaim, commit and the quarantine

`layout_return` gives a client's grants on a range back and runs the windowed merge;
`reclaim_complete` frees or quarantines the bytes of a range, clipping the rows that reach beyond
it; `commit_extents` promotes provisional rows. The merge loop of the source walks an index;
`mergeRuns` carries the run itself.
-/

namespace Flint.Extent

open ExtentRow Decimal Outcome

/-! ### The windowed merge -/

variable (s : Volume)

def held (file offset : Int) : Bool := !(grantsAt s file offset).isEmpty

def extendsRun (file : Int) (a b : ExtentRow) : Bool :=
  a.logicalOffset + a.length = b.logicalOffset &&
    a.physicalOffset + a.length = b.physicalOffset &&
    a.state = b.state && !held s file a.logicalOffset && !held s file b.logicalOffset

structure Merge where
  vol : Volume
  mergedAway : ℕ
  touched : List TouchedExtent

def resizeExtent (t : KeyedTable key) (file offset n g : Int) : KeyedTable key :=
  t.update (fun r => r.fileId = file && r.logicalOffset = offset)
    (fun r => { r with length := n, gen := g }) fun _ => rfl

/-- Close a run: its tail rows go and its head takes their length and the largest
generation. A run of one row is left alone. -/
def closeRun (file : Int) (m : Merge) : List ExtentRow → Merge
  | head :: e :: rest =>
    let total := ((head :: e :: rest).map length).sum
    let genMax := ((e :: rest).map gen).foldl max head.gen
    let extents := (e :: rest).foldl
      (fun t x => t.deleteKey (toLex (file, x.logicalOffset))) m.vol.extents
    { vol := { m.vol with extents := resizeExtent extents file head.logicalOffset total genMax }
      mergedAway := m.mergedAway + (e :: rest).length
      touched := m.touched ++ [⟨file, head.logicalOffset, total, head.physicalOffset⟩] }
  | _ => m

def mergeRuns (file : Int) (m : Merge) (run : List ExtentRow) (a : ExtentRow) :
    List ExtentRow → Merge
  | [] => closeRun file m run
  | b :: rest =>
    if extendsRun m.vol file a b then mergeRuns file m (run ++ [b]) b rest
    else mergeRuns file (closeRun file m run) [b] b rest

def mergeWindow (file start stop : Int) : List ExtentRow :=
  (s.extents.last fun r => r.fileId = file && r.logicalOffset < start).toList ++
    overlappingExtents s file start stop ++
    (s.extents.first fun r => r.fileId = file && r.logicalOffset ≥ stop).toList

def mergeExtentsWindow (volume : String) (s : Volume) (file start stop : Int) : Tx (Volume × ℕ) :=
  match mergeWindow s file start stop with
  | a :: b :: rest =>
    let m := mergeRuns file ⟨s, 0, []⟩ [a] a (b :: rest)
    if m.mergedAway > 0 then do
      let s' := m.vol.addExtentRows (-m.mergedAway)
      verifyWindowInvariants volume s' m.touched
      pure (s', m.mergedAway)
    else pure (m.vol, 0)
  | _ => pure (s, 0)

/-! ### Return -/

def returnedGrant (file client start stop : Int) (g : GrantRow) : Bool :=
  g.fileId = file && g.clientId = client &&
    (overlappingExtents s file start stop).any fun r => r.logicalOffset = g.logicalOffset

def GrantRow.graceRow (g : GrantRow) : GraceRow := ⟨g.fileId, g.logicalOffset, g.clientId, g.gen⟩

def returnGrants (file client start stop : Int) : Volume :=
  let returned := returnedGrant s file client start stop
  { s with
    grace := (s.grants.select fun g => returned g && !g.fenced).foldl
      (fun t g => t.put g.graceRow) s.grace
    grants := s.grants.delete returned }

def layoutReturn (volume : String) (s : Volume) (fileId clientId logicalOffset length : UInt64) :
    Tx (Volume × ℕ) := do
  let start ← asI64 logicalOffset "offset exceeds i64"
  let stop ← checkedEnd logicalOffset length
  let client ← asI64 clientId "client id exceeds i64"
  let file := castI64 fileId
  let n := (s.grants.select (returnedGrant s file client start stop)).length
  let m ← mergeExtentsWindow volume (returnGrants s file client start stop) file start stop
  pure (m.1, n)

/-! ### Reclaim -/

structure FreeOutcome where
  freedExtents : UInt64
  freedBytes : UInt64
  quarantinedExtents : UInt64
  quarantinedBytes : UInt64
deriving DecidableEq

structure Reclaim where
  vol : Volume
  out : FreeOutcome
  rowsRemoved : Int
  rowsAdded : Int

def ExtentRow.cut (t : ExtentRow) (start stop : Int) : Span :=
  let cutStart := max t.logicalOffset start
  let cutEnd := min (t.logicalOffset + t.length) stop
  ⟨cutStart, cutEnd - cutStart⟩

def ExtentRow.cutPhys (t : ExtentRow) (start stop : Int) : Int :=
  t.physicalOffset + ((t.cut start stop).start - t.logicalOffset)

def fencedHolders (file offset : Int) : List (Int × Int) :=
  ((grantsAt s file offset).filter fun g => g.fenced).map fun g =>
    (g.clientId, deliveredUnix s g.clientId)

def dropGrantsAt (file offset : Int) : Volume :=
  { s with grants := s.grants.delete fun g => g.fileId = file && g.logicalOffset = offset }

/-- The cut goes to the free list when every fence on the row is confirmed, to the
quarantine otherwise; the grant rows go with it. -/
def releaseCut (file start stop nowUnix : Int) (w : Reclaim) (t : ExtentRow) : Tx Reclaim := do
  let cut := t.cut start stop
  let phys := t.cutPhys start stop
  let bytes := UInt64.ofInt cut.length
  let fenced := fencedHolders w.vol file t.logicalOffset
  if fenced = [] ∨ fenced.all (fun f => f.2 > 0) then do
    let free ← freeInsertCoalescing w.vol.free ⟨phys, cut.length, t.gen⟩
    let vol := { w.vol with free }
    pure { w with
      vol := if fenced = [] then vol else dropGrantsAt vol file t.logicalOffset
      out := { w.out with
        freedExtents := w.out.freedExtents + 1
        freedBytes := w.out.freedBytes + bytes } }
  else do
    let csv := joinCsv (fenced.map Prod.fst)
    let quarantine ←
      insertInto "extent_quarantine" w.vol.quarantine ⟨phys, cut.length, t.gen, csv, nowUnix⟩
    pure { w with
      vol := dropGrantsAt { w.vol with quarantine } file t.logicalOffset
      out := { w.out with
        quarantinedExtents := w.out.quarantinedExtents + 1
        quarantinedBytes := w.out.quarantinedBytes + bytes } }

def ExtentRow.head (t : ExtentRow) (start stop : Int) : ExtentRow :=
  { t with length := (t.cut start stop).start - t.logicalOffset }

def ExtentRow.tail (t : ExtentRow) (start stop : Int) : ExtentRow :=
  { t with
    logicalOffset := (t.cut start stop).stop
    length := t.logicalOffset + t.length - (t.cut start stop).stop
    physicalOffset := t.physicalOffset + ((t.cut start stop).stop - t.logicalOffset) }

def ExtentRow.kept (t : ExtentRow) (start stop : Int) : List ExtentRow :=
  (if (t.cut start stop).start > t.logicalOffset then [t.head start stop] else []) ++
    if (t.cut start stop).stop < t.logicalOffset + t.length then [t.tail start stop] else []

/-- The row goes, its surviving sides stay mapped where they were, and the grace records
at the row's own offset go. -/
def clipRow (file start stop : Int) (w : Reclaim) (t : ExtentRow) : Tx Reclaim := do
  let extents := w.vol.extents.deleteKey (toLex (file, t.logicalOffset))
  let kept := t.kept start stop
  let extents ← kept.foldlM (insertInto "extents") extents
  let grace := w.vol.grace.delete fun g => g.fileId = file && g.logicalOffset = t.logicalOffset
  pure { w with
    vol := { w.vol with extents, grace }
    rowsRemoved := w.rowsRemoved + 1
    rowsAdded := w.rowsAdded + kept.length }

def reclaimTarget (file start stop nowUnix : Int) (w : Reclaim) (t : ExtentRow) : Tx Reclaim := do
  let w ← releaseCut file start stop nowUnix w t
  clipRow file start stop w t

def reclaimComplete (fileId logicalOffset length : UInt64) (nowUnix : Int) :
    Tx (Volume × FreeOutcome) := do
  let start ← asI64 logicalOffset "offset exceeds i64"
  let stop ← checkedEnd logicalOffset length
  let file := castI64 fileId
  let targets := overlappingExtents s file start stop
  if targets = [] then pure (s, ⟨0, 0, 0, 0⟩) else do
    let holders := liveUnfencedHolders s file targets none
    refuse (holders ≠ []) (.notQuiescent holders)
    let w ← targets.foldlM (reclaimTarget file start stop nowUnix) ⟨s, ⟨0, 0, 0, 0⟩, 0, 0⟩
    pure (w.vol.addExtentRows (-(w.rowsRemoved - w.rowsAdded)), w.out)

/-! ### Commit -/

/-- The generation the client wrote an extent under: its live grant's, or the one that all
its grace records inside the extent agree on. -/
def genHeld (file client : Int) (t : ExtentRow) : Tx (Option Int) :=
  match s.grants.lookup (toLex (file, toLex (t.logicalOffset, client))) with
  | some g => if g.fenced then .error (.commitRejected "grant is fenced") else .ok (some g.gen)
  | none =>
    let gens := (s.grace.select fun q =>
      q.fileId = file && q.clientId = client && t.logicalOffset ≤ q.logicalOffset &&
        q.logicalOffset < t.logicalOffset + t.length).map GraceRow.gen
    match gens.min?, gens.max? with
    | some a, some b => .ok (if a = b then some a else none)
    | _, _ => .ok none

def checkCommit (file client : Int) (t : ExtentRow) : Tx Unit := do
  match ← genHeld s file client t with
  | none => .error (.commitRejected "no grant for this client")
  | some g => refuse (g ≠ t.gen) (.commitRejected "generation mismatch")

def promoteExtents (t : KeyedTable key) (hit : ExtentRow → Bool) : KeyedTable key :=
  t.update hit (fun r => { r with state := .rw }) fun _ => rfl

def promoteRow (file : Int) (w : Volume × UInt64) (t : ExtentRow) : Volume × UInt64 :=
  let hit (r : ExtentRow) : Bool :=
    r.fileId = file && r.logicalOffset = t.logicalOffset && r.state = .invalid
  ({ w.1 with extents := promoteExtents w.1.extents hit },
    w.2 + UInt64.ofNat (w.1.extents.select hit).length)

def commitExtents (fileId clientId logicalOffset length : UInt64) : Tx (Volume × UInt64) := do
  let start ← asI64 logicalOffset "offset exceeds i64"
  let stop ← checkedEnd logicalOffset length
  let client ← asI64 clientId "client id exceeds i64"
  let file := castI64 fileId
  let targets := overlappingExtents s file start stop
  refuse (targets = []) (.commitRejected "no extents under the range")
  targets.forM (checkCommit s file client)
  pure (targets.foldl (promoteRow file) (s, 0))

/-! ### The quarantine -/

def QuarantineRow.freeRow (q : QuarantineRow) : FreeRow := ⟨q.physicalOffset, q.length, q.gen⟩

def parkedBytes (rows : List QuarantineRow) : UInt64 :=
  rows.foldl (fun bytes q => bytes + UInt64.ofInt q.length) 0

def releaseQuarantine (volume : String) (s : Volume) : Tx (Volume × UInt64) := do
  let rows := s.quarantine.rows
  let free ← rows.foldlM (fun free q => freeInsertCoalescing free q.freeRow) s.free
  let s' := { s with free, quarantine := .empty }
  verifyVolumeInvariants volume s'
  pure (s', parkedBytes rows)

/-- Every client a parked range names has a confirmed fence; an id that does not parse is
an exclusion that cannot be verified. -/
def allDelivered (csv : String) : Bool :=
  (csvFields csv).all fun field =>
    match parseInt (-i64Max - 1) i64Max (trim field) with
    | some client => deliveredUnix s client > 0
    | none => false

def sweepable (q : QuarantineRow) : Bool :=
  allDelivered s q.fencedClients && !(trim q.fencedClients.toList).isEmpty

def unparkRow (q : QuarantineRow) : Tx Volume := do
  let free ← freeInsertCoalescing s.free q.freeRow
  pure { s with free, quarantine := s.quarantine.deleteKey q.physicalOffset }

def sweepQuarantineDelivered (volume : String) (s : Volume) : Tx (Volume × (UInt64 × UInt64)) := do
  let released := s.quarantine.select (sweepable s)
  let s' ← released.foldlM unparkRow s
  if released = [] then pure (s', (0, 0)) else do
    verifyVolumeInvariants volume s'
    pure (s', (UInt64.ofNat released.length, parkedBytes released))

end Flint.Extent
