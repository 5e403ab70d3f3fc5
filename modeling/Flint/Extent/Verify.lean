import Flint.Extent.Schema

/-!
# The two verifiers

`verifyVolumeInvariants` reads every row of the volume; `verifyWindowInvariants` probes the rows a
transaction touched against their neighbours. In a release build `grant`, `grant_read` and every
merge end with the windowed verifier alone and `reclaim_complete` with none.
-/

namespace Flint.Extent

open Outcome

/-! ### The full verifier -/

inductive Home
  | extent | free | quarantine

def Home.tag : Home → String
  | .extent => "extent"
  | .free => "free"
  | .quarantine => "quarantine"

structure PhysRange where
  physicalOffset : Int
  length : Int
  home : Home

def PhysRange.key (p : PhysRange) : Int ×ₗ (Int ×ₗ String) :=
  toLex (p.physicalOffset, toLex (p.length, p.home.tag))

def physRanges (s : Volume) : List PhysRange :=
  s.extents.rows.map (fun r => ⟨r.physicalOffset, r.length, .extent⟩) ++
    s.free.rows.map (fun r => ⟨r.physicalOffset, r.length, .free⟩) ++
    s.quarantine.rows.map fun r => ⟨r.physicalOffset, r.length, .quarantine⟩

def sortedPhysRanges (s : Volume) : List PhysRange :=
  (physRanges s).insertionSort fun p q => p.key ≤ q.key

variable (volume : String)

def verifyLogical (s : Volume) : Tx Unit :=
  let clash := Span.firstAdjacent (fun a b : ExtentRow =>
    a.fileId = b.fileId && a.logicalOffset + a.length > b.logicalOffset) s.extents.rows
  match clash with
  | some (a, b) =>
    let file := a.fileId
    let oa := a.logicalOffset
    let ea := a.logicalOffset + a.length
    let ob := b.logicalOffset
    .error (.corruption s!"logical overlap in {volume} file {file}: [{oa},{ea}) vs [{ob},…)")
  | none => .ok ()

def verifyPhysical (phys : List PhysRange) : Tx Unit :=
  let clash := Span.firstAdjacent (fun a b : PhysRange =>
    a.physicalOffset + a.length > b.physicalOffset) phys
  match clash with
  | some (a, b) =>
    let ta := a.home.tag
    let pa := a.physicalOffset
    let ea := a.physicalOffset + a.length
    let tb := b.home.tag
    let pb := b.physicalOffset
    .error (.corruption s!"physical overlap in {volume}: {ta} [{pa},{ea}) vs {tb} [{pb},…)")
  | none => .ok ()

def verifyArena (s : Volume) (phys : List PhysRange) : Tx Unit :=
  match s.arena with
  | some a => do
    let ceiling := a.sizeCeiling
    let nextFree := a.nextFree
    refuse (nextFree > ceiling)
      (.corruption s!"watermark {nextFree} beyond ceiling {ceiling} in {volume}")
    let counted : Int := s.extents.rows.length
    let recorded := a.extentRows
    refuse (counted ≠ recorded)
      (.corruption
        s!"extent_rows counter drift in {volume}: recorded {recorded}, counted {counted}")
    match phys.find? (fun p => p.physicalOffset + p.length > nextFree) with
    | some x =>
      let tag := x.home.tag
      let p := x.physicalOffset
      let e := x.physicalOffset + x.length
      .error (.corruption s!"{tag} range [{p},{e}) beyond watermark {nextFree} in {volume}")
    | none => .ok ()
  | none => refuse (phys ≠ []) (.corruption s!"{volume} has extent rows but no volume_alloc arena")

def grantedExtent (s : Volume) (g : GrantRow) : Option ExtentRow :=
  s.extents.lookup (toLex (g.fileId, g.logicalOffset))

def staleGrant (s : Volume) (g : GrantRow) : Bool :=
  !g.fenced && (grantedExtent s g).any fun e => g.gen ≠ e.gen

def verifyGrants (s : Volume) : Tx Unit := do
  let orphans := (s.grants.select fun g => (grantedExtent s g).isNone).length
  refuse (orphans > 0) (.corruption s!"{orphans} grant rows reference no extent in {volume}")
  let stale := (s.grants.select (staleGrant s)).length
  refuse (stale > 0) (.corruption s!"{stale} unfenced grant rows at a stale generation in {volume}")

def verifyVolumeInvariants (s : Volume) : Tx Unit := do
  verifyLogical volume s
  let phys := sortedPhysRanges s
  verifyPhysical volume phys
  verifyArena volume s phys
  verifyGrants volume s

/-! ### The windowed verifier -/

structure TouchedExtent where
  fileId : Int
  logicalOffset : Int
  length : Int
  physicalOffset : Int

def ExtentRow.touched (r : ExtentRow) : TouchedExtent :=
  ⟨r.fileId, r.logicalOffset, r.length, r.physicalOffset⟩

def verifyPrev (s : Volume) (t : TouchedExtent) : Tx Unit :=
  let file := t.fileId
  let lo := t.logicalOffset
  match s.extents.last (fun r => r.fileId = file && r.logicalOffset < lo) with
  | some p =>
    let po := p.logicalOffset
    let pe := p.logicalOffset + p.length
    refuse (pe > lo)
      (.corruption s!"logical overlap in {volume} file {file}: [{po},{pe}) vs [{lo},…)")
  | none => .ok ()

def verifyNext (s : Volume) (t : TouchedExtent) : Tx Unit :=
  let file := t.fileId
  let lo := t.logicalOffset
  match s.extents.first (fun r => r.fileId = file && r.logicalOffset > lo) with
  | some n =>
    let no := n.logicalOffset
    let hi := t.logicalOffset + t.length
    refuse (hi > no)
      (.corruption s!"logical overlap in {volume} file {file}: [{lo},{hi}) vs [{no},…)")
  | none => .ok ()

def verifyPlacement (nextFree : Int) (s : Volume) (t : TouchedExtent) : Tx Unit := do
  let p := t.physicalOffset
  let pEnd := t.physicalOffset + t.length
  refuse
    (s.extents.rows.any fun r =>
      r.physicalOffset < pEnd && r.physicalOffset + r.length > p &&
        !(r.fileId = t.fileId && r.logicalOffset = t.logicalOffset))
    (.corruption s!"physical overlap in {volume}: extent [{p},{pEnd}) vs another extent")
  refuse (s.free.rows.any fun r => r.physicalOffset < pEnd && r.physicalOffset + r.length > p)
    (.corruption s!"physical overlap in {volume}: extent [{p},{pEnd}) vs extent_free")
  refuse (s.quarantine.rows.any fun r => r.physicalOffset < pEnd && r.physicalOffset + r.length > p)
    (.corruption s!"physical overlap in {volume}: extent [{p},{pEnd}) vs extent_quarantine")
  refuse (pEnd > nextFree)
    (.corruption s!"extent range [{p},{pEnd}) beyond watermark {nextFree} in {volume}")

def verifyTouchedGrants (s : Volume) (t : TouchedExtent) : Tx Unit :=
  let file := t.fileId
  let lo := t.logicalOffset
  refuse ((grantsAt s file lo).any (staleGrant s))
    (.corruption s!"unfenced grant at stale gen on {volume} file {file} offset {lo}")

def verifyWindowInvariants (s : Volume) (touched : List TouchedExtent) : Tx Unit :=
  if touched = [] then .ok () else
    match s.arena with
    | none => .error (.sql .queryReturnedNoRows)
    | some a => touched.forM fun t => do
      verifyPrev volume s t
      verifyNext volume s t
      verifyPlacement volume a.nextFree s t
      verifyTouchedGrants volume s t

end Flint.Extent
