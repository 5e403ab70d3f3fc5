import Flint.Extent.Reclaim

/-!
# Fences, revocation, admissions and the end of a volume

`fence_client` marks a client's grants dead; `fence_record`, `mark_fence_delivered` and
`unfence_record` keep the durable record of the fence; `revoke_client` drops the grants of a client
whose fence is confirmed.
-/

namespace Flint.Extent

def fenceGrants (t : KeyedTable GrantRow.key) (hit : GrantRow → Bool) : KeyedTable GrantRow.key :=
  t.update hit (fun g => { g with fenced := true }) fun _ => rfl

variable (s : Volume)

def fenceClient (clientId : UInt64) : Tx (Volume × ℕ) := do
  let client ← asI64 clientId "client id exceeds i64"
  let hit (g : GrantRow) : Bool := g.clientId = client && !g.fenced
  let s' := { s with
    grants := fenceGrants s.grants hit
    grace := s.grace.delete fun q => q.clientId = client }
  pure (s', (s.grants.select hit).length)

def fenceRecord (clientId : UInt64) (nowUnix : Int) : Tx (Volume × String) := do
  let client ← asI64 clientId "client id exceeds i64"
  let hostNqn := ((s.hosts.lookup client).map HostRow.hostNqn).getD ""
  let row : FenceRow :=
    match s.fenced.lookup client with
    | some f => { f with fencedUnix := nowUnix }
    | none => ⟨client, hostNqn, nowUnix, 0⟩
  pure ({ s with fenced := s.fenced.put row }, hostNqn)

def markFenceDelivered (clientId : UInt64) (nowUnix : Int) : Tx (Volume × Bool) := do
  let client ← asI64 clientId "client id exceeds i64"
  let hit (f : FenceRow) : Bool := f.clientId = client && f.deliveredUnix = 0
  let s' := { s with
    fenced := s.fenced.update hit (fun f => { f with deliveredUnix := nowUnix }) fun _ => rfl }
  pure (s', (s.fenced.select hit).length > 0)

def unfenceRecord (clientId : UInt64) : Tx (Volume × Bool) := do
  let client ← asI64 clientId "client id exceeds i64"
  pure ({ s with fenced := s.fenced.deleteKey client }, (s.fenced.lookup client).isSome)

structure MergeSpan where
  fileId : Int
  start : Int
  stop : Int

def grantedSpans (client : Int) : List MergeSpan :=
  (s.grants.select fun g => g.clientId = client).filterMap fun g =>
    (grantedExtent s g).map fun e => ⟨g.fileId, g.logicalOffset, e.logicalOffset + e.length⟩

def revokeWindows (client : Int) : List MergeSpan :=
  let spans := grantedSpans s client
  (spans.map MergeSpan.fileId).dedup.map fun file =>
    let rows := spans.filter fun w => w.fileId = file
    ⟨file, (rows.map MergeSpan.start).min?.getD 0, (rows.map MergeSpan.stop).max?.getD 0⟩

def dropGrantsOf (client : Int) : Volume :=
  { s with grants := s.grants.delete fun g => g.clientId = client }

def revokeClient (volume : String) (s : Volume) (clientId : UInt64) : Tx (Volume × UInt64) := do
  let client ← asI64 clientId "client id exceeds i64"
  Outcome.refuse (¬deliveredUnix s client > 0) .unconfirmedFence
  let removed := (s.grants.select fun g => g.clientId = client).length
  let s' ← (revokeWindows s client).foldlM
    (fun s w => do
      let m ← mergeExtentsWindow volume s w.fileId w.start w.stop
      pure m.1)
    (dropGrantsOf s client)
  pure (s', UInt64.ofNat removed)

def hostsForVolume : List String :=
  (s.hosts.rows.map HostRow.hostNqn ++ s.attaches.rows.map AttachRow.hostNqn).dedup.insertionSort
    (· ≤ ·)

def hostAdmit (clientId : UInt64) (hostNqn : String) (nowUnix : Int) : Tx (Volume × List String) :=
  let client := castI64 clientId
  let row : HostRow :=
    match s.hosts.lookup client with
    | some h => { h with hostNqn }
    | none => ⟨client, hostNqn, nowUnix⟩
  let s' := { s with hosts := s.hosts.put row }
  .ok (s', hostsForVolume s')

def hostEvict (clientId : UInt64) : Tx (Volume × (List String × List String)) :=
  let client := castI64 clientId
  let evicted := (s.hosts.select fun h => h.clientId = client).map HostRow.hostNqn
  let s' := { s with
    hosts := s.hosts.deleteKey client
    attaches := s.attaches.delete fun a => evicted.contains a.hostNqn }
  .ok (s', (evicted, hostsForVolume s'))

def nodeAttach (hostNqn nodeName : String) (nowUnix : Int) : Tx (Volume × List String) := do
  Outcome.refuse (s.fenced.rows.any fun f => f.hostNqn = hostNqn) .fencedClient
  let row : AttachRow :=
    match s.attaches.lookup hostNqn with
    | some a => { a with nodeName }
    | none => ⟨hostNqn, nodeName, nowUnix⟩
  let s' := { s with attaches := s.attaches.put row }
  pure (s', hostsForVolume s')

def nodeDetach (hostNqn : String) : Tx (Volume × (Bool × List String)) :=
  let s' := { s with attaches := s.attaches.deleteKey hostNqn }
  .ok (s', ((s.attaches.lookup hostNqn).isSome, hostsForVolume s'))

/-- `drop_volume`: the number of rows dropped. The tables are those the source lists:
`extent_commit_grace` is not among them. -/
def dropVolume : Tx (Volume × UInt64) :=
  let dropped :=
    s.grants.rows.length + s.extents.rows.length + s.free.rows.length +
      s.quarantine.rows.length + s.arena.toList.length + s.hosts.rows.length +
      s.attaches.rows.length + s.fenced.rows.length + s.seat.toList.length +
      s.legs.rows.length + s.lease.toList.length
  .ok ({ Volume.empty with grace := s.grace }, UInt64.ofNat dropped)

end Flint.Extent
