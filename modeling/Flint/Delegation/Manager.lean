import Flint.StateIds.Manager

/-!
# The delegation manager

A client may hold a read delegation on a file. A mutation of the file consults the fence first: it
registers a guard on the file, recalls the delegations that are granted and says whether the mutator
has to wait.

The map of files holds references to entries, and so does a guard. The map can drop an entry that is
empty, and a later call makes a new one for the same file: `entries` is the memory that the
references point into, and `dead` marks an entry that was dropped.
-/

namespace Flint.Delegation

open StateIds (StateId Other Bytes)

structure FileId where
  dev : UInt64
  ino : UInt64
deriving DecidableEq

inductive DelegState
  | granted | recallPending | recallAcked | revoked
deriving DecidableEq

structure DelegRecord where
  stateid : StateId
  clientId : UInt64
  fh : Bytes
  ident : FileId
  state : DelegState
  truncate : Bool
deriving DecidableEq

structure RecallOrder where
  stateid : StateId
  clientId : UInt64
  fh : Bytes
  truncate : Bool
deriving DecidableEq

structure FileEntry where
  records : List DelegRecord
  liveGuards : ℕ
  cooldownUntil : Option ℕ
  dead : Bool

namespace FileEntry

def new : FileEntry := ⟨[], 0, none, false⟩

def isEmpty (e : FileEntry) : Bool :=
  e.records.isEmpty && e.liveGuards == 0 && e.cooldownUntil.isNone

end FileEntry

/-- The guard of one mutation. `checked` arms the check that is made when it is dropped. -/
structure MutationGuard where
  entry : ℕ
  ident : FileId
  mutator : Option UInt64
  checked : Bool
deriving DecidableEq

def MutationGuard.foreignLiveAtRelease (g : MutationGuard) (e : FileEntry) :
    Option (UInt64 × DelegState) :=
  (e.records.find? fun r => some r.clientId != g.mutator && r.state != .revoked).map
    fun r => (r.clientId, r.state)

inductive FenceOutcome
  | clear (guard : MutationGuard)
  | conflict (guard : MutationGuard) (recalls : List RecallOrder) (expired : List StateId)
      (delay : Bool)
deriving DecidableEq

def FenceOutcome.guard : FenceOutcome → MutationGuard
  | .clear guard | .conflict guard _ _ _ => guard

inductive GrantRefusal
  | barrier | mutationPending | cooldown | alreadyHolder | quotaClient | quotaGlobal | precheck

inductive DelegReturnError
  | unknown | oldSeqid | revoked

structure DelegationManager where
  files : Dict FileId ℕ
  entries : Dict ℕ FileEntry
  nextEntry : ℕ
  byStateid : Dict Other FileId
  byClient : Dict UInt64 (List Other)
  livePerClient : Dict UInt64 UInt64
  liveGlobal : UInt64
  maxPerClient : UInt64
  maxGlobal : UInt64
  cooldown : ℕ

namespace DelegationManager

def withLimits (maxPerClient maxGlobal : UInt64) (cooldown : ℕ) : DelegationManager :=
  ⟨.empty, .empty, 0, .empty, .empty, .empty, 0, maxPerClient, maxGlobal, cooldown⟩

variable (m : DelegationManager)

/-! ### Entries -/

def store (i : ℕ) (e : FileEntry) : DelegationManager :=
  { m with entries := m.entries.insert i e }

def addEntry (ident : FileId) : DelegationManager :=
  { m.store m.nextEntry .new with
    files := m.files.insert ident m.nextEntry
    nextEntry := m.nextEntry + 1 }

def entry (ident : FileId) : ℕ × DelegationManager :=
  match m.files.get? ident with
  | some i => (i, m)
  | none => (m.nextEntry, m.addEntry ident)

/-- The entry of a file, locked. The source goes round again when the entry is dead; a call that
runs alone has no answer then. -/
def withLiveEntry (ident : FileId) : Option (ℕ × FileEntry × DelegationManager) :=
  let (i, m) := m.entry ident
  match m.entries.get? i with
  | some e => if e.dead then none else some (i, e, m)
  | none => none

def gcMapEntry (ident : FileId) : DelegationManager :=
  match m.files.get? ident with
  | none => m
  | some i =>
    match m.entries.get? i with
    | none => m
    | some e =>
      if e.isEmpty then
        { m.store i { e with dead := true } with files := m.files.erase ident }
      else m

def find (other : Other) : Option (FileId × ℕ × FileEntry) := do
  let ident ← m.byStateid.get? other
  let i ← m.files.get? ident
  let e ← m.entries.get? i
  return (ident, i, e)

def startCooldown (e : FileEntry) (now : ℕ) : FileEntry :=
  if e.records.any (·.state != .revoked) then e
  else { e with cooldownUntil := some (now + m.cooldown) }

def decLiveClient (clientId : UInt64) : DelegationManager :=
  { m with livePerClient :=
      m.livePerClient.modify clientId fun v => if v = 0 then 0 else v - 1 }

def decLive (clientId : UInt64) : DelegationManager :=
  { m with liveGlobal := m.liveGlobal - 1 }.decLiveClient clientId

def dropIndex (r : DelegRecord) : DelegationManager :=
  { m with
    byStateid := m.byStateid.erase r.stateid.other
    byClient := m.byClient.modify r.clientId (·.filter (· ≠ r.stateid.other)) }

def unindex (r : DelegRecord) : DelegationManager :=
  let m := m.dropIndex r
  let m := if r.state = .revoked then m else m.decLive r.clientId
  m.gcMapEntry r.ident

def publish (stateid : StateId) (ident : FileId) (clientId : UInt64) : DelegationManager :=
  { m with
    byStateid := m.byStateid.insert stateid.other ident
    byClient := m.byClient.insert clientId ((m.byClient.get? clientId).getD [] ++ [stateid.other])
    livePerClient := m.livePerClient.insert clientId ((m.livePerClient.get? clientId).getD 0 + 1)
    liveGlobal := m.liveGlobal + 1 }

/-- Grant a read delegation, or say why not. `precheck` is the answer of the caller's check under
the lock. -/
def tryGrant (ident : FileId) (clientId : UInt64) (fh : Bytes) (precheck : Bool) (mint : StateId)
    (now : ℕ) : Option (Except GrantRefusal StateId × DelegationManager) := do
  let (i, e, m) ← m.withLiveEntry ident
  if 0 < e.liveGuards then
    return (.error .mutationPending, m)
  if e.records.any (·.state != .granted) then
    return (.error .barrier, m)
  if e.cooldownUntil.any (now < ·) then
    return (.error .cooldown, m)
  let e := { e with cooldownUntil := none }
  let m := m.store i e
  if e.records.any (·.clientId == clientId) then
    return (.error .alreadyHolder, m)
  if m.maxPerClient ≤ (m.livePerClient.get? clientId).getD 0 then
    return (.error .quotaClient, m)
  if m.maxGlobal ≤ m.liveGlobal then
    return (.error .quotaGlobal, m)
  if !precheck then
    return (.error .precheck, m)
  let r : DelegRecord := ⟨mint, clientId, fh, ident, .granted, false⟩
  return (.ok mint, (m.store i { e with records := e.records ++ [r] }).publish mint ident clientId)

/-! ### The fence -/

structure Consult where
  records : List DelegRecord
  recalls : List RecallOrder
  expired : List StateId
  foreignLive : Bool

section Fence

variable (mutator : Option UInt64) (truncate : Bool) (holderLeaseExpired : UInt64 → Bool)

def consultRecord (c : Consult) (r : DelegRecord) : Consult :=
  match r.state with
  | .revoked => { c with records := c.records ++ [r] }
  | .recallPending | .recallAcked =>
    { c with
      records := c.records ++ [r]
      foreignLive := c.foreignLive || some r.clientId != mutator }
  | .granted =>
    let c := { c with
      records := c.records ++ [{ r with state := .recallPending, truncate }] }
    -- a holder whose lease has lapsed cannot honour a recall, and is left to the caller
    if some r.clientId != mutator && holderLeaseExpired r.clientId then
      { c with expired := c.expired ++ [r.stateid] }
    else
      { c with
        foreignLive := c.foreignLive || some r.clientId != mutator
        recalls := c.recalls ++ [⟨r.stateid, r.clientId, r.fh, truncate⟩] }

def consult (records : List DelegRecord) : Consult :=
  records.foldl (consultRecord mutator truncate holderLeaseExpired) ⟨[], [], [], false⟩

def mutationFence (ident : FileId) : Option (FenceOutcome × DelegationManager) := do
  let (i, e, m) ← m.withLiveEntry ident
  let e := { e with liveGuards := e.liveGuards + 1 }
  let guard : MutationGuard := ⟨i, ident, mutator, false⟩
  if e.records.isEmpty then
    return (.clear { guard with checked := true }, m.store i e)
  let c := consult mutator truncate holderLeaseExpired e.records
  let m := m.store i { e with records := c.records }
  if c.recalls.isEmpty && c.expired.isEmpty && !c.foreignLive then
    -- only tombstones on the file
    return (.clear { guard with checked := true }, m)
  return (.conflict { guard with checked := !c.foreignLive && c.expired.isEmpty }
    c.recalls c.expired c.foreignLive, m)

end Fence

/-- Drop a guard, with the violation that the check at release reports. -/
def dropGuard (g : MutationGuard) : Option (UInt64 × DelegState) × DelegationManager :=
  let found := (m.entries.get? g.entry).bind g.foreignLiveAtRelease
  (if g.checked then found else none,
    { m with entries := m.entries.modify g.entry fun e =>
        { e with liveGuards := e.liveGuards - 1 } }.gcMapEntry g.ident)

/-! ### Records under recall -/

def modifyFirst (other : Other) (f : DelegRecord → DelegRecord) :
    List DelegRecord → List DelegRecord
  | [] => []
  | r :: l => if r.stateid.other = other then f r :: l else r :: modifyFirst other f l

def noteRecallAcked (stateid : StateId) : DelegationManager :=
  match m.find stateid.other with
  | none => m
  | some (_, i, e) =>
    let ack (r : DelegRecord) : DelegRecord :=
      if r.state = .recallPending then { r with state := .recallAcked } else r
    m.store i { e with records := modifyFirst stateid.other ack e.records }

def returnDelegation (stateid : StateId) (now : ℕ) :
    Except DelegReturnError UInt64 × DelegationManager :=
  match m.find stateid.other with
  | none => (.error .unknown, m)
  | some (_, i, e) =>
    match e.records.find? (·.stateid.other = stateid.other) with
    | none => (.error .unknown, m)
    | some r =>
      if r.state = .revoked then (.error .revoked, m)
      else if stateid.seqid ≠ 0 ∧ stateid.seqid ≠ 1 then (.error .oldSeqid, m)
      else
        let e := { e with records := e.records.eraseP (·.stateid.other = stateid.other) }
        let e := if r.state = .granted then e else m.startCooldown e now
        (.ok r.clientId, (m.store i e).unindex r)

def revoke (stateid : StateId) (now : ℕ) : Option UInt64 × DelegationManager :=
  match m.find stateid.other with
  | none => (none, m)
  | some (_, i, e) =>
    match e.records.find? (·.stateid.other = stateid.other) with
    | none => (none, m)
    | some r =>
      if r.state = .revoked ∨ r.state = .granted then (none, m)
      else
        let bury (r : DelegRecord) : DelegRecord := { r with state := .revoked }
        let e := { e with records := modifyFirst stateid.other bury e.records }
        (some r.clientId, (m.store i (m.startCooldown e now)).decLive r.clientId)

def isOf (other : Other) (states : List DelegState) (r : DelegRecord) : Bool :=
  r.stateid.other = other && states.contains r.state

def resolveDisown (stateid : StateId) (now : ℕ) : Bool × DelegationManager :=
  match m.find stateid.other with
  | none => (false, m)
  | some (_, i, e) =>
    let under := isOf stateid.other [.recallPending, .recallAcked]
    match e.records.find? under with
    | none => (false, m)
    | some r =>
      let e := m.startCooldown { e with records := e.records.eraseP under } now
      (true, (m.store i e).unindex r)

def freeRevoked (stateid : StateId) : Bool × DelegationManager :=
  match m.find stateid.other with
  | none => (false, m)
  | some (ident, i, e) =>
    let tombstone := isOf stateid.other [.revoked]
    match e.records.find? tombstone with
    | none => (false, m)
    | some r =>
      let e := { e with records := e.records.eraseP tombstone }
      (true, ((m.store i e).dropIndex r).gcMapEntry ident)

/-! ### Teardown of a client -/

def cleanupOne (acc : List StateId × DelegationManager) (other : Other) :
    List StateId × DelegationManager :=
  let (freed, m) := acc
  match m.byStateid.get? other with
  | none => (freed, m)
  | some ident =>
    let m := { m with byStateid := m.byStateid.erase other }
    match m.files.get? ident with
    | none => (freed, m)
    | some i =>
      match m.entries.get? i with
      | none => (freed, m)
      | some e =>
        match e.records.find? (·.stateid.other = other) with
        | none => (freed, m.gcMapEntry ident)
        | some r =>
          let m := m.store i { e with records := e.records.eraseP (·.stateid.other = other) }
          let m := if r.state = .revoked then m else { m with liveGlobal := m.liveGlobal - 1 }
          (freed ++ [r.stateid], m.gcMapEntry ident)

def cleanupClientDelegations (clientId : UInt64) : List StateId × DelegationManager :=
  match m.byClient.get? clientId with
  | none => ([], m)
  | some others =>
    let (freed, m) := others.foldl cleanupOne ([], { m with byClient := m.byClient.erase clientId })
    (freed, { m with livePerClient := m.livePerClient.erase clientId })

end DelegationManager

end Flint.Delegation
