import Flint.Basic.Outcome
import Flint.Locking.Manager

/-!
# The lock handlers

`handle_lock`, `handle_lockt` and `handle_locku`, with the answers of their collaborators in an
arbitrary `Env`. A request acts for an owner: the one named in a LOCK with a new owner, and
otherwise the one that the presented stateid stands for.
-/

namespace Flint.Locking

/-- `LockOp`; its `open_seqid` is never read. -/
structure LockOp where
  locktype : LockType
  reclaim : Bool
  offset : UInt64
  length : UInt64
  stateid : StateId
  owner : Bytes
  newLockOwner : Bool

/-- `LockUOp`; its `locktype` and `seqid` are never read. -/
structure LockUOp where
  stateid : StateId
  offset : UInt64
  length : UInt64

/-- `LockTOp`; its `owner` is never read. -/
structure LockTOp where
  locktype : LockType
  offset : UInt64
  length : UInt64
  owner : Bytes

structure LockDenied where
  offset : UInt64
  length : UInt64
  locktype : LockType
  clientId : UInt64
  owner : Bytes

structure LockRes where
  status : Nfs4Status
  stateid : Option StateId
  denied : Option LockDenied

structure LockTRes where
  status : Nfs4Status
  denied : Option LockDenied

structure LockURes where
  status : Nfs4Status
  stateid : Option StateId

structure Env where
  currentFh : Option Bytes
  stateidValid : Bool
  sessionClient : Option UInt64
  /-- Delegations are enabled, the file is found, and the fence asks the writer to wait. -/
  fenceDelays : Bool
  inGracePeriod : Bool
  maxLocksPerClient : UInt64
  allocated : StateId
  /-- What `stateids.update_seqid` returns. -/
  updateSeqid : StateId → Option StateId

def LockOp.range (op : LockOp) : LockRange := ⟨op.offset, op.length⟩

def LockUOp.range (op : LockUOp) : LockRange := ⟨op.offset, op.length⟩

def LockRes.refused (status : Nfs4Status) : LockRes := ⟨status, none, none⟩

variable (m : LockManager)

/-- The answer to a reclaim of a lock that is there: the lock's own key if the client can know it,
the owner's registered stateid, or a new one. -/
def answerReclaim (env : Env) (clientId : UInt64) (fh : Bytes) (op : LockOp)
    (existing : Lock) : LockManager × LockRes :=
  if mintedEntryCounter existing.stateid.other = none then
    (m, ⟨.ok, some existing.stateid, none⟩)
  else
    match m.canonicalForOwner clientId op.owner fh with
    | some other => (m, ⟨.ok, some ((env.updateSeqid ⟨0, other⟩).getD ⟨1, other⟩), none⟩)
    | none =>
      (m.registerOwnerStateid env.allocated.other clientId op.owner fh,
        ⟨.ok, some env.allocated, none⟩)

def lockGate (env : Env) (clientId : UInt64) (fh : Bytes) (op : LockOp) :
    Option (LockManager × LockRes) :=
  if op.reclaim then
    if !env.inGracePeriod then some (m, .refused .noGrace)
    else (m.findMatching clientId op.owner fh op.locktype op.range).map
      (answerReclaim m env clientId fh op)
  else if env.maxLocksPerClient ≤ m.lockCountForClient clientId then some (m, .refused .delay)
  else if !m.restoredClean && env.inGracePeriod then some (m, .refused .grace)
  else none

def LockOp.actsFor (op : LockOp) (m : LockManager) (clientId : UInt64) : Option Bytes :=
  if op.newLockOwner then some op.owner
  else
    match m.resolveOwner op.stateid with
    | some (cid, owner) => if cid = clientId then some owner else none
    | none => none

/-- The grant: a new owner's stateid is registered, an existing owner's ranges are carved; then
the range is added under a minted key. -/
def grantLock (env : Env) (clientId : UInt64) (owner fh : Bytes) (op : LockOp) :
    LockManager × LockRes :=
  if op.newLockOwner then
    ((m.registerOwnerStateid env.allocated.other clientId owner fh).addMinted clientId owner fh
      op.locktype op.range, ⟨.ok, some env.allocated, none⟩)
  else
    ((m.trimOwnerRange clientId owner fh op.range).addMinted clientId owner fh op.locktype op.range,
      ⟨.ok, some ((env.updateSeqid op.stateid).getD ⟨op.stateid.seqid + 1, op.stateid.other⟩),
        none⟩)

def lockChecked (env : Env) (clientId : UInt64) (fh : Bytes) (op : LockOp) :
    LockManager × LockRes :=
  match lockGate m env clientId fh op with
  | some answer => answer
  | none =>
    match op.actsFor m clientId with
    | none => (m, .refused .badStateId)
    | some owner =>
      match m.checkConflicts fh op.range op.locktype (some (clientId, owner)) with
      | some l => (m, ⟨.denied, none,
          some ⟨l.range.offset, l.range.length, l.lockType, l.clientId, l.owner⟩⟩)
      | none => grantLock m env clientId owner fh op

def handleLock (env : Env) (op : LockOp) : LockManager × LockRes :=
  match env.currentFh with
  | none => (m, .refused .noFileHandle)
  | some fh =>
    if !env.stateidValid then (m, .refused .badStateId)
    else
      match validateLockRange op.offset op.length with
      | .error status => (m, .refused status)
      | .ok () =>
        match env.sessionClient with
        | none => (m, .refused .badSession)
        | some clientId =>
          if (op.locktype = .write || op.locktype = .writeRead) && env.fenceDelays then
            (m, .refused .delay)
          else lockChecked m env clientId fh op

def handleLockt (env : Env) (op : LockTOp) : LockTRes :=
  match env.currentFh with
  | none => ⟨.noFileHandle, none⟩
  | some fh =>
    match validateLockRange op.offset op.length with
    | .error status => ⟨status, none⟩
    | .ok () =>
      match m.checkConflicts fh ⟨op.offset, op.length⟩ op.locktype none with
      | some l => ⟨.denied, some ⟨l.range.offset, l.range.length, l.lockType, l.clientId, l.owner⟩⟩
      | none => ⟨.ok, none⟩

/-- The owner a LOCKU acts for: the one its stateid stands for, if it is of the session's
client. -/
def LockUOp.actsFor (op : LockUOp) (m : LockManager) (sessionClient : UInt64) :
    Option (UInt64 × Bytes) :=
  match m.resolveOwner op.stateid with
  | some (cid, owner) => if cid ≠ sessionClient then none else some (cid, owner)
  | none => none

def handleLocku (env : Env) (op : LockUOp) : LockManager × LockURes :=
  match env.currentFh with
  | none => (m, ⟨.noFileHandle, none⟩)
  | some fh =>
    if !env.stateidValid then (m, ⟨.badStateId, none⟩)
    else
      match env.sessionClient with
      | none => (m, ⟨.badSession, none⟩)
      | some sessionClient =>
        match op.actsFor m sessionClient with
        | none => (m, ⟨.badStateId, none⟩)
        | some (clientId, owner) =>
          match validateLockRange op.offset op.length with
          | .error status => (m, ⟨status, none⟩)
          | .ok () =>
            (m.trimOwnerRange clientId owner fh op.range,
              ⟨.ok, some ((env.updateSeqid op.stateid).getD
                ⟨op.stateid.seqid + 1, op.stateid.other⟩)⟩)

end Flint.Locking
