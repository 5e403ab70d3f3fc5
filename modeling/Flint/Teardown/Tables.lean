import Flint.StateIds.Manager

/-!
# The state of a client, and how it is torn down

What the server keeps for a client is spread over the tables of several managers. A handler goes
through these tables access by access, and so do the three functions that tear a client down:
`courtesyReleaseExpired`, which retires the clients whose leases have expired,
`cascadeDestroyClient`, which retires a client that was replaced, and DESTROY_CLIENTID.

One access is one `Action`, a write that is queued for the backend included. A handler is the list
of the actions it still has to take; `Tables.exec` takes one, and gives the actions that follow from
what it found.
-/

namespace Flint.Teardown

open StateIds (Bytes OpenKey)

abbrev ClientId := UInt64

structure SessionId where
  random : UInt64
  clientId : ClientId
deriving DecidableEq

structure Minted where
  number : ℕ
  clientId : ClientId
deriving DecidableEq

inductive LockKey
  | entry (id : Minted)
  | canonical (id : Minted)
deriving DecidableEq

def LockKey.client : LockKey → ClientId
  | .entry id | .canonical id => id.clientId

inductive Slot
  | session (id : SessionId)
  | state (id : Minted)
  | opened (key : OpenKey)
  | lock (key : LockKey)
  | lockOwner (key : LockKey)
  | delegation (id : Minted)
  | stateRow (id : Minted)
  | lockRow (key : LockKey)
deriving DecidableEq

def Slot.client : Slot → ClientId
  | .session id | .state id | .delegation id | .stateRow id => id.clientId
  | .opened key => key.clientId
  | .lock key | .lockOwner key | .lockRow key => key.client

/-- The stateid of an open, and the owner and the filehandle in the row of an open stateid. -/
inductive Val
  | plain
  | number (n : ℕ)
  | owner (owner fh : Bytes)
deriving DecidableEq

structure ClientRecord where
  confirmed : Bool
  pendingReplaces : Option ClientId

inductive Lease
  | running | expired | lapsed
deriving DecidableEq

structure Tables where
  clients : Dict ClientId ClientRecord
  clientRows : Dict ClientId Bool
  leases : Dict ClientId Lease
  entries : Dict Slot Val
  /-- The indices `client_sessions`, `client_states` and `by_client`, of all clients. -/
  listed : List Slot

variable (t : Tables) (c : ClientId)

namespace Tables

def empty : Tables := ⟨.empty, .empty, .empty, .empty, []⟩

def has (slot : Slot) : Bool := (t.entries.get? slot).isSome

def hasClient : Bool := (t.clients.get? c).isSome

def hasClientRow : Bool := (t.clientRows.get? c).isSome

def hasLease : Bool := (t.leases.get? c).isSome

def clientSessions : List SessionId :=
  t.listed.filterMap fun
    | .session id => if id.clientId = c then some id else none
    | _ => none

def clientStates : List Minted :=
  t.listed.filterMap fun
    | .state id => if id.clientId = c then some id else none
    | _ => none

def byClient : List Minted :=
  t.listed.filterMap fun
    | .delegation id => if id.clientId = c then some id else none
    | _ => none

def opensOf : List OpenKey :=
  t.entries.toList.filterMap fun
    | (.opened key, _) => if key.clientId = c then some key else none
    | _ => none

def locksOf : List LockKey :=
  t.entries.toList.filterMap fun
    | (.lock key, _) => if key.client = c then some key else none
    | _ => none

def lockOwnersOf : List LockKey :=
  t.entries.toList.filterMap fun
    | (.lockOwner key, _) => if key.client = c then some key else none
    | _ => none

def getExpiredClients : List ClientId :=
  t.leases.toList.filterMap fun (c, lease) => if lease = .running then none else some c

def put (slot : Slot) (v : Val) : Tables :=
  { t with entries := t.entries.insert slot v }

def erase (slot : Slot) : Tables := { t with entries := t.entries.erase slot }

end Tables

/-! ### The actions -/

inductive LockArm
  | newOwner (stateid entry : ℕ)
  /-- A lock owner that is known: its entries that are cut, what is left of each, and the new entry.
  -/
  | existingOwner (cuts : List (ℕ × List ℕ)) (entry : ℕ)
  | reclaimKnown (held : ℕ) (canonical : Minted)
  /-- A reclaim that finds the restored lock, of an owner whose stateid is not known. -/
  | reclaimMint (held stateid : ℕ)
deriving DecidableEq

structure LockOp where
  sessionId : Option SessionId
  stateid : Option Minted
  refused : Bool
  arm : LockArm
deriving DecidableEq

inductive Purpose
  | opened (owner fh : Bytes)
  | lockOwner (entry : ℕ)
  | reclaimed
deriving DecidableEq

inductive Action
  -- SEQUENCE
  | processSequence (id : SessionId) (isNew : Bool)
  | renewLease (c : ClientId)
  | createLease (c : ClientId)
  -- EXCHANGE_ID
  | persistClient (c : ClientId) (replaces : Option ClientId)
  | insertClient (c : ClientId)
  | setPendingReplaces (c incumbent : ClientId)
  -- CREATE_SESSION
  | checkLease (c : ClientId) (random : UInt64) (inOrder underQuota : Bool)
  | processCreateSessionSeq (c : ClientId) (random : UInt64) (inOrder underQuota : Bool)
  | markConfirmed (c : ClientId) (random : UInt64) (underQuota : Bool)
  | putClientRow (c : ClientId) (confirmed : Bool)
  | drawSessionId (c : ClientId) (random : UInt64) (underQuota : Bool)
  -- OPEN and LOCK
  | allocate (id : Minted) (purpose : Purpose)
  -- OPEN
  | openEntry (key : OpenKey) (stateid : ℕ) (delegation : Option ℕ)
  /-- Read the state entry and persist it, with the owner and the filehandle of the open. -/
  | stampOpen (stateid : ℕ) (key : OpenKey)
  -- LOCK
  | lockClient (op : LockOp)
  | lockArm (c : ClientId) (stateid : Option Minted) (arm : LockArm)
  | resolveOwner (c : ClientId) (stateid : Minted) (cuts : List (ℕ × List ℕ)) (entry : ℕ)
  | cutLock (held : Minted) (pieces : List ℕ)
  | updateSeqid (id : Minted)
  -- a write to a table, an index or the backend, for a client that is served
  | put (slot : Slot) (v : Val)
  | list (slot : Slot)
  | eraseRow (key : LockKey)
  | unlist (id : SessionId)
  -- tearing a client down
  | readSessions (c : ClientId)
  | destroySession (id : SessionId)
  | readStates (c : ClientId)
  | dropStates (c : ClientId)
  | scanOpens (c : ClientId)
  | takeDelegations (c : ClientId)
  | scanLocks (c : ClientId)
  | removeLock (key : LockKey)
  | scanLockOwners (c : ClientId)
  | remove (slot : Slot)
  | removeClient (c : ClientId)
  | removeLease (c : ClientId)
  | deleteClientRow (c : ClientId)
  -- DESTROY_CLIENTID
  | countSessions (c : ClientId)
  | countStates (c : ClientId)
  | countLocks (c : ClientId)
  | countDelegations (c : ClientId)
  | removeUnused (c : ClientId)
deriving DecidableEq

/-! ### The functions of the managers -/

def allocateDelegation (id : Minted) : List Action := [.put (.state id) .plain]

def registerOwnerStateid (id : Minted) : List Action :=
  [.put (.lockRow (.canonical id)) .plain, .put (.lockOwner (.canonical id)) .plain]

def addLock (id : Minted) : List Action :=
  [.put (.lockOwner (.entry id)) .plain, .put (.lock (.entry id)) .plain,
    .put (.lockRow (.entry id)) .plain]

def Purpose.actions (id : Minted) : Purpose → List Action
  | .opened owner fh =>
    [.stampOpen id.number ⟨id.clientId, owner, fh⟩,
      .put (.opened ⟨id.clientId, owner, fh⟩) (.number id.number)]
  | .lockOwner entry => registerOwnerStateid id ++ addLock ⟨entry, id.clientId⟩
  | .reclaimed => registerOwnerStateid id

def tryGrant : Option ℕ → List Action
  | none => []
  | some n => allocateDelegation ⟨n, c⟩ ++ [.put (.delegation ⟨n, c⟩) .plain]

def destroyClientSessions : List Action := [.readSessions c]

def removeClientStateids : List Action := [.readStates c, .scanOpens c]

def cleanupClientDelegations : List Action := [.takeDelegations c]

def removeClientLocks : List Action := [.scanLocks c, .scanLockOwners c]

def cleanupExpiredIds (expired : List ClientId) : List Action :=
  expired.flatMap fun c =>
    destroyClientSessions c ++ removeClientStateids c ++ [.removeClient c] ++
      cleanupClientDelegations c

def courtesyReleaseExpired (expired : List ClientId) : List Action :=
  cleanupExpiredIds expired ++ expired.flatMap removeClientLocks

/-- The teardown of a client that was replaced: the locks go before the record. -/
def cascadeDestroyClient : List Action :=
  destroyClientSessions c ++ removeClientStateids c ++ cleanupClientDelegations c ++
    removeClientLocks c ++ [.removeClient c]

def Slot.listing : Slot → List Action
  | .session id => [.list (.session id)]
  | .state id => [.list (.state id)]
  | .delegation id => [.list (.delegation id)]
  | _ => []

def LockArm.actions (stateid : Option Minted) : LockArm → Option (List Action)
  | .newOwner id entry => some [.allocate ⟨id, c⟩ (.lockOwner entry)]
  | .existingOwner cuts entry => stateid.map fun id => [.resolveOwner c id cuts entry]
  | .reclaimKnown held id =>
    if t.has (.lock (.entry ⟨held, c⟩)) && t.has (.lockOwner (.canonical id)) &&
        decide (id.clientId = c) then
      some [.updateSeqid id]
    else
      none
  | .reclaimMint held id =>
    if t.has (.lock (.entry ⟨held, c⟩)) then
      some [.allocate ⟨id, c⟩ .reclaimed]
    else
      none

namespace Tables

def retire : Tables × List Action :=
  if t.hasClient c then
    ({ t with clients := t.clients.erase c }, [.removeLease c, .deleteClientRow c])
  else
    (t, [])

def exec : Action → Tables × Option (List Action)
  | .processSequence id isNew =>
    if t.has (.session id) then
      (t, some (if isNew then [.renewLease id.clientId] else []))
    else
      (t, none)
  | .renewLease c =>
    match t.leases.get? c with
    | none => (t, some [.createLease c])
    | some .lapsed => (t, some [])
    | some _ => ({ t with leases := t.leases.insert c .running }, some [])
  | .createLease c => ({ t with leases := t.leases.insert c .running }, some [])
  | .persistClient c replaces =>
    ({ t with clientRows := t.clientRows.insert c false },
      some ([.insertClient c, .createLease c] ++ (replaces.map (.setPendingReplaces c)).toList))
  | .insertClient c => ({ t with clients := t.clients.insert c ⟨false, none⟩ }, some [])
  | .setPendingReplaces c incumbent =>
    match t.clients.get? c with
    | some record =>
      ({ t with clients := t.clients.insert c { record with pendingReplaces := some incumbent } },
        some [.putClientRow c record.confirmed])
    | none => (t, some [])
  | .checkLease c random inOrder underQuota =>
    if t.leases.get? c = some .running then
      (t, some [.processCreateSessionSeq c random inOrder underQuota])
    else
      (t, none)
  | .processCreateSessionSeq c random inOrder underQuota =>
    if t.hasClient c && inOrder then (t, some [.markConfirmed c random underQuota]) else (t, none)
  | .markConfirmed c random underQuota =>
    match t.clients.get? c with
    | some ⟨false, pending⟩ =>
      ({ t with clients := t.clients.insert c ⟨true, none⟩ },
        some (.putClientRow c true ::
          ((pending.map cascadeDestroyClient).getD [] ++ [.drawSessionId c random underQuota])))
    | _ => (t, some [.drawSessionId c random underQuota])
  | .putClientRow c confirmed => ({ t with clientRows := t.clientRows.insert c confirmed }, some [])
  | .drawSessionId c random underQuota =>
    -- a draw that is in use is made again, so this one is not
    if underQuota && !t.has (.session ⟨random, c⟩) then
      (t, some [.put (.session ⟨random, c⟩) .plain])
    else
      (t, none)
  | .allocate id purpose =>
    (t.put (.stateRow id) .plain, some (.put (.state id) .plain :: purpose.actions id))
  | .openEntry key stateid delegation =>
    match t.entries.get? (.opened key) with
    | some (.number n) =>
      if t.has (.state ⟨n, key.clientId⟩) then
        (t, some (.stampOpen n key :: tryGrant key.clientId delegation))
      else
        (t, some (.allocate ⟨stateid, key.clientId⟩ (.opened key.owner key.fh) ::
          tryGrant key.clientId delegation))
    | _ =>
      (t, some (.allocate ⟨stateid, key.clientId⟩ (.opened key.owner key.fh) ::
        tryGrant key.clientId delegation))
  | .stampOpen stateid key =>
    if t.has (.state ⟨stateid, key.clientId⟩) then
      (t, some [.put (.stateRow ⟨stateid, key.clientId⟩) (.owner key.owner key.fh)])
    else
      (t, some [])
  | .lockClient op =>
    match op.sessionId with
    | some id =>
      if t.has (.session id) && !op.refused then
        (t, some [.lockArm id.clientId op.stateid op.arm])
      else
        (t, none)
    | none => (t, none)
  | .lockArm c stateid arm => (t, arm.actions t c stateid)
  | .resolveOwner c id cuts entry =>
    if t.has (.lockOwner (.canonical id)) && decide (id.clientId = c) then
      (t, some (cuts.map (fun cut => .cutLock ⟨cut.1, c⟩ cut.2) ++
        .updateSeqid id :: addLock ⟨entry, c⟩))
    else
      (t, none)
  | .cutLock held pieces =>
    if t.has (.lock (.entry held)) then
      (t.erase (.lock (.entry held)),
        some (.eraseRow (.entry held) :: pieces.flatMap fun n => addLock ⟨n, held.clientId⟩))
    else
      (t, some [])
  | .updateSeqid id =>
    if t.has (.state id) then (t, some [.put (.stateRow id) .plain]) else (t, some [])
  | .put slot v => (t.put slot v, some slot.listing)
  | .list slot => ({ t with listed := t.listed ++ [slot] }, some [])
  | .eraseRow key => (t.erase (.lockRow key), some [])
  | .unlist id => ({ t with listed := t.listed.filter (· ≠ .session id) }, some [])
  | .readSessions c => (t, some ((t.clientSessions c).map .destroySession))
  | .destroySession id =>
    if t.has (.session id) then (t.erase (.session id), some [.unlist id]) else (t, some [])
  | .readStates c =>
    if (t.clientStates c).isEmpty then
      (t, some [])
    else
      (t, some ((t.clientStates c).flatMap
        (fun id => [.remove (.state id), .remove (.stateRow id)]) ++
        [.dropStates c]))
  | .dropStates c =>
    ({ t with listed := t.listed.filter fun
        | .state id => decide (id.clientId ≠ c)
        | _ => true }, some [])
  | .scanOpens c => (t, some ((t.opensOf c).map fun key => .remove (.opened key)))
  | .takeDelegations c =>
    ({ t with listed := t.listed.filter fun
        | .delegation id => decide (id.clientId ≠ c)
        | _ => true }, some ((t.byClient c).map fun id => .remove (.delegation id)))
  | .scanLocks c => (t, some ((t.locksOf c).map .removeLock))
  | .removeLock key =>
    if t.has (.lock key) then (t.erase (.lock key), some [.remove (.lockRow key)]) else (t, some [])
  | .scanLockOwners c =>
    (t, some ((t.lockOwnersOf c).map (fun key => .remove (.lockOwner key)) ++
      (t.lockOwnersOf c).map (fun key => .remove (.lockRow key))))
  | .remove slot => (t.erase slot, some [])
  | .removeClient c => ((t.retire c).1, some (t.retire c).2)
  | .removeLease c => ({ t with leases := t.leases.erase c }, some [])
  | .deleteClientRow c => ({ t with clientRows := t.clientRows.erase c }, some [])
  | .countSessions c =>
    if (t.clientSessions c).isEmpty then (t, some [.countStates c]) else (t, none)
  | .countStates c => if (t.clientStates c).isEmpty then (t, some [.countLocks c]) else (t, none)
  | .countLocks c => if (t.locksOf c).isEmpty then (t, some [.countDelegations c]) else (t, none)
  | .countDelegations c => if (t.byClient c).isEmpty then (t, some [.removeUnused c]) else (t, none)
  | .removeUnused c => ((t.retire c).1, some (t.retire c).2)

end Tables

/-! ### The requests -/

inductive Request
  | courtesyRelease
  | exchangeId (c : ClientId) (replaces : Option ClientId)
  | createSession (c : ClientId) (random : UInt64) (inOrder underQuota : Bool)
  | sequence (id : SessionId) (isNew : Bool)
  | destroySession (id : SessionId)
  | destroyClientId (c : ClientId)
  | openFile (sessionId : Option SessionId) (owner fh : Bytes) (refused : Bool) (stateid : ℕ)
      (delegation : Option ℕ)
  | lock (op : LockOp)
  | cascade (c : ClientId)
deriving DecidableEq

namespace Tables

def getClientIdFromContext : Option SessionId → ClientId
  | some id => if t.has (.session id) then id.clientId else 1
  | none => 1

def start : Request → Tables × Option (List Action)
  | .courtesyRelease => (t, some (courtesyReleaseExpired t.getExpiredClients))
  | .exchangeId c replaces =>
    if c ≠ 0 ∧ t.hasClient c = false ∧ replaces.all t.hasClient = true then
      (t, some [.persistClient c replaces])
    else
      (t, none)
  | .createSession c random inOrder underQuota =>
    if t.hasClient c then (t, some [.checkLease c random inOrder underQuota]) else (t, none)
  | .sequence id isNew =>
    if t.has (.session id) then (t, some [.processSequence id isNew]) else (t, none)
  | .destroySession id =>
    if t.has (.session id) then (t.erase (.session id), some [.unlist id]) else (t, none)
  | .destroyClientId c => if t.hasClient c then (t, some [.countSessions c]) else (t, none)
  | .openFile sessionId owner fh refused stateid delegation =>
    if refused then
      (t, none)
    else
      (t, some [.openEntry ⟨t.getClientIdFromContext sessionId, owner, fh⟩ stateid delegation])
  | .lock op =>
    if op.stateid.all (fun id => t.has (.state id)) then (t, some [.lockClient op]) else (t, none)
  | .cascade c => (t, some (cascadeDestroyClient c))

def reloaded : Slot × Val → List (Slot × Val)
  | (.stateRow id, v) =>
    [(.stateRow id, v), (.state id, .plain)] ++
      match v with
      | .owner owner fh => [(.opened ⟨id.clientId, owner, fh⟩, .number id.number)]
      | _ => []
  | (.lockRow (.canonical id), v) =>
    [(.lockRow (.canonical id), v), (.lockOwner (.canonical id), .plain)]
  | (.lockRow (.entry id), v) =>
    [(.lockRow (.entry id), v), (.lockOwner (.entry id), .plain), (.lock (.entry id), .plain)]
  | _ => []

/-- The server starts again with the rows. Sessions and delegations are not brought back; every
client gets a lease. -/
def restart : Tables where
  clients := t.clientRows.toList.foldl (fun d p => d.insert p.1 ⟨p.2, none⟩) .empty
  clientRows := t.clientRows
  leases := t.clientRows.toList.foldl (fun d p => d.insert p.1 .running) .empty
  entries := (t.entries.toList.flatMap reloaded).foldl (fun d p => d.insert p.1 p.2) .empty
  listed := t.entries.toList.filterMap fun
    | (.stateRow id, _) => some (.state id)
    | _ => none

end Tables

structure Thread where
  current : List Action
  later : List Request
deriving DecidableEq

structure Server where
  tables : Tables
  threads : List Thread

inductive Event
  | arrive (compound : List Request)
  | step (i : ℕ)
  | expire (c : ClientId)
  | restart

def Thread.continue (rest : List Action) (later : List Request) : Option (List Action) → Thread
  | some more => ⟨more ++ rest, later⟩
  | none => ⟨rest, []⟩

namespace Server

def new : Server := ⟨.empty, []⟩

def step (s : Server) : Event → Server
  | .arrive compound => { s with threads := s.threads ++ [⟨[], compound⟩] }
  | .step i =>
    match s.threads[i]? with
    | some ⟨action :: rest, later⟩ =>
      ⟨(s.tables.exec action).1, s.threads.set i (.continue rest later (s.tables.exec action).2)⟩
    | some ⟨[], request :: later⟩ =>
      ⟨(s.tables.start request).1, s.threads.set i (.continue [] later (s.tables.start request).2)⟩
    | _ => s
  | .expire c =>
    { s with tables := { s.tables with leases := s.tables.leases.modify c fun
        | .running => .expired
        | _ => .lapsed } }
  | .restart => ⟨s.tables.restart, []⟩

def Idle (s : Server) : Prop := ∀ th ∈ s.threads, th = ⟨[], []⟩

instance (s : Server) : Decidable s.Idle := by
  unfold Idle
  infer_instance

end Server

/-- Whatever names a client names one that has a record, and every client has a lease. -/
structure NoneLeft (t : Tables) : Prop where
  named : ∀ slot, t.has slot → t.hasClient slot.client
  leases : ∀ c, t.hasLease c → t.hasClient c
  leased : ∀ c, t.hasClient c → t.hasLease c

end Flint.Teardown
