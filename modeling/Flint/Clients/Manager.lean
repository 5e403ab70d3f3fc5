import Mathlib.Data.UInt
import Flint.Basic.Dict
import Flint.Basic.Table

/-!
# The client manager

A client is known by its owner bytes, the verifier of its incarnation and the principal of the call.
`exchange_id` decides from the record that the owner index names. When a confirmed client comes back
with a new verifier, it allocates a second record that owes the removal of the first
(`pending_replaces`), and the index names the second from then on.

The random id of `allocate_client` is given with the call (`Env.draw`); with a draw that the loop
would not accept the functions answer `none`.
-/

namespace Flint.Clients

abbrev Bytes := List UInt8

structure CachedCreateSessionRes where
  sessionid : UInt64
  sequence : UInt32
deriving DecidableEq

structure Client where
  clientId : UInt64
  owner : Bytes
  verifier : UInt64
  flags : UInt32
  principal : Bytes
  confirmed : Bool
  lastCsSequence : Option UInt32
  csCachedRes : Option CachedCreateSessionRes
  initialCsSequence : UInt32
  machCred : Bool
  pendingReplaces : Option UInt64
deriving DecidableEq

structure ClientRecord where
  clientId : UInt64
  owner : Bytes
  verifier : UInt64
  flags : UInt32
  principal : Bytes
  confirmed : Bool
  lastCsSequence : Option UInt32
  csCachedRes : Option CachedCreateSessionRes
  initialCsSequence : UInt32
  machCred : Bool
deriving DecidableEq

def Client.new (clientId : UInt64) (owner : Bytes) (verifier : UInt64) (flags : UInt32)
    (principal : Bytes) : Client where
  clientId := clientId
  owner := owner
  verifier := verifier
  flags := flags
  principal := principal
  confirmed := false
  lastCsSequence := none
  csCachedRes := none
  initialCsSequence := 0
  machCred := false
  pendingReplaces := none

def Client.toRecord (c : Client) : ClientRecord where
  clientId := c.clientId
  owner := c.owner
  verifier := c.verifier
  flags := c.flags
  principal := c.principal
  confirmed := c.confirmed
  lastCsSequence := c.lastCsSequence
  csCachedRes := c.csCachedRes
  initialCsSequence := c.initialCsSequence
  machCred := c.machCred

def Client.fromRecord (r : ClientRecord) : Client where
  clientId := r.clientId
  owner := r.owner
  verifier := r.verifier
  flags := r.flags
  principal := r.principal
  confirmed := r.confirmed
  lastCsSequence := r.lastCsSequence
  csCachedRes := r.csCachedRes
  initialCsSequence := r.initialCsSequence
  machCred := r.machCred
  pendingReplaces := none

def Client.nextCsSequence (c : Client) : UInt32 :=
  match c.lastCsSequence with
  | none => c.initialCsSequence
  | some last => last + 1

inductive ClientPersistOp
  | put (record : ClientRecord)
  | delete (clientId : UInt64)

inductive ExchangeIdOutcome
  | newUnconfirmed (clientId : UInt64) (sequenceId : UInt32)
  | clientCollision (incumbent : UInt64)
  | existingConfirmed (clientId : UInt64) (sequenceId : UInt32)
  | noEnt | notSame | perm
deriving DecidableEq

structure ClientManager where
  clients : Dict UInt64 Client
  ownerToId : Dict Bytes UInt64
  leases : Dict UInt64 ℕ
  persistQ : List ClientPersistOp

def ClientManager.new : ClientManager := ⟨.empty, .empty, .empty, []⟩

structure Env where
  now : ℕ
  leaseTime : ℕ
  draw : UInt64

variable (m : ClientManager)

def ClientManager.persist (c : Client) : ClientManager :=
  { m with persistQ := m.persistQ ++ [.put c.toRecord] }

def ClientManager.createLease (env : Env) (clientId : UInt64) : ClientManager :=
  { m with leases := m.leases.insert clientId (env.now + env.leaseTime) }

def ClientManager.leaseValid (env : Env) (clientId : UInt64) : Bool :=
  (m.leases.get? clientId).any fun expiresAt => env.now ≤ expiresAt

/-- A lease that ran out more than a lease time ago is not renewed; a missing one is created. -/
def ClientManager.renewLease (env : Env) (clientId : UInt64) : Except String ClientManager :=
  match m.leases.get? clientId with
  | some expiresAt =>
    if expiresAt < env.now ∧ env.leaseTime < env.now - expiresAt then
      .error "Lease expired beyond grace period"
    else
      .ok (m.createLease env clientId)
  | none => .ok (m.createLease env clientId)

/-! ### Records -/

def ClientManager.Drawable (id : UInt64) : Prop := id ≠ 0 ∧ m.clients.get? id = none

instance (id : UInt64) : Decidable (m.Drawable id) := inferInstanceAs (Decidable (_ ∧ _))

def ClientManager.allocateClient (env : Env) (owner : Bytes)
    (verifier : UInt64) (flags : UInt32) (principal : Bytes) :
    Option (ExchangeIdOutcome × ClientManager) :=
  if m.Drawable env.draw then
    let client := { Client.new env.draw owner verifier flags principal with initialCsSequence := 1 }
    let m := m.persist client
    let m := { m with
      clients := m.clients.insert env.draw client
      ownerToId := m.ownerToId.insert owner env.draw }
    some (.newUnconfirmed env.draw 1, m.createLease env env.draw)
  else
    none

def ClientManager.owe (clientId prev : UInt64) : ClientManager :=
  match m.clients.get? clientId with
  | some c =>
    let c := { c with pendingReplaces := some prev }
    { m with clients := m.clients.insert clientId c }.persist c
  | none => m

/-- Remove a record with its lease and its row; the index entry of its owner goes only if it still
names this client. -/
def ClientManager.removeClient (clientId : UInt64) : ClientManager :=
  match m.clients.get? clientId with
  | some client =>
    { clients := m.clients.erase clientId
      ownerToId := m.ownerToId.removeIf client.owner fun id => id = clientId
      leases := m.leases.erase clientId
      persistQ := m.persistQ ++ [.delete clientId] }
  | none => m

def ClientManager.replaceWhenConfirmed (env : Env) (owner : Bytes)
    (verifier : UInt64) (flags : UInt32) (principal : Bytes) (incumbent : UInt64) :
    Option (ExchangeIdOutcome × ClientManager) :=
  match m.allocateClient env owner verifier flags principal with
  | some (.newUnconfirmed clientId sequenceId, m) =>
    some (.newUnconfirmed clientId sequenceId, m.owe clientId incumbent)
  | other => other

def ClientManager.allocateAfterCollision (env : Env) (owner : Bytes)
    (verifier : UInt64) (flags : UInt32) (principal : Bytes) :
    Option (ExchangeIdOutcome × ClientManager) :=
  m.allocateClient env owner verifier flags principal

def updConfirmedRecA : UInt32 := 0x40000000

def ClientManager.current (owner : Bytes) : Option Client :=
  (m.ownerToId.get? owner).bind m.clients.get?

def ClientManager.exchangeId (env : Env) (owner : Bytes) (verifier : UInt64)
    (flags : UInt32) (principal : Bytes) : Option (ExchangeIdOutcome × ClientManager) :=
  let upd := flags &&& updConfirmedRecA ≠ 0
  match m.current owner with
  | none =>
    if upd then some (.noEnt, m) else m.allocateClient env owner verifier flags principal
  | some c =>
    if upd then
      if ¬c.confirmed then some (.noEnt, m)
      else if c.verifier ≠ verifier then some (.notSame, m)
      else if c.principal ≠ principal then some (.perm, m)
      else some (.existingConfirmed c.clientId c.nextCsSequence, m)
    else if ¬c.confirmed then
      -- the unconfirmed record is dropped, and what it owed passes to the new one
      match (m.removeClient c.clientId).allocateClient env owner verifier flags principal,
          c.pendingReplaces with
      | some (.newUnconfirmed clientId sequenceId, m), some prev =>
        some (.newUnconfirmed clientId sequenceId, m.owe clientId prev)
      | other, _ => other
    else if c.principal ≠ principal then
      some (.clientCollision c.clientId, m)
    else if c.verifier ≠ verifier then
      m.replaceWhenConfirmed env owner verifier flags principal c.clientId
    else
      some (.existingConfirmed c.clientId c.nextCsSequence, m)

def ClientManager.markConfirmed (clientId : UInt64) : Option UInt64 × ClientManager :=
  match m.clients.get? clientId with
  | some c =>
    if c.confirmed then (none, m)
    else
      let confirmed := { c with confirmed := true, pendingReplaces := none }
      (c.pendingReplaces,
        { m with clients := m.clients.insert clientId confirmed }.persist confirmed)
  | none => (none, m)

def ClientManager.setMachCred (clientId : UInt64) (on : Bool) : ClientManager :=
  match m.clients.get? clientId with
  | some c =>
    if c.machCred = on then m
    else
      let c := { c with machCred := on }
      { m with clients := m.clients.insert clientId c }.persist c
  | none => m

inductive CreateSessionSeq
  | execute
  | replay (cached : CachedCreateSessionRes)
  | misordered | staleClientId

def ClientManager.processCreateSessionSeq (clientId : UInt64)
    (csaSequence : UInt32) : CreateSessionSeq :=
  match m.clients.get? clientId with
  | none => .staleClientId
  | some client =>
    match client.lastCsSequence with
    | none => if csaSequence = client.initialCsSequence then .execute else .misordered
    | some last =>
      if csaSequence = last then
        match client.csCachedRes with
        | some res => .replay res
        | none => .misordered
      else if csaSequence = last + 1 then .execute
      else .misordered

def ClientManager.recordCreateSessionReply (clientId : UInt64)
    (csaSequence : UInt32) (cached : CachedCreateSessionRes) : ClientManager :=
  match m.clients.get? clientId with
  | some c =>
    let c := { c with lastCsSequence := some csaSequence, csCachedRes := some cached }
    { m with clients := m.clients.insert clientId c }.persist c
  | none => m

abbrev ClientRows := KeyedTable fun r : ClientRecord => r.clientId.toNat

def ClientPersistOp.apply (rows : ClientRows) : ClientPersistOp → ClientRows
  | .put record => rows.put record
  | .delete clientId => rows.deleteKey clientId.toNat

def ClientManager.loadRecord (env : Env) (r : ClientRecord) : ClientManager :=
  { m with
    clients := m.clients.insert r.clientId (.fromRecord r)
    ownerToId := m.ownerToId.insert r.owner r.clientId }.createLease env r.clientId

def ClientManager.loadRecords (env : Env) (records : List ClientRecord) : ClientManager :=
  records.foldl (fun m r => m.loadRecord env r) m

end Flint.Clients
