import Flint.Basic.Outcome
import Flint.Clients.Manager

/-!
# EXCHANGE_ID and CREATE_SESSION

The two handlers that make and confirm clients, over the client manager and the tables of sessions,
stateids, delegations and locks. Of these a handler only asks whether a client has any, and only
removes all of them, so a table is the list of the owners of its rows.
-/

namespace Flint.Clients

inductive Nfs4Status
  | ok | perm | noEnt | inval | tooSmall | delay | clIdInUse | staleClientId | notSame
  | seqMisordered | encrAlgUnsupp

structure Config where
  maxClients : ℕ
  maxSessionsPerClient : ℕ
  roleFlags : UInt32

structure Server where
  clients : ClientManager
  sessions : List (UInt64 × UInt64)
  stateids : List UInt64
  delegations : List UInt64
  locks : List UInt64

def Server.new : Server := ⟨.new, [], [], [], []⟩

structure ExchangeIdOp where
  clientOwner : Bytes
  verifier : UInt64
  flags : UInt32
  /-- `spa_how`: 0 is SP4_NONE, 1 is SP4_MACH_CRED, 2 is SP4_SSV. -/
  stateProtect : UInt32

structure ExchangeIdRes where
  status : Nfs4Status
  clientid : UInt64
  sequenceid : UInt32
  flags : UInt32

structure ChannelAttrs where
  maxRequestSize : UInt32
  maxResponseSize : UInt32
  maxOperations : UInt32

structure CreateSessionOp where
  clientid : UInt64
  sequence : UInt32
  flags : UInt32
  foreChanAttrs : ChannelAttrs
  backChanAttrs : ChannelAttrs

structure CreateSessionRes where
  status : Nfs4Status
  sessionid : UInt64 × UInt64
  sequence : UInt32

structure CompoundContext where
  principal : Bytes
  gssProtected : Bool

def exchangeIdErr (status : Nfs4Status) : ExchangeIdRes := ⟨status, 0, 0, 0⟩

def createSessionErr (status : Nfs4Status) : CreateSessionRes := ⟨status, (0, 0), 0⟩

def validEidFlags : UInt32 :=
  0x00000001 ||| 0x00000002 ||| 0x00000100 ||| 0x00010000 ||| 0x00020000 ||| 0x00040000 |||
    updConfirmedRecA

def confirmedR : UInt32 := 0x80000000

def Server.cascadeDestroyClient (s : Server) (oldId : UInt64) : Server where
  sessions := s.sessions.filter fun id => id.2 ≠ oldId
  stateids := s.stateids.filter fun id => id ≠ oldId
  delegations := s.delegations.filter fun id => id ≠ oldId
  locks := s.locks.filter fun id => id ≠ oldId
  clients := s.clients.removeClient oldId

def Server.holdsState (s : Server) (id : UInt64) : Bool :=
  s.sessions.any (fun session => session.2 = id) || s.stateids.contains id ||
    s.delegations.contains id || s.locks.contains id

def Server.clientHasLiveState (s : Server) (env : Env) (id : UInt64) : Bool :=
  s.clients.leaseValid env id && s.holdsState id

/-- A client under SP4_MACH_CRED is its machine's as long as its lease runs. -/
def Server.machCredProtected (s : Server) (env : Env) (id : UInt64) : Bool :=
  (s.clients.clients.get? id).any (fun c => c.machCred) && s.clients.leaseValid env id

/-- The end of EXCHANGE_ID: the protection of the record follows the call, and the reply. -/
def Server.answerExchangeId (cfg : Config) (s : Server) (machCred : Bool) (clientId : UInt64)
    (sequenceId : UInt32) (isNew : Bool) : Server × ExchangeIdRes :=
  ({ s with clients := s.clients.setMachCred clientId machCred },
    ⟨.ok, clientId, sequenceId, if isNew then cfg.roleFlags else cfg.roleFlags ||| confirmedR⟩)

def Server.finishExchangeId (cfg : Config) (s : Server) (machCred : Bool) :
    ExchangeIdOutcome → Server × ExchangeIdRes
  | .newUnconfirmed clientId sequenceId => s.answerExchangeId cfg machCred clientId sequenceId true
  | .existingConfirmed clientId sequenceId =>
    s.answerExchangeId cfg machCred clientId sequenceId false
  -- a collision is resolved before
  | .clientCollision _ => (s, exchangeIdErr .clIdInUse)
  | .noEnt => (s, exchangeIdErr .noEnt)
  | .notSame => (s, exchangeIdErr .notSame)
  | .perm => (s, exchangeIdErr .perm)

def Server.exchangeIdRecords (cfg : Config) (s : Server) (env : Env) (op : ExchangeIdOp)
    (ctx : CompoundContext) : Option (Server × ExchangeIdRes) :=
  let machCred := op.stateProtect = 1
  match s.clients.exchangeId env op.clientOwner op.verifier op.flags ctx.principal with
  | none => none
  | some (.clientCollision incumbent, clients) =>
    let s := { s with clients }
    if s.machCredProtected env incumbent || s.clientHasLiveState env incumbent then
      some (s, exchangeIdErr .clIdInUse)
    else
      let s := s.cascadeDestroyClient incumbent
      match s.clients.allocateAfterCollision env op.clientOwner op.verifier op.flags
          ctx.principal with
      | none => none
      | some (outcome, clients) => some ({ s with clients }.finishExchangeId cfg machCred outcome)
  | some (outcome, clients) => some ({ s with clients }.finishExchangeId cfg machCred outcome)

def Server.handleExchangeId (cfg : Config) (s : Server) (env : Env) (op : ExchangeIdOp)
    (ctx : CompoundContext) : Option (Server × ExchangeIdRes) :=
  if op.flags &&& ~~~validEidFlags ≠ 0 then
    some (s, exchangeIdErr .inval)
  else if op.flags &&& confirmedR ≠ 0 then
    some (s, exchangeIdErr .inval)
  else if op.stateProtect = 2 then
    some (s, exchangeIdErr .encrAlgUnsupp)
  else if op.stateProtect = 1 ∧ ¬ctx.gssProtected then
    some (s, exchangeIdErr .inval)
  -- the quota is for owners that would make the table grow
  else if op.flags &&& updConfirmedRecA = 0 ∧ (s.clients.ownerToId.get? op.clientOwner).isNone ∧
      cfg.maxClients ≤ s.clients.clients.size then
    some (s, exchangeIdErr .delay)
  else
    s.exchangeIdRecords cfg env op ctx

def ChannelAttrs.tooSmall (attrs : ChannelAttrs) : Bool :=
  attrs.maxRequestSize < 256 || attrs.maxResponseSize < 256 || attrs.maxOperations < 1

def Server.confirmClient (s : Server) (clientId : UInt64) : Server :=
  match s.clients.markConfirmed clientId with
  | (some oldId, clients) => { s with clients }.cascadeDestroyClient oldId
  | (none, clients) => { s with clients }

/-- The end of CREATE_SESSION. `env.draw` is the random half of the session id. -/
def Server.openSession (s : Server) (env : Env) (op : CreateSessionOp) :
    Option (Server × CreateSessionRes) :=
  if (env.draw, op.clientid) ∈ s.sessions then
    none
  else
    some ({ s with
        sessions := s.sessions ++ [(env.draw, op.clientid)]
        clients := s.clients.recordCreateSessionReply op.clientid op.sequence
          ⟨env.draw, op.sequence⟩ },
      ⟨.ok, (env.draw, op.clientid), op.sequence⟩)

def Server.handleCreateSession (cfg : Config) (s : Server) (env : Env) (op : CreateSessionOp)
    (ctx : CompoundContext) : Option (Server × CreateSessionRes) :=
  if op.flags &&& ~~~(0x1 ||| 0x2 ||| 0x4) ≠ 0 then
    some (s, createSessionErr .inval)
  else if op.foreChanAttrs.tooSmall || op.backChanAttrs.tooSmall then
    some (s, createSessionErr .tooSmall)
  else
    match s.clients.clients.get? op.clientid with
    | none => some (s, createSessionErr .staleClientId)
    | some c =>
      -- an unconfirmed record is confirmed by its own principal only
      if ¬c.confirmed ∧ c.principal ≠ ctx.principal then
        some (s, createSessionErr .clIdInUse)
      else if ¬s.clients.leaseValid env op.clientid then
        some (s, createSessionErr .staleClientId)
      else
        match s.clients.processCreateSessionSeq op.clientid op.sequence with
        | .staleClientId => some (s, createSessionErr .staleClientId)
        | .misordered => some (s, createSessionErr .seqMisordered)
        | .replay cached => some (s, ⟨.ok, (cached.sessionid, op.clientid), cached.sequence⟩)
        | .execute =>
          let s := s.confirmClient op.clientid
          if cfg.maxSessionsPerClient ≤ (s.sessions.filter fun id => id.2 = op.clientid).length then
            some (s, createSessionErr .delay)
          else
            s.openSession env op

end Flint.Clients
