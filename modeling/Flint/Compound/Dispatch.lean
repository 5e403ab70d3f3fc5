import Flint.Slots.Session

/-!
# A compound and its reply

A compound is a list of operations, run one after another up to the first that fails. The limits of
a session are known only when SEQUENCE has named it, so they are looked up in the loop, after each
operation.

`Env` has what the tables of the server and the handlers answer, for each position of the compound,
so other compounds may interfere in any way.
-/

namespace Flint.Compound

open Slots (Bytes SeqStatus)

abbrev SessionId := Bytes

/-- `other` is any other status of a handler. -/
inductive Nfs4Status
  | ok | inval | notSupp | minorVersMismatch | badXdr | opIllegal | badSession | badSessionId
  | seqMisordered | sequencePos | reqTooBig | repTooBig | repTooBigToCache | retryUncachedRep
  | tooManyOps | opNotInSession | notOnlyOp
  | other (code : UInt32)
deriving DecidableEq

structure SequenceOp where
  sessionid : SessionId
  sequenceid : UInt32
  slotid : UInt32
  cacheThis : Bool
deriving DecidableEq

inductive Operation
  | sequence (op : SequenceOp)
  | exchangeId | createSession | destroySession | destroyClientId | bindConnToSession
  | unsupported (opcode : UInt32)
  | badXdr (opcode : UInt32)
  | invalidName (opcode : UInt32)
  | other (opcode : UInt32)
deriving DecidableEq

namespace Operation

def isSequence : Operation → Bool
  | .sequence _ => true
  | _ => false

def requiresSoleOp : Operation → Bool
  | .exchangeId | .createSession | .destroySession | .destroyClientId | .bindConnToSession => true
  | _ => false

def isDecodeError : Operation → Bool
  | .badXdr _ | .unsupported _ => true
  | _ => false

end Operation

structure SequenceResult where
  sessionid : SessionId
  sequenceid : UInt32
  slotid : UInt32
  highestSlotid : UInt32
  targetHighestSlotid : UInt32
  statusFlags : UInt32
deriving DecidableEq

inductive OperationResult
  | sequence (status : Nfs4Status) (result : Option SequenceResult)
  | unsupported (opcode : UInt32) (status : Nfs4Status)
  | other (opcode : UInt32) (status : Nfs4Status) (body : Bytes)
deriving DecidableEq

def OperationResult.status : OperationResult → Nfs4Status
  | .sequence status _ | .unsupported _ status | .other _ status _ => status

def limitError (status : Nfs4Status) : OperationResult := .unsupported 0 status

def opcodeClone : UInt32 := 71

def opcodeIllegal : UInt32 := 10044

/-- `encode_result`: an opcode that the protocol does not have is sent as ILLEGAL, and its status as
OP_ILLEGAL whatever it was. -/
def OperationResult.encode : OperationResult → OperationResult
  | .unsupported opcode status =>
    if opcode < 3 ∨ opcodeClone < opcode then .unsupported opcodeIllegal .opIllegal
    else .unsupported opcode status
  | result => result

structure CompoundRequest where
  tag : String
  tagValid : Bool
  minorVersion : UInt32
  operations : List Operation
  wireSize : ℕ

/-- A reply that is encoded already: the one a slot has cached, or a measured one. -/
inductive RawReply
  | cached (bytes : Bytes)
  | encoded (status : Nfs4Status) (tag : String) (results : List OperationResult)

structure CompoundResponse where
  status : Nfs4Status
  tag : String
  results : List OperationResult
  /-- Where set, this is sent, and the status and the results above are not. -/
  rawReply : Option RawReply
  cacheSlot : Option (SessionId × UInt32)

/-- What the client reads. -/
inductive Reply
  | replay (bytes : Bytes)
  | told (status : Nfs4Status) (results : List OperationResult)
deriving DecidableEq

def CompoundResponse.reply (r : CompoundResponse) : Reply :=
  match r.rawReply with
  | some (.cached bytes) => .replay bytes
  | some (.encoded status _ results) => .told status (results.map OperationResult.encode)
  | none => .told r.status (r.results.map OperationResult.encode)

/-! ### What the server answers -/

structure SessionView where
  foreChanMaxrequests : UInt32
  foreChanMaxresponsesizeCached : UInt32

structure SessionLimits where
  foreChanMaxrequestsize : UInt32
  foreChanMaxresponsesize : UInt32
  foreChanMaxops : UInt32

/-- The answers of the tables and the handlers, at every position. -/
structure Env where
  /-- A SEQUENCE from a node that may not use the session, or on another connection. -/
  sequenceRefused : ℕ → SequenceOp → Option { status : Nfs4Status // status ≠ .ok }
  getSession : ℕ → SessionId → Option SessionView
  processSequence : ℕ → SequenceOp → Option (Except String SeqStatus)
  seqFlags : ℕ → SessionId → UInt32
  handle : ℕ → Operation → OperationResult
  /-- The limits, looked up after the operation at the position. -/
  sessionLimits : ℕ → SessionId → Option SessionLimits
  finalLimits : SessionId → Option SessionLimits
  /-- The length of the encoded reply. -/
  encodedLength : Nfs4Status → String → List OperationResult → ℕ

structure CompoundContext where
  sessionId : Option SessionId
  replayReply : Option Bytes
  cacheSlot : Option (SessionId × UInt32)

structure SequenceRes where
  status : Nfs4Status
  sessionid : SessionId
  sequenceid : UInt32
  slotid : UInt32
  highestSlotid : UInt32
  targetHighestSlotid : UInt32

def SequenceRes.error (op : SequenceOp) (status : Nfs4Status) : SequenceRes :=
  ⟨status, op.sessionid, 0, 0, 0, 0⟩

def SequenceRes.accepted (op : SequenceOp) (session : SessionView) : SequenceRes :=
  -- `saturating_sub`
  let highest := if session.foreChanMaxrequests = 0 then 0 else session.foreChanMaxrequests - 1
  ⟨.ok, op.sessionid, op.sequenceid, op.slotid, highest, highest⟩

def handleSequence (env : Env) (i : ℕ) (op : SequenceOp) (ctx : CompoundContext) :
    SequenceRes × CompoundContext :=
  match env.getSession i op.sessionid with
  | none => (.error op .badSession, ctx)
  | some session =>
    if session.foreChanMaxrequests ≤ op.slotid then
      (.error op .badSessionId, ctx)
    else if op.cacheThis ∧ session.foreChanMaxresponsesizeCached < 64 then
      (.error op .repTooBigToCache, ctx)
    else
      match env.processSequence i op with
      | none => (.error op .badSession, ctx)
      | some (.error _) => (.error op .badSessionId, ctx)
      | some (.ok .misordered) => (.error op .seqMisordered, ctx)
      | some (.ok (.replay (some bytes))) =>
        (.accepted op session, { ctx with replayReply := some bytes })
      | some (.ok (.replay none)) => (.error op .retryUncachedRep, ctx)
      | some (.ok .new) =>
        (.accepted op session,
          if op.cacheThis then { ctx with cacheSlot := some (op.sessionid, op.slotid) } else ctx)

def dispatchOperation (env : Env) (i : ℕ) (operation : Operation) (ctx : CompoundContext) :
    OperationResult × CompoundContext :=
  match operation with
  | .sequence op =>
    match env.sequenceRefused i op with
    | some status => (.sequence status.1 none, ctx)
    | none =>
      match handleSequence env i op ctx with
      | (res, ctx) =>
        if res.status = .ok then
          (.sequence res.status (some ⟨res.sessionid, res.sequenceid, res.slotid,
              res.highestSlotid, res.targetHighestSlotid, env.seqFlags i res.sessionid⟩),
            { ctx with sessionId := some res.sessionid })
        else
          (.sequence res.status none, ctx)
  | .unsupported opcode =>
    (.unsupported opcode (if opcode < 3 ∨ opcodeClone < opcode then .opIllegal else .notSupp), ctx)
  | .badXdr opcode => (.unsupported opcode .badXdr, ctx)
  | .invalidName opcode => (.unsupported opcode .inval, ctx)
  | operation => (env.handle i operation, ctx)

/-! ### The rules on the list of operations -/

structure PositionScan where
  sequenceSeen : Bool
  firstMisplacedSeq : Option ℕ
  opNotInSession : Bool

def PositionScan.note (scan : PositionScan) (idx : ℕ) (op : Operation) : PositionScan :=
  if op.isSequence then
    { scan with
      firstMisplacedSeq :=
        if idx ≠ 0 ∨ scan.sequenceSeen then scan.firstMisplacedSeq.or (some idx)
        else scan.firstMisplacedSeq
      sequenceSeen := true }
  else if !scan.sequenceSeen then
    { scan with opNotInSession := true }
  else
    scan

def scanPositions (operations : List Operation) : PositionScan :=
  operations.zipIdx.foldl (fun scan p => scan.note p.2 p.1) ⟨false, none, false⟩

variable (request : CompoundRequest)

/-- The checks before the loop: a status for the whole compound, or the position of a second
SEQUENCE, which is not to be dispatched. -/
def validateCompound : Except Nfs4Status (Option ℕ) :=
  let hasSole := request.operations.any Operation.requiresSoleOp
  let hasNonSequenceCompanion :=
    request.operations.any fun o => !o.isSequence && !o.requiresSoleOp
  let hasDecodeError := request.operations.any Operation.isDecodeError
  if 2 < request.minorVersion then
    .error .minorVersMismatch
  else if !request.tagValid then
    .error .inval
  else if hasSole && (hasNonSequenceCompanion || decide (2 < request.operations.length)) then
    .error .notOnlyOp
  else if decide (1 ≤ request.minorVersion) && !hasSole && !hasDecodeError then
    let scan := scanPositions request.operations
    match scan.firstMisplacedSeq with
    | some idx => if scan.opNotInSession then .error .sequencePos else .ok (some idx)
    | none =>
      if scan.opNotInSession && !request.operations.isEmpty then .error .opNotInSession
      else .ok none
  else
    -- with an operation that did not decode the positions are not looked at
    .ok none

/-! ### The loop -/

structure Dispatched where
  operation : Operation
  result : OperationResult
deriving DecidableEq

structure Progress where
  context : CompoundContext
  results : List OperationResult
  dispatched : List Dispatched

def Progress.start : Progress := ⟨⟨none, none, none⟩, [], []⟩

def Progress.record (p : Progress) (operation : Operation) (result : OperationResult)
    (context : CompoundContext) : Progress :=
  ⟨context, p.results, p.dispatched ++ [⟨operation, result⟩]⟩

def Progress.push (p : Progress) (result : OperationResult) : Progress :=
  { p with results := p.results ++ [result] }

inductive Flow
  | next (p : Progress)
  | stop (finalStatus : Nfs4Status) (p : Progress)
  | answer (response : CompoundResponse) (p : Progress)

def TooManyOps (i : ℕ) (limits : SessionLimits) : Prop :=
  limits.foreChanMaxops < UInt32.ofNat request.operations.length ∧
    limits.foreChanMaxops.toNat < i + 1

instance (i : ℕ) (limits : SessionLimits) :
    Decidable (TooManyOps request i limits) := instDecidableAnd

def ReqTooBig (limits : SessionLimits) : Prop :=
  0 < request.wireSize ∧ limits.foreChanMaxrequestsize.toNat < request.wireSize

instance (limits : SessionLimits) : Decidable (ReqTooBig request limits) := instDecidableAnd

def concludeOperation (result : OperationResult) (p : Progress) : Flow :=
  match p.context.replayReply with
  | some bytes => .answer ⟨.ok, request.tag, [], some (.cached bytes), none⟩ p
  | none => if result.status ≠ .ok then .stop result.status (p.push result)
    else .next (p.push result)

def processOperation (env : Env) (request : CompoundRequest) (sequencePosAt : Option ℕ) (i : ℕ)
    (operation : Operation) (p : Progress) : Flow :=
  if sequencePosAt = some i then
    .stop .sequencePos (p.push (.sequence .sequencePos none))
  else
    match dispatchOperation env i operation p.context with
    | (result, context) =>
      let p := p.record operation result context
      match context.sessionId.bind (env.sessionLimits i) with
      | some limits =>
        if TooManyOps request i limits then
          -- the operation has run; its result is dropped
          .stop .tooManyOps (p.push (limitError .tooManyOps))
        else if ReqTooBig request limits then
          .answer ⟨.reqTooBig, request.tag, p.results ++ [result, limitError .reqTooBig], none,
            context.cacheSlot⟩ p
        else
          concludeOperation request result p
      | none => concludeOperation request result p

def processOperations (env : Env) (request : CompoundRequest) (sequencePosAt : Option ℕ) :
    ℕ → List Operation → Progress → Flow
  | _, [], p => .next p
  | i, operation :: operations, p =>
    match processOperation env request sequencePosAt i operation p with
    | .next p => processOperations env request sequencePosAt (i + 1) operations p
    | flow => flow

def leadingSequence (results : List OperationResult) : List OperationResult :=
  match results.head? with
  | some (.sequence status result) => [.sequence status result]
  | _ => []

/-- The reply when the loop is left. One that is too long is replaced, and only the result of
SEQUENCE is kept. -/
def finishCompound (env : Env) (request : CompoundRequest) (finalStatus : Nfs4Status)
    (p : Progress) : CompoundResponse :=
  match p.context.sessionId.bind env.finalLimits with
  | some limits =>
    if 0 < limits.foreChanMaxresponsesize.toNat then
      if limits.foreChanMaxresponsesize.toNat <
          env.encodedLength finalStatus request.tag p.results then
        ⟨.repTooBig, request.tag, [],
          some (.encoded .repTooBig request.tag
            (leadingSequence p.results ++ [limitError .repTooBig])), p.context.cacheSlot⟩
      else
        ⟨finalStatus, request.tag, [], some (.encoded finalStatus request.tag p.results),
          p.context.cacheSlot⟩
    else
      ⟨finalStatus, request.tag, p.results, none, p.context.cacheSlot⟩
  | none => ⟨finalStatus, request.tag, p.results, none, p.context.cacheSlot⟩

def dispatchCompound (env : Env) (request : CompoundRequest) : CompoundResponse × List Dispatched :=
  match validateCompound request with
  | .error status => (⟨status, request.tag, [], none, none⟩, [])
  | .ok sequencePosAt =>
    match processOperations env request sequencePosAt 0 request.operations .start with
    | .next p => (finishCompound env request .ok p, p.dispatched)
    | .stop finalStatus p => (finishCompound env request finalStatus p, p.dispatched)
    | .answer response p => (response, p.dispatched)

end Flint.Compound
