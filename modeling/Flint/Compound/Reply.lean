import Flint.Compound.Dispatch

/-!
# What the reply to a compound tells

The operations that were dispatched are the first ones of the list (`Ran`), and the results are
theirs, with at most one error behind them (`Whole`). When some operation did not decode, the
positions are not looked at. A reply that is too long is replaced by its SEQUENCE result and one
error. When the compound has more operations than the session allows, the limit is noticed after one
operation too many, whose result is replaced by the error.
-/

namespace Flint.Compound

open Operation OperationResult List

open Slots (Bytes SeqStatus)

def Operation.ofSession (op : Operation) : Bool := op.isSequence || op.requiresSoleOp

def Bound (log : List Dispatched) (sid : SessionId) : Prop :=
  ∃ d ∈ log, d.result.status = .ok ∧ ∃ op, d.operation = .sequence op ∧ op.sessionid = sid

/-- The first operations were dispatched, and all but the last were answered `Ok`. -/
structure Ran (request : CompoundRequest) (log : List Dispatched) : Prop where
  initial : log.map Dispatched.operation <+: request.operations
  answeredOk : ∀ d ∈ log.dropLast, d.result.status = .ok

inductive Ending (request : CompoundRequest) (log : List Dispatched) : List OperationResult → Prop
  | nothing : Ending request log []
  | notDispatched (e : OperationResult) (he : e.status ≠ .ok)
      (hlog : log.length < request.operations.length) : Ending request log [e]
  | reqTooBig : Ending request log [limitError .reqTooBig]

structure Whole (request : CompoundRequest) (log : List Dispatched) (status : Nfs4Status)
    (results : List OperationResult) : Prop where
  positions : ∃ ending, Ending request log ending ∧ results = log.map Dispatched.result ++ ending
  last : ∀ r, results.getLast? = some r → r.status = status

/-- The results that the client is told, or what is left of them in a reply that was too long. -/
inductive Told (env : Env) (request : CompoundRequest) (log : List Dispatched) :
    Nfs4Status → List OperationResult → Prop
  | whole {status : Nfs4Status} {results : List OperationResult}
      (h : Whole request log status results) : Told env request log status results
  | tooLong {status : Nfs4Status} {results : List OperationResult}
      (h : Whole request log status results) (sid : SessionId) (hsid : Bound log sid)
      (limits : SessionLimits) (hlim : env.finalLimits sid = some limits)
      (hmax : 0 < limits.foreChanMaxresponsesize.toNat)
      (hlong : limits.foreChanMaxresponsesize.toNat <
        env.encodedLength status request.tag results) :
      Told env request log .repTooBig (leadingSequence results ++ [limitError .repTooBig])

def FitsOps (env : Env) (request : CompoundRequest) : Prop :=
  ∀ op, .sequence op ∈ request.operations → ∀ i limits,
    env.sessionLimits i op.sessionid = some limits →
      UInt32.ofNat request.operations.length ≤ limits.foreChanMaxops

/-! ### The checks before the loop -/

theorem note_opNotInSession {scan : PositionScan} (h : scan.opNotInSession) (idx : ℕ)
    (op : Operation) : (scan.note idx op).opNotInSession := by
  unfold PositionScan.note
  split
  · exact h
  · split
    · rfl
    · exact h

theorem foldl_note_opNotInSession (l : List (Operation × ℕ)) {scan : PositionScan}
    (h : scan.opNotInSession) :
    (l.foldl (fun scan p => scan.note p.2 p.1) scan).opNotInSession := by
  induction l generalizing scan with
  | nil => exact h
  | cons p l ih => exact ih (note_opNotInSession h p.2 p.1)

theorem scanPositions_opNotInSession {op : Operation} (h : op.isSequence = false)
    (operations : List Operation) : (scanPositions (op :: operations)).opNotInSession := by
  unfold scanPositions
  rw [zipIdx_cons, foldl_cons]
  apply foldl_note_opNotInSession
  simp [PositionScan.note, h]

variable {request : CompoundRequest} {sequencePosAt : Option ℕ}

theorem validateCompound_ok (h : validateCompound request = .ok sequencePosAt)
    (hminor : 1 ≤ request.minorVersion) (hdec : request.operations.any isDecodeError = false) :
    (∀ op ∈ request.operations, op.ofSession) ∨
      ∃ op rest, request.operations = .sequence op :: rest := by
  unfold validateCompound at h
  dsimp only at h
  split at h
  · cases h
  split at h
  · cases h
  split at h
  · cases h
  next hsole =>
  by_cases hhas : request.operations.any requiresSoleOp
  · left
    -- the only companion of such an operation is SEQUENCE
    rw [hhas, Bool.true_and, Bool.or_eq_true, not_or, any_eq_true] at hsole
    intro op hop
    by_contra hnot
    apply hsole.1
    refine ⟨op, hop, ?_⟩
    rwa [ofSession, Bool.not_eq_true, Bool.or_eq_false_iff, ← Bool.not_eq_true',
      ← Bool.not_eq_true', ← Bool.and_eq_true] at hnot
  · rw [if_pos (by simp [hminor, hhas, hdec])] at h
    cases hops : request.operations with
    | nil =>
      left
      exact nofun
    | cons first rest =>
      right
      cases hfst : first.isSequence with
      | true =>
        cases first with
        | sequence op => exact ⟨op, rest, rfl⟩
        | _ => cases hfst
      | false =>
        have hscan := scanPositions_opNotInSession hfst rest
        rw [hops] at h
        split at h
        · rw [if_pos hscan] at h
          cases h
        · rw [if_pos (by rw [hscan]; rfl)] at h
          cases h

/-! ### One operation -/

theorem handleSequence_session (env : Env) (i : ℕ) (op : SequenceOp) (ctx : CompoundContext) :
    (handleSequence env i op ctx).1.sessionid = op.sessionid ∧
      (handleSequence env i op ctx).2.sessionId = ctx.sessionId := by
  unfold handleSequence
  split
  · exact ⟨rfl, rfl⟩
  · split
    · exact ⟨rfl, rfl⟩
    · split
      · exact ⟨rfl, rfl⟩
      · split
        all_goals try exact ⟨rfl, rfl⟩
        split
        all_goals exact ⟨rfl, rfl⟩

variable {sid : SessionId} {env : Env} {i : ℕ} {operation : Operation} {p : Progress}
  {result : OperationResult} {ctx : CompoundContext}

theorem dispatchOperation_session {ctx' : CompoundContext}
    (h : dispatchOperation env i operation ctx = (result, ctx'))
    (hsid : ctx'.sessionId = some sid) :
    ctx.sessionId = some sid ∨
      result.status = .ok ∧ ∃ op, operation = .sequence op ∧ op.sessionid = sid := by
  cases operation with
  | sequence op =>
    simp only [dispatchOperation] at h
    obtain ⟨hnm, hkp⟩ := handleSequence_session env i op ctx
    split at h
    · cases h
      exact .inl hsid
    · split at h
      · next hok =>
        cases h
        exact .inr ⟨hok, op, rfl, hnm.symm.trans (Option.some.inj hsid)⟩
      · cases h
        exact .inl (hkp.symm.trans hsid)
  | _ =>
    cases h
    exact .inl hsid

inductive Change (env : Env) (request : CompoundRequest) (sequencePosAt : Option ℕ) (i : ℕ)
    (operation : Operation) (p : Progress) : Flow → Prop
  | misplaced (h : sequencePosAt = some i) :
      Change env request sequencePosAt i operation p
        (.stop .sequencePos (p.push (.sequence .sequencePos none)))
  | tooManyOps {result : OperationResult} {ctx : CompoundContext}
      (hrun : dispatchOperation env i operation p.context = (result, ctx)) {sid : SessionId}
      {limits : SessionLimits} (hsid : ctx.sessionId = some sid)
      (hlim : env.sessionLimits i sid = some limits) (h : TooManyOps request i limits) :
      Change env request sequencePosAt i operation p
        (.stop .tooManyOps ((p.record operation result ctx).push (limitError .tooManyOps)))
  | reqTooBig {result : OperationResult} {ctx : CompoundContext}
      (hrun : dispatchOperation env i operation p.context = (result, ctx)) :
      Change env request sequencePosAt i operation p
        (.answer ⟨.reqTooBig, request.tag, p.results ++ [result, limitError .reqTooBig], none,
          ctx.cacheSlot⟩ (p.record operation result ctx))
  | replayed {result : OperationResult} {ctx : CompoundContext}
      (hrun : dispatchOperation env i operation p.context = (result, ctx)) (bytes : Bytes) :
      Change env request sequencePosAt i operation p
        (.answer ⟨.ok, request.tag, [], some (.cached bytes), none⟩ (p.record operation result ctx))
  | failed {result : OperationResult} {ctx : CompoundContext}
      (hrun : dispatchOperation env i operation p.context = (result, ctx))
      (h : result.status ≠ .ok) :
      Change env request sequencePosAt i operation p
        (.stop result.status ((p.record operation result ctx).push result))
  | succeeded {result : OperationResult} {ctx : CompoundContext}
      (hrun : dispatchOperation env i operation p.context = (result, ctx))
      (h : result.status = .ok) :
      Change env request sequencePosAt i operation p
        (.next ((p.record operation result ctx).push result))

theorem concludeOperation_change
    (hrun : dispatchOperation env i operation p.context = (result, ctx)) :
    Change env request sequencePosAt i operation p
      (concludeOperation request result (p.record operation result ctx)) := by
  unfold concludeOperation
  split
  · next bytes _ => exact .replayed hrun bytes
  · split
    · next h => exact .failed hrun h
    · next h => exact .succeeded hrun (not_not.mp h)

theorem processOperation_change (env : Env) (request : CompoundRequest) (sequencePosAt : Option ℕ)
    (i : ℕ) (operation : Operation) (p : Progress) :
    Change env request sequencePosAt i operation p
      (processOperation env request sequencePosAt i operation p) := by
  unfold processOperation
  split
  · next h => exact .misplaced h
  · cases hrun : dispatchOperation env i operation p.context with
    | mk result ctx =>
      dsimp only
      split
      · next limits hlim =>
        obtain ⟨sid, hsid, hlim⟩ := Option.bind_eq_some_iff.mp hlim
        split
        · next h => exact .tooManyOps hrun hsid hlim h
        · split
          · exact .reqTooBig hrun
          · exact concludeOperation_change hrun
      · exact concludeOperation_change hrun

/-! ### The loop -/

/-- Before the operation at position `i`: those in front of it were answered `Ok`. -/
structure Underway (request : CompoundRequest) (i : ℕ) (p : Progress) : Prop where
  operations : p.dispatched.map Dispatched.operation = request.operations.take i
  length : p.dispatched.length = i
  results : p.results = p.dispatched.map Dispatched.result
  ok : ∀ d ∈ p.dispatched, d.result.status = .ok
  bound : ∀ sid, p.context.sessionId = some sid → Bound p.dispatched sid

theorem underway_start (request : CompoundRequest) : Underway request 0 .start where
  operations := take_zero.symm
  length := rfl
  results := rfl
  ok _ hd := absurd hd not_mem_nil
  bound sid hsid := by cases (show (none : Option SessionId) = some sid from hsid)

theorem Underway.ran (h : Underway request i p) : Ran request p.dispatched where
  initial := h.operations ▸ take_prefix i request.operations
  answeredOk d hd := h.ok d (mem_of_mem_dropLast hd)

variable {log : List Dispatched}

theorem Bound.mono {log' : List Dispatched} (h : Bound log sid) (hsub : ∀ d ∈ log, d ∈ log') :
    Bound log' sid := by
  obtain ⟨d, hd, hok⟩ := h
  exact ⟨d, hsub d hd, hok⟩

section Recorded

variable {rest : List Operation} (h : Underway request i p)

include h

theorem Underway.operations_record (hrs : request.operations.drop i = operation :: rest) :
    (p.dispatched ++ [Dispatched.mk operation result]).map Dispatched.operation =
      request.operations.take (i + 1) := by
  have hop : request.operations[i]? = some operation := by
    rw [← head?_drop, hrs, head?_cons]
  rw [take_add_one, hop, ← h.operations]
  exact map_append

theorem Underway.ran_record (hrs : request.operations.drop i = operation :: rest) :
    Ran request (p.dispatched ++ [⟨operation, result⟩]) where
  initial := h.operations_record hrs ▸ take_prefix _ _
  answeredOk d hd := by
    rw [dropLast_concat] at hd
    exact h.ok d hd

theorem Underway.bound_record (hrun : dispatchOperation env i operation p.context = (result, ctx))
    (sid : SessionId) (hsid : ctx.sessionId = some sid)
    : Bound (p.dispatched ++ [⟨operation, result⟩]) sid := by
  rcases dispatchOperation_session hrun hsid with hbef | ⟨hok, hop⟩
  · exact (h.bound sid hbef).mono fun d hd => mem_append_left _ hd
  · exact ⟨⟨operation, result⟩, mem_append_right _ (mem_singleton_self _), hok, hop⟩

theorem Underway.results_record :
    p.results ++ [result] =
      (p.dispatched ++ [Dispatched.mk operation result]).map Dispatched.result := by
  rw [h.results, map_append]
  rfl

theorem Underway.whole_record :
    Whole request (p.dispatched ++ [⟨operation, result⟩]) result.status
      (p.results ++ [result]) where
  positions := ⟨[], .nothing, by rw [append_nil]; exact h.results_record⟩
  last r hr := by
    rw [getLast?_concat] at hr
    rw [Option.some.inj hr]

theorem Underway.next (hrs : request.operations.drop i = operation :: rest)
    (hrun : dispatchOperation env i operation p.context = (result, ctx))
    (hok : result.status = .ok) :
    Underway request (i + 1) ((p.record operation result ctx).push result) where
  operations := h.operations_record hrs
  length := by
    change (p.dispatched ++ [_]).length = i + 1
    rw [length_append, h.length]
    rfl
  results := h.results_record
  ok d hd := by
    rcases mem_append.mp hd with hd | hd
    · exact h.ok d hd
    · rw [mem_singleton.mp hd]
      exact hok
  bound := h.bound_record hrun

end Recorded

theorem FitsOps.not_tooManyOps (h : FitsOps env request) (hran : Ran request log)
    (hsid : Bound log sid) {limits : SessionLimits} (hlim : env.sessionLimits i sid = some limits)
    : ¬TooManyOps request i limits := by
  rintro ⟨hmany, -⟩
  obtain ⟨d, hd, -, op, hop, rfl⟩ := hsid
  have hmem : .sequence op ∈ request.operations :=
    hran.initial.subset (hop ▸ mem_map_of_mem hd)
  exact absurd hmany (UInt32.not_lt.mpr (h op hmem i limits hlim))

structure Left (env : Env) (request : CompoundRequest) (status : Nfs4Status) (p : Progress) :
    Prop where
  ran : Ran request p.dispatched
  bound : ∀ sid, p.context.sessionId = some sid → Bound p.dispatched sid
  whole : FitsOps env request → Whole request p.dispatched status p.results

structure Answered (request : CompoundRequest) (response : CompoundResponse) (log : List Dispatched)
    : Prop where
  ran : Ran request log
  whole : ∀ status sent, response.reply = .told status sent →
    ∃ results, sent = results.map encode ∧ Whole request log status results

def Ended (env : Env) (request : CompoundRequest) : Flow → Prop
  | .next p => Left env request .ok p
  | .stop status p => Left env request status p
  | .answer response p => Answered request response p.dispatched

theorem Underway.left (h : Underway request i p) : Left env request .ok p where
  ran := h.ran
  bound := h.bound
  whole _ := {
    positions := ⟨[], .nothing, by rw [append_nil, h.results]⟩
    last := by
      intro r hr
      rw [h.results] at hr
      obtain ⟨d, hd, rfl⟩ := mem_map.mp (mem_of_getLast? hr)
      exact h.ok d hd }

theorem processOperations_ended (env : Env) (request : CompoundRequest) (sequencePosAt : Option ℕ) :
    ∀ (operations : List Operation) (i : ℕ) (p : Progress), Underway request i p →
      request.operations.drop i = operations →
      Ended env request (processOperations env request sequencePosAt i operations p) := by
  intro operations
  induction operations with
  | nil => exact fun i p h _ => h.left
  | cons operation rest ih =>
    intro i p h hrs
    have hch := processOperation_change env request sequencePosAt i operation p
    unfold processOperations
    generalize processOperation env request sequencePosAt i operation p = flow at hch
    cases hch with
    | misplaced hpos =>
      -- the SEQUENCE at this position is answered and not dispatched
      have hlt : i < request.operations.length := by
        by_contra hge
        rw [drop_eq_nil_of_le (Nat.not_lt.mp hge)] at hrs
        cases hrs
      refine ⟨h.ran, h.bound, fun _ => ⟨⟨[.sequence .sequencePos none], ?_, ?_⟩, ?_⟩⟩
      · apply Ending.notDispatched
        · decide
        · exact h.length.trans_lt hlt
      · change p.results ++ _ = p.dispatched.map Dispatched.result ++ _
        rw [h.results]
      · intro r hr
        rw [Progress.push, getLast?_concat] at hr
        rw [← Option.some.inj hr]
        rfl
    | tooManyOps hrun hsid hlim hmany =>
      refine ⟨h.ran_record hrs, h.bound_record hrun, fun hfits => ?_⟩
      have hbd := h.bound_record hrun _ hsid
      exact absurd hmany (hfits.not_tooManyOps (h.ran_record hrs) hbd hlim)
    | @reqTooBig result ctx hrun =>
      refine ⟨h.ran_record hrs, ?_⟩
      intro status sent htold
      cases htold
      refine ⟨_, rfl, ⟨_, .reqTooBig, ?_⟩, ?_⟩
      · have hresults : p.results ++ [result] =
            (p.dispatched ++ [Dispatched.mk operation result]).map Dispatched.result :=
          h.results_record
        change p.results ++ ([result] ++ [limitError .reqTooBig]) = _
        rw [← append_assoc, hresults]
        rfl
      · intro r hr
        rw [getLast?_append, getLast?_cons_cons, getLast?_singleton, Option.some_or] at hr
        rw [← Option.some.inj hr]
        rfl
    | replayed hrun bytes =>
      refine ⟨h.ran_record hrs, ?_⟩
      intro status sent htold
      cases htold
    | failed hrun hfail => exact ⟨h.ran_record hrs, h.bound_record hrun, fun _ => h.whole_record⟩
    | succeeded hrun hok =>
      apply ih (i + 1) _ (h.next hrs hrun hok)
      rw [← drop_drop, hrs, drop_one, tail_cons]

/-! ### The whole compound -/

theorem Ran.nil (request : CompoundRequest) : Ran request [] where
  initial := nil_prefix
  answeredOk _ hd := absurd hd not_mem_nil

theorem Left.told {status : Nfs4Status} (h : Left env request status p)
    (hfits : FitsOps env request) {status' : Nfs4Status} {sent : List OperationResult}
    (hrpl : (finishCompound env request status p).reply = .told status' sent) :
    ∃ results, sent = results.map encode ∧ Told env request p.dispatched status' results := by
  have hwh := h.whole hfits
  unfold finishCompound at hrpl
  split at hrpl
  · next limits hlim =>
    obtain ⟨sid, hsid, hlim⟩ := Option.bind_eq_some_iff.mp hlim
    split at hrpl
    · next hmax =>
      split at hrpl
      · next hlong =>
        cases hrpl
        exact ⟨_, rfl, .tooLong hwh sid (h.bound sid hsid) limits hlim hmax hlong⟩
      · cases hrpl
        exact ⟨_, rfl, .whole hwh⟩
    · cases hrpl
      exact ⟨_, rfl, .whole hwh⟩
  · cases hrpl
    exact ⟨_, rfl, .whole hwh⟩

structure TellsWhatRan (env : Env) (request : CompoundRequest) (response : CompoundResponse)
    (log : List Dispatched) : Prop where
  inSession : 1 ≤ request.minorVersion → request.operations.any isDecodeError = false →
    ∀ i d, log[i]? = some d → d.operation.ofSession = false →
      0 < i ∧ ∃ d₀, log[0]? = some d₀ ∧ d₀.operation.isSequence ∧ d₀.result.status = .ok
  ran : Ran request log
  /-- What is sent are the encodings, so that an error for a limit, which has no opcode, is read as
  OP_ILLEGAL under the status of the compound. -/
  told : FitsOps env request → ∀ status sent, response.reply = .told status sent →
    ∃ results, sent = results.map encode ∧ Told env request log status results

theorem Ran.after_sequence (h : Ran request log) {op : SequenceOp} {rest : List Operation}
    (hops : request.operations = .sequence op :: rest) {d : Dispatched} (hd : log[i]? = some d)
    (hnot : d.operation.ofSession = false) :
    0 < i ∧ ∃ d₀, log[0]? = some d₀ ∧ d₀.operation.isSequence ∧ d₀.result.status = .ok := by
  cases log with
  | nil => cases hd
  | cons d₀ log =>
    -- the first operation dispatched is the SEQUENCE
    have hfst : d₀.operation = .sequence op := by
      obtain ⟨tail, htl⟩ := h.initial
      rw [hops] at htl
      exact (cons.inj htl).1
    cases i with
    | zero =>
      cases hd
      rw [hfst] at hnot
      cases hnot
    | succ i =>
      refine ⟨Nat.succ_pos i, d₀, rfl, by rw [hfst]; rfl, h.answeredOk d₀ ?_⟩
      -- some operation was dispatched after it, so it is not the last
      cases log with
      | nil => cases hd
      | cons d₁ log => exact .head _

theorem Ran.inSession (h : Ran request log) (hval : validateCompound request = .ok sequencePosAt)
    (hminor : 1 ≤ request.minorVersion) (hdec : request.operations.any isDecodeError = false)
    {d : Dispatched} (hd : log[i]? = some d) (hnot : d.operation.ofSession = false) :
    0 < i ∧ ∃ d₀, log[0]? = some d₀ ∧ d₀.operation.isSequence ∧ d₀.result.status = .ok := by
  rcases validateCompound_ok hval hminor hdec with hall | ⟨op, rest, hops⟩
  · have hmem := h.initial.subset (mem_map_of_mem (mem_of_getElem? hd))
    rw [hall _ hmem] at hnot
    cases hnot
  · exact h.after_sequence hops hd hnot

/-- The reply to a compound tells what ran, from minor version 1 on, with operations that all
decoded. Only operations on sessions run outside of a sequence, and what was dispatched, all but the
last answered `Ok`, is what the reply has, unless it is a resend or would be too long. -/
theorem reply_tells_what_ran (env : Env) (request : CompoundRequest) :
    TellsWhatRan env request (dispatchCompound env request).1 (dispatchCompound env request).2 := by
  unfold dispatchCompound
  split
  · refine ⟨fun _ _ i d hd => (by cases hd), .nil request, ?_⟩
    intro _ status sent hrpl
    cases hrpl
    refine ⟨[], rfl, .whole ⟨⟨[], .nothing, rfl⟩, ?_⟩⟩
    intro r hr
    cases (show none = some r from hr)
  · next sequencePosAt hval =>
    have hend := processOperations_ended env request sequencePosAt request.operations 0 .start
      (underway_start request) (drop_zero ..)
    cases hflow : processOperations env request sequencePosAt 0 request.operations .start <;>
      rw [hflow] at hend
    case next | stop =>
      exact ⟨fun hminor hdec i d => hend.ran.inSession hval hminor hdec, hend.ran,
        fun hfits status sent => hend.told hfits⟩
    case answer =>
      exact ⟨fun hminor hdec i d => hend.ran.inSession hval hminor hdec, hend.ran,
        fun _ status sent hrpl => by
          obtain ⟨results, hsent, hwh⟩ := hend.whole status sent hrpl
          exact ⟨results, hsent, .whole hwh⟩⟩

def lenientEnv (limits : SessionLimits) : Env where
  sequenceRefused _ _ := none
  getSession _ _ := some ⟨4, 4096⟩
  processSequence _ _ := some (.ok .new)
  seqFlags _ _ := 0
  handle _ operation :=
    match operation with
    | .other opcode => .other opcode .ok []
    | _ => .unsupported 0 .ok
  sessionLimits _ _ := some limits
  finalLimits _ := some limits
  encodedLength _ _ results := 100 * results.length

def removeAtRoot : List Operation := [.sequence ⟨[1], 1, 0, false⟩, .other 24, .other 28]

/-- PUTROOTFH and REMOVE run without a session when the operation behind them does not decode. And a
REMOVE that took effect is left out of a reply that would be too long, whose error is read as
OP_ILLEGAL. -/
theorem removal_not_told :
    ((dispatchCompound (lenientEnv ⟨4096, 4096, 16⟩)
        ⟨"", true, 1, [.other 24, .other 28, .badXdr 9], 0⟩).2 =
      [⟨.other 24, .other 24 .ok []⟩, ⟨.other 28, .other 28 .ok []⟩,
        ⟨.badXdr 9, .unsupported 9 .badXdr⟩]) ∧
    (dispatchCompound (lenientEnv ⟨4096, 200, 16⟩) ⟨"", true, 1, removeAtRoot, 0⟩).1.reply =
      .told .repTooBig [.sequence .ok (some ⟨[1], 1, 0, 3, 3, 0⟩),
        .unsupported opcodeIllegal .opIllegal] ∧
    (dispatchCompound (lenientEnv ⟨4096, 200, 16⟩) ⟨"", true, 1, removeAtRoot, 0⟩).2 =
      [⟨.sequence ⟨[1], 1, 0, false⟩, .sequence .ok (some ⟨[1], 1, 0, 3, 3, 0⟩)⟩,
        ⟨.other 24, .other 24 .ok []⟩, ⟨.other 28, .other 28 .ok []⟩] := by
  decide

end Flint.Compound
