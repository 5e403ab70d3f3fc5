import Flint.Clients.Handler
import Flint.Clients.Identity

/-!
# A foreign principal and the state of a client

EXCHANGE_ID refuses a caller that names the owner of a confirmed client of another principal with
state under a valid lease. It looks at the record in the owner index; an unconfirmed successor there
is replaced without a look at principals, and its debt passes on
(`foreign_successor_destroys_client`). `Request.Faithful` excludes this.
-/

namespace Flint.Clients

open ClientManager Outcome List Option Prod Dict

/-! ### Requests -/

inductive StateKind
  | stateid | delegation | lock

inductive Request
  | exchangeId (env : Env) (op : ExchangeIdOp) (ctx : CompoundContext)
  | createSession (env : Env) (op : CreateSessionOp) (ctx : CompoundContext)
  | renew (env : Env) (clientId : UInt64)
  | gain (kind : StateKind) (clientId : UInt64)
  | lose (kind : StateKind) (clientId : UInt64)

def Server.onTable (s : Server) (kind : StateKind) (f : List UInt64 → List UInt64) : Server :=
  match kind with
  | .stateid => { s with stateids := f s.stateids }
  | .delegation => { s with delegations := f s.delegations }
  | .lock => { s with locks := f s.locks }

def Server.step (cfg : Config) (s : Server) : Request → Server
  | .exchangeId env op ctx => ((s.handleExchangeId cfg env op ctx).map fst).getD s
  | .createSession env op ctx => ((s.handleCreateSession cfg env op ctx).map fst).getD s
  | .renew env clientId =>
    match s.clients.renewLease env clientId with
    | .ok clients => { s with clients }
    | .error _ => s
  | .gain kind clientId => s.onTable kind fun rows => clientId :: rows
  | .lose kind clientId => s.onTable kind fun rows => rows.erase clientId

def serverAfter (cfg : Config) (requests : List Request) : Server :=
  run (Server.step cfg) .new requests

def Request.caller : Request → Option (Env × Bytes)
  | .exchangeId env _ ctx | .createSession env _ ctx => some (env, ctx.principal)
  | _ => none

/-- An EXCHANGE_ID that replaces an unconfirmed record which owes a removal is of that record's
principal. -/
def Request.Faithful (cfg : Config) (s : Server) : Request → Prop
  | .exchangeId env op ctx =>
    ∀ s' res, s.handleExchangeId cfg env op ctx = some (s', res) → res.status = .ok →
      ∀ c, s.clients.current op.clientOwner = some c → c.confirmed = false →
        c.pendingReplaces ≠ none → c.principal = ctx.principal
  | _ => True

/-! ### What a handler leaves of a record -/

def Client.identity (c : Client) : Client :=
  { c with lastCsSequence := none, csCachedRes := none, machCred := false }

@[grind →] theorem Client.identity_eq {c c' : Client} (h : c'.identity = c.identity) :
    c'.clientId = c.clientId ∧ c'.owner = c.owner ∧ c'.principal = c.principal ∧
      c'.confirmed = c.confirmed ∧ c'.pendingReplaces = c.pendingReplaces := by
  cases c
  cases c'
  cases h
  exact ⟨rfl, rfl, rfl, rfl, rfl⟩

structure Touched (m m' : ClientManager) (id : UInt64) : Prop where
  index : m'.ownerToId = m.ownerToId
  leases : m'.leases = m.leases
  others : ∀ k, k ≠ id → m'.clients.get? k = m.clients.get? k
  self : (m'.clients.get? id).map Client.identity = (m.clients.get? id).map Client.identity

theorem Touched.refl (m : ClientManager) (id : UInt64) : Touched m m id :=
  ⟨rfl, rfl, fun _ _ => rfl, rfl⟩

variable {m m' : ClientManager} {id : UInt64}

theorem Touched.back (h : Touched m m' id) {k : UInt64} {c' : Client}
    (hc' : m'.clients.get? k = some c') :
    ∃ c, m.clients.get? k = some c ∧ c'.identity = c.identity := by
  by_cases hk : k = id
  · subst hk
    have hsf := h.self
    rw [hc', map_some] at hsf
    obtain ⟨c, hc, hid⟩ := map_eq_some_iff.mp hsf.symm
    exact ⟨c, hc, hid.symm⟩
  · rw [h.others k hk] at hc'
    exact ⟨c', hc', rfl⟩

variable {c : Client}

theorem Touched.forth (h : Touched m m' id) {k : UInt64} (hc : m.clients.get? k = some c) :
    ∃ c', m'.clients.get? k = some c' ∧ c'.identity = c.identity := by
  have hsymm : Touched m' m id :=
    ⟨h.index.symm, h.leases.symm, fun k hk => (h.others k hk).symm, h.self.symm⟩
  obtain ⟨c', hc', hid⟩ := hsymm.back hc
  exact ⟨c', hc', hid.symm⟩

theorem setMachCred_touched (m : ClientManager) (id : UInt64) (on : Bool) :
    Touched m (m.setMachCred id on) id := by
  unfold setMachCred
  split
  · next c hc =>
    split
    · exact .refl m id
    · refine ⟨rfl, rfl, fun k hk => get?_insert_of_ne m.clients _ hk, ?_⟩
      change ((m.clients.insert id _).get? id).map _ = _
      rw [get?_insert_self, hc]
      rfl
  · exact .refl m id

theorem recordCreateSessionReply_self (hc : m.clients.get? id = some c) (sequence : UInt32)
    (cached : CachedCreateSessionRes) :
    (m.recordCreateSessionReply id sequence cached).clients.get? id =
      some { c with lastCsSequence := some sequence, csCachedRes := some cached } := by
  rw [recordCreateSessionReply, hc]
  exact get?_insert_self m.clients id _

theorem recordCreateSessionReply_touched (m : ClientManager) (id : UInt64) (sequence : UInt32)
    (cached : CachedCreateSessionRes) :
    Touched m (m.recordCreateSessionReply id sequence cached) id := by
  cases hc : m.clients.get? id with
  | none =>
    rw [recordCreateSessionReply, hc]
    exact .refl m id
  | some c =>
    have hsf := recordCreateSessionReply_self hc sequence cached
    rw [recordCreateSessionReply, hc] at hsf ⊢
    refine ⟨rfl, rfl, fun k hk => get?_insert_of_ne m.clients _ hk, ?_⟩
    rw [hsf, hc]
    rfl

/-! ### Debts -/

attribute [local grind =] removeClient_clients

/-- A record that owes a removal is unconfirmed, and owes it of a confirmed record of its own owner
and principal. -/
def Debts (m : ClientManager) : Prop :=
  ∀ id c prev, m.clients.get? id = some c → c.pendingReplaces = some prev →
    c.confirmed = false ∧ ∃ a, m.clients.get? prev = some a ∧ a.confirmed ∧
      a.owner = c.owner ∧ a.principal = c.principal

theorem Debts.touched (h : Debts m) (ht : Touched m m' id) : Debts m' := by
  have hforth : ∀ k c, m.clients.get? k = some c → _ := fun _ _ => ht.forth
  unfold Debts at *
  intro k c' prev hc' hpn
  obtain ⟨c, hc, hid⟩ := ht.back hc'
  grind

theorem Registered.touched (h : Registered m) (ht : Touched m m' id) : Registered m' := by
  have hback : ∀ k c', m'.clients.get? k = some c' → _ := fun _ _ => ht.back
  have hforth : ∀ k c, m.clients.get? k = some c → _ := fun _ _ => ht.forth
  have hind := ht.index
  obtain ⟨⟨keyed, owned⟩, placed⟩ := h
  unfold Placed at placed
  refine ⟨⟨?_, ?_⟩, ?_⟩
  · grind
  · grind
  · unfold Placed
    grind

theorem Debts.enroll (h : Debts m) (he : Enrolled m m' c)
    (hc : ∀ prev, c.pendingReplaces = some prev → c.confirmed = false ∧
      ∃ a, m.clients.get? prev = some a ∧ a.confirmed ∧ a.owner = c.owner ∧
        a.principal = c.principal) : Debts m' := by
  cases he
  unfold Debts at *
  grind

theorem Debts.remove (h : Debts m)
    (hfr : ∀ k c, m.clients.get? k = some c → c.pendingReplaces = some id → k = id) :
    Debts (m.removeClient id) := by
  unfold Debts at *
  grind

structure Accounted (m : ClientManager) : Prop extends Registered m where
  debts : Debts m

theorem Accounted.new : Accounted .new where
  toRegistered := .new
  debts id c prev hc := by cases hc

theorem Accounted.touched (h : Accounted m) (ht : Touched m m' id) : Accounted m' :=
  ⟨h.toRegistered.touched ht, h.debts.touched ht⟩

theorem Registered.index_of_unconfirmed (h : Registered m) (hc : m.clients.get? id = some c)
    (hunc : c.confirmed = false) : m.ownerToId.get? c.owner = some id := by
  have := h.placed c.owner id c hc rfl
  grind

variable {env : Env} {owner principal : Bytes} {verifier : UInt64} {flags : UInt32}
  {outcome : ExchangeIdOutcome}

variable (h : Accounted m)

include h

theorem Accounted.exchanged (hex : Exchanged m env owner verifier flags principal outcome m')
    (hfai : ∀ c, m.current owner = some c → c.confirmed = false →
      outcome = .newUnconfirmed env.draw 1 → c.pendingReplaces ≠ none → c.principal = principal) :
    Accounted m' := by
  refine ⟨h.toRegistered.exchanged hex, ?_⟩
  have hdbt := h.debts
  cases hex with
  | refused | renewed | collided => exact hdbt
  | first hc henr => exact hdbt.enroll henr nofun
  | replaced c hc hcf henr =>
    obtain ⟨hind, hget, rfl⟩ := h.toSound.current_eq_some hc
    have hsm := hfai c hc hcf rfl
    -- a removal is owed of confirmed records only, so not of the one that is dropped
    unfold Debts at hdbt
    refine (h.debts.remove ?_).enroll henr fun prev hprev => ⟨rfl, ?_⟩
    · grind
    · have hprev' : c.pendingReplaces = some prev := hprev
      change ∃ a : Client, _ ∧ _ ∧ a.owner = c.owner ∧ a.principal = principal
      grind
  | succeeded c hc hcf hprin hver henr =>
    obtain ⟨hind, hget, rfl⟩ := h.toSound.current_eq_some hc
    refine hdbt.enroll henr fun prev hprev => ?_
    cases hprev
    exact ⟨rfl, c, hget, hcf, rfl, hprin⟩

theorem Accounted.takeover (hc : m.current owner = some c) (hcf : c.confirmed)
    (hal : (m.removeClient c.clientId).allocateAfterCollision env owner verifier flags
      principal = some (outcome, m')) : Accounted m' := by
  refine ⟨h.toRegistered.collision hc hcf hal, ?_⟩
  obtain ⟨-, henr⟩ := allocateClient_some hal
  obtain ⟨hind, hget, rfl⟩ := h.toSound.current_eq_some hc
  refine (h.debts.remove fun k d hd hpn => ?_).enroll henr nofun
  -- who owes the removal of the incumbent has its owner, and the incumbent is alone there
  obtain ⟨-, a, ha, -, howne, -⟩ := h.debts k d c.clientId hd hpn
  obtain rfl : a = c := mem_unique ha hget
  exact (h.placed a.owner).only_confirmed hind hget hcf hd howne.symm

/-! ### Confirming -/

theorem Accounted.markConfirmed_debt (id : UInt64) {old : UInt64}
    (hold : (m.markConfirmed id).1 = some old) :
    ∃ c a, m.clients.get? id = some c ∧ c.confirmed = false ∧ m.clients.get? old = some a ∧
      a.confirmed ∧ a.owner = c.owner ∧ a.principal = c.principal ∧ old ≠ id := by
  have hdbt := h.debts id
  have := markConfirmed_cases m id
  grind

theorem Accounted.markConfirmed_debts (id : UInt64) : Debts (m.markConfirmed id).2 := by
  have hdbt := h.debts
  unfold Debts at *
  rcases markConfirmed_cases m id with hno | ⟨c, hc, hunc, -, hcls, -, -⟩
  · rwa [hno]
  · grind

theorem Accounted.confirm (id : UInt64) :
    Accounted (match m.markConfirmed id with
      | (some old, m') => m'.removeClient old
      | (none, m') => m') := by
  have hdbt := h.markConfirmed_debts id
  have hdebt : ∀ old, (m.markConfirmed id).1 = some old → _ := fun _ => h.markConfirmed_debt id
  have hcas := markConfirmed_cases m id
  have halone : ∀ old, (m.markConfirmed id).1 = some old → Alone (m.markConfirmed id).2 old := by
    unfold Alone
    grind
  refine ⟨h.toRegistered.confirm id halone, ?_⟩
  have hfr : ∀ old, (m.markConfirmed id).1 = some old → ∀ k d,
      (m.markConfirmed id).2.clients.get? k = some d → d.pendingReplaces = some old → k = old := by
    intro old hold k d hd hpn
    obtain ⟨c, a, hc, hunc, ha, -, howne, -, -⟩ := h.markConfirmed_debt id hold
    -- both records are unconfirmed and have one owner, so both are in the index
    have hid := h.toRegistered.index_of_unconfirmed hc hunc
    have hk : m.clients.get? k = some d → d.confirmed = false → _ :=
      h.toRegistered.index_of_unconfirmed
    have hk' := h.debts k d old
    grind
  generalize m.markConfirmed id = result at *
  obtain ⟨pending, m₁⟩ := result
  cases pending with
  | none => exact hdbt
  | some old => exact hdbt.remove (hfr old rfl)

omit h

/-! ### What the handlers do -/

inductive ExchangeChange (s : Server) (env : Env) (op : ExchangeIdOp) (ctx : CompoundContext) :
    Nfs4Status → Server → Prop
  | idle (status : Nfs4Status) : ExchangeChange s env op ctx status s
  /-- The records change as `Exchanged` says; the record answered with may change its protection. -/
  | records {outcome : ExchangeIdOutcome} {status : Nfs4Status} {m m' : ClientManager} {id : UInt64}
      (hex : Exchanged s.clients env op.clientOwner op.verifier op.flags ctx.principal outcome m)
      (hstat : outcome = .newUnconfirmed env.draw 1 → status = .ok)
      (htch : Touched m m' id)
      (hid : (outcome = .newUnconfirmed env.draw 1 ∧ id = env.draw) ∨
        ∃ c, s.clients.current op.clientOwner = some c ∧ id = c.clientId ∧
          c.principal = ctx.principal) :
      ExchangeChange s env op ctx status { s with clients := m' }
  /-- A client of another principal without live state is torn down, and a new record made. -/
  | takeover {outcome : ExchangeIdOutcome} {status : Nfs4Status} {m m' : ClientManager}
      {id : UInt64} (c : Client) (hc : s.clients.current op.clientOwner = some c)
      (hcf : c.confirmed) (hdd : s.clientHasLiveState env c.clientId = false)
      (hal : (s.clients.removeClient c.clientId).allocateAfterCollision env op.clientOwner
        op.verifier op.flags ctx.principal = some (outcome, m))
      (htch : Touched m m' id) (hid : id = env.draw) :
      ExchangeChange s env op ctx status { s.cascadeDestroyClient c.clientId with clients := m' }

variable {s : Server} {op : ExchangeIdOp} {ctx : CompoundContext}

theorem ExchangeChange.of_finish (cfg : Config) (machCred : Bool)
    (hex : Exchanged s.clients env op.clientOwner op.verifier op.flags ctx.principal outcome m)
    (hcollision : ∀ incumbent, outcome ≠ .clientCollision incumbent) :
    ExchangeChange s env op ctx
      (({ s with clients := m } : Server).finishExchangeId cfg machCred outcome).2.status
      (({ s with clients := m } : Server).finishExchangeId cfg machCred outcome).1 := by
  have hnew : ∀ {m}, Exchanged s.clients env op.clientOwner op.verifier op.flags ctx.principal
      (.newUnconfirmed env.draw 1) m → ExchangeChange s env op ctx .ok
        { s with clients := m.setMachCred env.draw machCred } := by
    intro m hex
    exact .records hex (fun _ => rfl) (setMachCred_touched m env.draw machCred) (.inl ⟨rfl, rfl⟩)
  cases hex with
  | refused outcome houtc =>
    rcases houtc with rfl | rfl | rfl <;> exact .idle _
  | renewed c hc hcf hver hprin =>
    exact .records (.renewed c hc hcf hver hprin) nofun
      (setMachCred_touched _ c.clientId machCred) (.inr ⟨c, hc, rfl, hprin⟩)
  | collided c => exact absurd rfl (hcollision c.clientId)
  | first hc henr => exact hnew (.first hc henr)
  | replaced c hc hcf henr => exact hnew (.replaced c hc hcf henr)
  | succeeded c hc hcf hprin hver henr => exact hnew (.succeeded c hc hcf hprin hver henr)

variable {cfg : Config} {s' : Server}

theorem exchangeIdRecords_cases {res : ExchangeIdRes}
    (h : s.exchangeIdRecords cfg env op ctx = some (s', res)) :
    ExchangeChange s env op ctx res.status s' := by
  unfold Server.exchangeIdRecords at h
  dsimp only at h
  split at h
  · cases h
  · next incumbent clients hex =>
    have hcas := exchangeId_cases hex
    generalize houtc : ExchangeIdOutcome.clientCollision incumbent = outcome at hcas
    cases hcas with
    | collided c hc hcf hprin =>
      cases houtc
      split at h
      · cases h
        exact .idle _
      · next hfr =>
        split at h
        · cases h
        · next outcome' clients' hal =>
          obtain ⟨rfl, -⟩ := allocateClient_some hal
          cases h
          have hdd : s.clientHasLiveState env c.clientId = false := by
            have hboth := Bool.eq_false_iff.mpr hfr
            exact (Bool.or_eq_false_iff.mp hboth).2
          exact .takeover c hc hcf hdd hal (setMachCred_touched _ env.draw _) rfl
    | refused _ href =>
      subst houtc
      rcases href with hout | hout | hout <;> cases hout
    | renewed | first | replaced | succeeded => cases houtc
  · next outcome clients hnot hex =>
    have hfinish := ExchangeChange.of_finish cfg (op.stateProtect = 1) (exchangeId_cases hex) (by
      rintro incumbent rfl
      exact hnot incumbent rfl)
    rw [some.inj h] at hfinish
    exact hfinish

theorem handleExchangeId_cases {res : ExchangeIdRes}
    (h : s.handleExchangeId cfg env op ctx = some (s', res)) :
    ExchangeChange s env op ctx res.status s' := by
  unfold Server.handleExchangeId at h
  split_ifs at h
  all_goals first
    | exact exchangeIdRecords_cases h
    | (cases h; exact .idle _)

inductive SessionChange (s : Server) (op : CreateSessionOp) (ctx : CompoundContext) :
    Server → Prop
  | idle : SessionChange s op ctx s
  /-- The client is confirmed by its own principal, or was before; what it owed is destroyed. -/
  | confirmed {s' : Server} (c : Client) (hc : s.clients.clients.get? op.clientid = some c)
      (hprin : c.confirmed ∨ c.principal = ctx.principal)
      (hs' : s' = s.confirmClient op.clientid ∨ ∃ draw,
        s' = { s.confirmClient op.clientid with
          sessions := (s.confirmClient op.clientid).sessions ++ [(draw, op.clientid)]
          clients := (s.confirmClient op.clientid).clients.recordCreateSessionReply op.clientid
            op.sequence ⟨draw, op.sequence⟩ }) :
      SessionChange s op ctx s'

theorem handleCreateSession_cases {op : CreateSessionOp} {res : CreateSessionRes}
    (h : s.handleCreateSession cfg env op ctx = some (s', res)) : SessionChange s op ctx s' := by
  unfold Server.handleCreateSession at h
  split at h
  · cases h
    exact .idle
  split at h
  · cases h
    exact .idle
  split at h
  · cases h
    exact .idle
  · next c hc =>
    split at h
    · cases h
      exact .idle
    · next hprin =>
      have hown : c.confirmed ∨ c.principal = ctx.principal := by
        by_cases hcf : c.confirmed
        · exact .inl hcf
        · exact .inr (not_not.mp fun hne => hprin ⟨hcf, hne⟩)
      split at h
      · cases h
        exact .idle
      · split at h
        · cases h
          exact .idle
        · cases h
          exact .idle
        · cases h
          exact .idle
        · dsimp only at h
          split at h
          · cases h
            exact .confirmed c hc hown (.inl rfl)
          · unfold Server.openSession at h
            split at h
            · cases h
            · cases h
              exact .confirmed c hc hown (.inr ⟨env.draw, rfl⟩)

/-! ### The debts along a run -/

theorem confirmClient_clients (s : Server) (id : UInt64) :
    (s.confirmClient id).clients = match s.clients.markConfirmed id with
      | (some old, m) => m.removeClient old
      | (none, m) => m := by
  unfold Server.confirmClient
  generalize s.clients.markConfirmed id = result
  obtain ⟨pending, m⟩ := result
  cases pending with
  | none | some old => rfl

theorem renewLease_ok (h : m.renewLease env id = .ok m') : m' = m.createLease env id := by
  unfold renewLease at h
  split at h
  · split at h
    · cases h
    · cases h
      rfl
  · cases h
    rfl

theorem Accounted.step (h : Accounted s.clients) {request : Request} (hfai : request.Faithful cfg s)
    : Accounted (s.step cfg request).clients := by
  cases request with
  | exchangeId env op ctx =>
    dsimp only [Server.step]
    cases hres : s.handleExchangeId cfg env op ctx with
    | none => exact h
    | some result =>
      obtain ⟨s', res⟩ := result
      have hch := handleExchangeId_cases hres
      have hok := hfai s' res hres
      generalize res.status = status at hch hok
      change Accounted s'.clients
      cases hch with
      | idle => exact h
      | records hex hstat htch hid =>
        refine (h.exchanged hex ?_).touched htch
        intro c hc hunc hnew hpn
        exact hok (hstat hnew) c hc hunc hpn
      | takeover c hc hcf hdd hal htch hid => exact (h.takeover hc hcf hal).touched htch
  | createSession env op ctx =>
    dsimp only [Server.step]
    cases hres : s.handleCreateSession cfg env op ctx with
    | none => exact h
    | some result =>
      obtain ⟨s', res⟩ := result
      have hch := handleCreateSession_cases hres
      change Accounted s'.clients
      have hcon : Accounted (s.confirmClient op.clientid).clients := by
        rw [confirmClient_clients]
        exact h.confirm op.clientid
      cases hch with
      | idle => exact h
      | confirmed c hc hprin hs' =>
        rcases hs' with rfl | ⟨draw, rfl⟩
        · exact hcon
        · exact hcon.touched (recordCreateSessionReply_touched _ _ _ _)
  | renew env clientId =>
    dsimp only [Server.step]
    split
    · next clients hrenew =>
      obtain rfl := renewLease_ok hrenew
      exact ⟨⟨⟨h.keyed, h.owned⟩, h.placed⟩, h.debts⟩
    · exact h
  | gain kind clientId | lose kind clientId => cases kind <;> exact h

theorem accounted_run {requests : List Request}
    (h : Steps (Server.step cfg) (fun s request => request.Faithful cfg s) .new requests) :
    Accounted (serverAfter cfg requests).clients :=
  run_invariant_of_steps (P := fun s => Accounted s.clients)
    (fun _ _ hs hfai => hs.step hfai) Accounted.new h

/-! ### What a foreign request leaves of a live client -/

/-- Of the client `a` nothing was taken, but for the reply of a CREATE_SESSION. -/
structure Spared (s s' : Server) (id : UInt64) (a : Client) : Prop where
  record : ∃ last cached, s'.clients.clients.get? id =
    some { a with lastCsSequence := last, csCachedRes := cached }
  lease : s'.clients.leases.get? id = s.clients.leases.get? id
  sessions : ∀ session ∈ s.sessions, session.2 = id → session ∈ s'.sessions
  stateids : s'.stateids.count id = s.stateids.count id
  delegations : s'.delegations.count id = s.delegations.count id
  locks : s'.locks.count id = s.locks.count id

variable {a : Client}

theorem Spared.of_clients (ha : m.clients.get? id = some a)
    (hls : m.leases.get? id = s.clients.leases.get? id) :
    Spared s { s with clients := m } id a :=
  ⟨⟨a.lastCsSequence, a.csCachedRes, ha⟩, hls, fun _ h _ => h, rfl, rfl, rfl⟩

theorem Spared.of_cascade {old : UInt64} (ha : m.clients.get? id = some a)
    (hls : m.leases.get? id = s.clients.leases.get? id) (hne : id ≠ old) :
    Spared s { s.cascadeDestroyClient old with clients := m } id a := by
  have hcnt : ∀ rows : List UInt64, (rows.filter fun k => k ≠ old).count id = rows.count id :=
    fun rows => count_filter (by simpa using hne)
  refine ⟨⟨a.lastCsSequence, a.csCachedRes, ha⟩, hls, ?_, hcnt _, hcnt _, hcnt _⟩
  rintro session hses rfl
  exact mem_filter.mpr ⟨hses, by simpa using hne⟩

theorem Enrolled.keeps (he : Enrolled m m' c) (ha : m.clients.get? id = some a) :
    id ≠ c.clientId ∧ m'.clients.get? id = some a ∧ m'.leases.get? id = m.leases.get? id := by
  cases he
  grind

theorem Exchanged.keeps_confirmed (h : Sound m)
    (hex : Exchanged m env owner verifier flags principal outcome m')
    (ha : m.clients.get? id = some a) (hcf : a.confirmed) :
    m'.clients.get? id = some a ∧ m'.leases.get? id = m.leases.get? id ∧
      (outcome = .newUnconfirmed env.draw 1 → id ≠ env.draw) := by
  cases hex with
  | refused outcome houtc =>
    refine ⟨ha, rfl, ?_⟩
    rintro rfl
    rcases houtc with hout | hout | hout <;> cases hout
  | renewed | collided => exact ⟨ha, rfl, fun h => by cases h⟩
  | first hc henr =>
    obtain ⟨hne, hget, hls⟩ := henr.keeps ha
    exact ⟨hget, hls, fun _ => hne⟩
  | replaced c hc hunc henr =>
    obtain ⟨-, hget, -⟩ := h.current_eq_some hc
    -- the dropped record is unconfirmed, so it is another
    have hoth : id ≠ c.clientId := by
      rintro rfl
      obtain rfl : a = c := mem_unique ha hget
      rw [hcf] at hunc
      cases hunc
    have hlf : (m.removeClient c.clientId).clients.get? id = some a := by
      rw [removeClient_clients, if_neg hoth, ha]
    obtain ⟨hne, hget', hls⟩ := henr.keeps hlf
    exact ⟨hget', hls.trans (removeClient_leases m c.clientId id hoth), fun _ => hne⟩
  | succeeded c hc hcconf hprin hver henr =>
    obtain ⟨hne, hget, hls⟩ := henr.keeps ha
    exact ⟨hget, hls, fun _ => hne⟩

theorem ExchangeChange.spares (h : Accounted s.clients) {status : Nfs4Status}
    (hch : ExchangeChange s env op ctx status s') (ha : s.clients.clients.get? id = some a)
    (hcf : a.confirmed) (hfor : ctx.principal ≠ a.principal) (hlv : s.clientHasLiveState env id)
    : Spared s s' id a := by
  cases hch with
  | idle => exact .of_clients ha rfl
  | @records _ _ _ _ answered hex hstat htch hid =>
    obtain ⟨hget, hls, hdraw⟩ := hex.keeps_confirmed h.toSound ha hcf
    -- the record that is answered with is new, or is one of the caller's principal
    have hoth : id ≠ answered := by
      rcases hid with ⟨hnew, rfl⟩ | ⟨c, hc, rfl, hprin⟩
      · exact hdraw hnew
      · rintro rfl
        obtain ⟨-, hc', -⟩ := h.toSound.current_eq_some hc
        obtain rfl : a = c := mem_unique ha hc'
        exact hfor hprin.symm
    refine .of_clients ((htch.others id hoth).trans hget) ?_
    rw [htch.leases, hls]
  | takeover c hc hcconf hdd hal htch hid =>
    have hoth : id ≠ c.clientId := by
      rintro rfl
      rw [hlv] at hdd
      cases hdd
    have hlf : (s.clients.removeClient c.clientId).clients.get? id = some a := by
      rw [removeClient_clients, if_neg hoth, ha]
    obtain ⟨-, henr⟩ := allocateClient_some hal
    obtain ⟨hne, hget, hls⟩ := henr.keeps hlf
    refine .of_cascade ((htch.others id (hid ▸ hne)).trans hget) ?_ hoth
    rw [htch.leases, hls, removeClient_leases _ _ _ hoth]

theorem confirmClient_spares (h : Accounted s.clients) {clientId : UInt64}
    (hc : s.clients.clients.get? clientId = some c) (hprin : c.confirmed ∨ c.principal = principal)
    (ha : s.clients.clients.get? id = some a) (hcf : a.confirmed) (hfor : principal ≠ a.principal) :
    Spared s (s.confirmClient clientId) id a ∧
      (s.confirmClient clientId).clients.clients.get? id = some a := by
  have hdebt := @Accounted.markConfirmed_debt _ h clientId
  unfold Server.confirmClient
  rcases markConfirmed_cases s.clients clientId with
    hno | ⟨c', hc', hunc, -, hcls, -, hleases⟩
  · rw [hno]
    exact ⟨.of_clients ha rfl, ha⟩
  · obtain rfl : c' = c := mem_unique hc' hc
    have hown : c'.principal = principal := by
      rcases hprin with hcconf | hown
      · rw [hcconf] at hunc
        cases hunc
      · exact hown
    have hoth : id ≠ clientId := by
      rintro rfl
      obtain rfl : a = c' := mem_unique ha hc
      rw [hcf] at hunc
      cases hunc
    have hget : (s.clients.markConfirmed clientId).2.clients.get? id = some a := by
      rw [hcls, if_neg hoth, ha]
    generalize s.clients.markConfirmed clientId = result at *
    obtain ⟨pending, m⟩ := result
    dsimp only at hget hleases hdebt ⊢
    cases pending with
    | none => exact ⟨.of_clients hget (by rw [hleases]), hget⟩
    | some old =>
      -- what is destroyed belongs to the caller's principal
      have hold : id ≠ old := by
        rintro rfl
        obtain ⟨d, b, hd, -, hb, -, -, hsm, -⟩ := hdebt rfl
        obtain rfl : d = c' := mem_unique hd hc
        obtain rfl : b = a := mem_unique hb ha
        exact hfor (hown.symm.trans hsm.symm)
      have hlf : (m.removeClient old).clients.get? id = some a := by
        rw [removeClient_clients, if_neg hold, hget]
      refine ⟨Spared.of_cascade (s := s) hlf ?_ hold, hlf⟩
      rw [removeClient_leases _ _ _ hold, hleases]

theorem SessionChange.spares (h : Accounted s.clients) {op : CreateSessionOp}
    (hch : SessionChange s op ctx s') (ha : s.clients.clients.get? id = some a) (hcf : a.confirmed)
    (hfor : ctx.principal ≠ a.principal) : Spared s s' id a := by
  cases hch with
  | idle => exact .of_clients ha rfl
  | confirmed c hc hprin hs' =>
    obtain ⟨hspr, hget⟩ := confirmClient_spares h hc hprin ha hcf hfor
    rcases hs' with rfl | ⟨draw, rfl⟩
    · exact hspr
    · have htch := recordCreateSessionReply_touched (s.confirmClient op.clientid).clients
        op.clientid op.sequence ⟨draw, op.sequence⟩
      refine ⟨?_, ?_, ?_, hspr.stateids, hspr.delegations, hspr.locks⟩
      · by_cases hsf : id = op.clientid
        · subst hsf
          exact ⟨_, _, recordCreateSessionReply_self hget _ _⟩
        · exact ⟨a.lastCsSequence, a.csCachedRes, (htch.others id hsf).trans hget⟩
      · exact (congrArg (·.get? id) htch.leases).trans hspr.lease
      · intro session hses hid
        exact mem_append_left _ (hspr.sessions session hses hid)

/-- **A foreign principal cannot destroy live client state**: its EXCHANGE_ID or CREATE_SESSION
takes nothing from a confirmed client with state under a lease that has not run out. -/
theorem foreign_principal_spares_live_client (cfg : Config) (requests : List Request)
    (h : Steps (Server.step cfg) (fun s request => request.Faithful cfg s) .new requests)
    (request : Request) (env : Env) (principal : Bytes)
    (hcaller : request.caller = some (env, principal)) (id : UInt64) (a : Client)
    (ha : (serverAfter cfg requests).clients.clients.get? id = some a) (hcf : a.confirmed)
    (hfor : principal ≠ a.principal) (hlv : (serverAfter cfg requests).clientHasLiveState env id) :
    Spared (serverAfter cfg requests) (serverAfter cfg (requests ++ [request])) id a := by
  have hacc := accounted_run h
  have hla : serverAfter cfg (requests ++ [request]) =
      (serverAfter cfg requests).step cfg request := run_append _ _ _ _
  rw [hla]
  generalize serverAfter cfg requests = s at *
  cases request with
  | exchangeId env' op ctx =>
    obtain ⟨rfl, rfl⟩ := mk.inj (some.inj hcaller)
    dsimp only [Server.step]
    cases hres : s.handleExchangeId cfg env' op ctx with
    | none => exact .of_clients ha rfl
    | some result => exact (handleExchangeId_cases hres).spares hacc ha hcf hfor hlv
  | createSession env' op ctx =>
    obtain ⟨rfl, rfl⟩ := mk.inj (some.inj hcaller)
    dsimp only [Server.step]
    cases hres : s.handleCreateSession cfg env' op ctx with
    | none => exact .of_clients ha rfl
    | some result => exact (handleCreateSession_cases hres).spares hacc ha hcf hfor
  | renew | gain | lose => cases hcaller

def sampleConfig : Config := ⟨4096, 16, 0x00010000⟩

def exchangeFor (draw verifier : UInt64) (principal : Bytes) : Request :=
  .exchangeId ⟨0, 90, draw⟩ ⟨[7], verifier, 0, 0⟩ ⟨principal, false⟩

def createFor (clientId : UInt64) (principal : Bytes) : Request :=
  .createSession ⟨0, 90, 100⟩ ⟨clientId, 1, 0, ⟨1024, 1024, 8⟩, ⟨1024, 1024, 8⟩⟩ ⟨principal, false⟩

def liveClient : List Request := [exchangeFor 1 10 [1], createFor 1 [1], .gain .lock 1]

/-- An EXCHANGE_ID of principal 2 for the same owner leaves all of it. -/
theorem collision_spares_live_client :
    (serverAfter sampleConfig liveClient).clientHasLiveState ⟨0, 90, 5⟩ 1 ∧
      Spared (serverAfter sampleConfig liveClient)
        (serverAfter sampleConfig (liveClient ++ [exchangeFor 5 20 [2]])) 1
        ⟨1, [7], 10, 0, [1], true, some 1, some ⟨100, 1⟩, 1, false, none⟩ := by
  have hlv : (serverAfter sampleConfig liveClient).clientHasLiveState ⟨0, 90, 5⟩ 1 := by
    decide
  refine ⟨hlv, foreign_principal_spares_live_client sampleConfig liveClient ?_
    (exchangeFor 5 20 [2]) ⟨0, 90, 5⟩ [2] rfl 1 _ (by decide) rfl (by decide) hlv⟩
  refine ⟨?_, trivial, trivial, trivial⟩
  -- the first EXCHANGE_ID finds no record at all
  intro s' res _ _ c hc
  cases (show (none : Option Client) = some c from hc)

/-- The client of principal 1 comes back with a new verifier; before it is confirmed, principal 2
names the owner and is confirmed. -/
def foreignSuccessor : List Request :=
  liveClient ++ [exchangeFor 2 20 [1], exchangeFor 3 30 [2], createFor 3 [2]]

/-- The CREATE_SESSION of principal 2 tears the live client of principal 1 down. -/
theorem foreign_successor_destroys_client :
    (serverAfter sampleConfig (liveClient ++
        [exchangeFor 2 20 [1], exchangeFor 3 30 [2]])).clientHasLiveState ⟨0, 90, 100⟩ 1 ∧
      ((serverAfter sampleConfig (liveClient ++
        [exchangeFor 2 20 [1], exchangeFor 3 30 [2]])).clients.clients.get? 1).map
          (fun c => (c.principal, c.confirmed)) = some ([1], true) ∧
      (serverAfter sampleConfig foreignSuccessor).clients.clients.get? 1 = none ∧
      (serverAfter sampleConfig foreignSuccessor).locks = [] ∧
      (serverAfter sampleConfig foreignSuccessor).sessions = [(100, 3)] := by
  decide

end Flint.Clients
