import Flint.Basic.Outcome
import Flint.Clients.Exchange

/-!
# One confirmed client per owner

An owner can have two records: a confirmed client and the unconfirmed one that will replace it. The
index then names the second, and the first is found only through what the second owes
(`Registered`). Two steps break this: removing an unconfirmed record that owes a removal
(`removed_successor_hides_confirmed`), and a restart, which loads both records but not the debt.
`Event.Calm` excludes these.
-/

namespace Flint.Clients

open ClientManager Outcome List Option Dict

structure Node where
  manager : ClientManager
  rows : ClientRows

inductive Event
  | exchangeId (env : Env) (owner : Bytes) (verifier : UInt64) (flags : UInt32) (principal : Bytes)
  /-- An EXCHANGE_ID that collides with a client of another principal, which the caller removes
  first. -/
  | collision (env : Env) (owner : Bytes) (verifier : UInt64) (flags : UInt32) (principal : Bytes)
  /-- `mark_confirmed`, and `remove_client` of the id it returns. -/
  | confirm (clientId : UInt64)
  | remove (clientId : UInt64)
  /-- The worker applies the oldest queued write. -/
  | persist
  /-- A new process loads the rows, in any order; the queue of the old one is lost. -/
  | restart (env : Env) (records : List ClientRecord)

def Node.step (n : Node) : Event → Node
  | .exchangeId env owner verifier flags principal =>
    match n.manager.exchangeId env owner verifier flags principal with
    | some (_, m) => { n with manager := m }
    | none => n
  | .collision env owner verifier flags principal =>
    match n.manager.exchangeId env owner verifier flags principal with
    | some (.clientCollision incumbent, m) =>
      match (m.removeClient incumbent).allocateAfterCollision env owner verifier flags
          principal with
      | some (_, m) => { n with manager := m }
      | none => n
    | _ => n
  | .confirm clientId =>
    match n.manager.markConfirmed clientId with
    | (some old, m) => { n with manager := m.removeClient old }
    | (none, m) => { n with manager := m }
  | .remove clientId => { n with manager := n.manager.removeClient clientId }
  | .persist =>
    match n.manager.persistQ with
    | op :: q => ⟨{ n.manager with persistQ := q }, op.apply n.rows⟩
    | [] => n
  | .restart env records =>
    if records.Perm n.rows.rows then
      { n with manager := new.loadRecords env records }
    else
      n

def nodeAfter (events : List Event) : Node := run Node.step ⟨.new, .empty⟩ events

/-! ### The invariant -/

/-- Records stand under their ids, and the index names records of the owner it is asked for. -/
structure Sound (m : ClientManager) : Prop where
  keyed : ∀ id c, m.clients.get? id = some c → c.clientId = id
  owned : ∀ o id, m.ownerToId.get? o = some id → ∃ c, m.clients.get? id = some c ∧ c.owner = o

/-- Every record of the owner is in the index, or is a confirmed one whose removal the unconfirmed
record in the index owes. -/
def Placed (m : ClientManager) (o : Bytes) : Prop :=
  ∀ id c, m.clients.get? id = some c → c.owner = o →
    m.ownerToId.get? o = some id ∨
      (c.confirmed ∧ ∃ k b, m.ownerToId.get? o = some k ∧ m.clients.get? k = some b ∧
        b.confirmed = false ∧ b.pendingReplaces = some id)

structure Registered (m : ClientManager) : Prop extends Sound m where
  placed : ∀ o, Placed m o

/-- An unconfirmed record with this id is the only record of its owner. -/
def Alone (m : ClientManager) (id : UInt64) : Prop :=
  ∀ c, m.clients.get? id = some c → c.confirmed = false →
    ∀ k d, m.clients.get? k = some d → d.owner = c.owner → k = id

/-- A removal does not take an unconfirmed record while its owner has another, and a restart finds
one row per owner. -/
def Event.Calm (n : Node) : Event → Prop
  | .confirm clientId =>
    ∀ old, (n.manager.markConfirmed clientId).1 = some old →
      Alone (n.manager.markConfirmed clientId).2 old
  | .remove clientId => Alone n.manager clientId
  | .restart _ _ => n.rows.rows.Pairwise fun a b => a.owner ≠ b.owner
  | _ => True

variable {m : ClientManager} {o : Bytes} {c : Client}

theorem Sound.current_eq_some (h : Sound m) (hc : m.current o = some c) :
    m.ownerToId.get? o = some c.clientId ∧ m.clients.get? c.clientId = some c ∧ c.owner = o := by
  obtain ⟨id, hind, hget⟩ := bind_eq_some_iff.mp hc
  obtain ⟨c', hget', hown⟩ := h.owned o id hind
  obtain rfl : c = c' := mem_unique hget hget'
  obtain rfl := h.keyed id c hget
  exact ⟨hind, hget, hown⟩

theorem Sound.index_of_current_none (h : Sound m) (hc : m.current o = none) :
    m.ownerToId.get? o = none := by
  cases hind : m.ownerToId.get? o with
  | none => rfl
  | some id =>
    obtain ⟨c, hget, -⟩ := h.owned o id hind
    rw [current, hind, bind_some, hget] at hc
    cases hc

theorem Registered.new : Registered .new where
  keyed id c h := by cases h
  owned o id h := by cases h
  placed o id c h := by cases h

attribute [local grind =] removeClient_clients

variable {m' : ClientManager}

theorem Sound.enroll (h : Sound m) (he : Enrolled m m' c) : Sound m' := by
  -- the new record has a new id, so the others keep their places
  cases h
  cases he
  constructor <;> grind

theorem Registered.enroll (h : Sound m) (hpl : ∀ o, o ≠ c.owner → Placed m o)
    (he : Enrolled m m' c) (hrs : ∀ id d, m.clients.get? id = some d → d.owner = c.owner →
      d.confirmed ∧ c.confirmed = false ∧ c.pendingReplaces = some id) : Registered m' := by
  refine ⟨h.enroll he, fun o => ?_⟩
  unfold Placed at *
  cases he
  by_cases ho : o = c.owner <;> grind

theorem Sound.remove (h : Sound m) (id : UInt64) : Sound (m.removeClient id) := by
  obtain ⟨keyed, owned⟩ := h
  cases hc : m.clients.get? id with
  | none =>
    rw [removeClient_of_none hc]
    exact ⟨keyed, owned⟩
  | some c =>
    have hind := removeClient_index hc
    constructor <;> grind

variable {id k : UInt64}

theorem removeClient_index_of_ne (hk : m.ownerToId.get? o = some k) (hne : k ≠ id) :
    (m.removeClient id).ownerToId.get? o = some k := by
  cases hc : m.clients.get? id with
  | none => rw [removeClient_of_none hc, hk]
  | some c =>
    rw [removeClient_index hc]
    grind

theorem Placed.remove (h : Sound m) (hpl : Placed m o) (halone : Alone m id) :
    Placed (m.removeClient id) o := by
  have howned := h.owned
  have hind : ∀ j, m.ownerToId.get? o = some j → j ≠ id →
      (m.removeClient id).ownerToId.get? o = some j := fun _ => removeClient_index_of_ne
  -- a record that owes the removal of another one of its owner is not alone, and stays
  unfold Placed Alone at *
  grind

theorem Registered.remove (h : Registered m) (halone : Alone m id) :
    Registered (m.removeClient id) where
  toSound := h.toSound.remove id
  placed o := (h.placed o).remove h.toSound halone

theorem Placed.no_record (h : Placed m o) (hind : m.ownerToId.get? o = none)
    (hc : m.clients.get? id = some c) : c.owner ≠ o := by
  have := h id c hc
  grind

theorem Placed.only_confirmed (h : Placed m o) {a : Client} (hk : m.ownerToId.get? o = some k)
    (ha : m.clients.get? k = some a) (hcf : a.confirmed) (hc : m.clients.get? id = some c)
    (hown : c.owner = o) : id = k := by
  have := h id c hc hown
  grind

theorem Placed.owed (h : Placed m o) {b : Client} (hk : m.ownerToId.get? o = some k)
    (hb : m.clients.get? k = some b) (hc : m.clients.get? id = some c) (hown : c.owner = o)
    (hne : id ≠ k) : c.confirmed ∧ b.pendingReplaces = some id := by
  have := h id c hc hown
  grind

/-! ### EXCHANGE_ID and its completion -/

theorem Registered.placed_remove_of_ne (h : Registered m) (hc : m.clients.get? id = some c)
    (ho : o ≠ c.owner) : Placed (m.removeClient id) o := by
  have hpl := h.placed o
  have howned := h.owned o
  have hind := removeClient_index hc o
  unfold Placed at *
  grind

theorem Registered.exchanged (h : Registered m) {env : Env} {owner principal : Bytes}
    {verifier : UInt64} {flags : UInt32} {outcome : ExchangeIdOutcome}
    (hex : Exchanged m env owner verifier flags principal outcome m') : Registered m' := by
  cases hex with
  | refused | renewed | collided => exact h
  | first hc henr =>
    refine .enroll h.toSound (fun o _ => h.placed o) henr ?_
    intro id d hd hown
    exact absurd hown ((h.placed owner).no_record (h.toSound.index_of_current_none hc) hd)
  | replaced c hc hcf henr =>
    obtain ⟨hind, hget, rfl⟩ := h.toSound.current_eq_some hc
    refine .enroll (c := newcomer env c.owner verifier flags principal c.pendingReplaces)
      (h.toSound.remove c.clientId) (fun _ ho => h.placed_remove_of_ne hget ho) henr ?_
    intro id d hd hown
    rw [removeClient_clients] at hd
    split at hd
    · cases hd
    · next hne =>
      -- what is left of the owner is what the dropped record owed, and so does the new one
      obtain ⟨hdconf, hpn⟩ := (h.placed c.owner).owed hind hget hd hown hne
      exact ⟨hdconf, rfl, hpn⟩
  | succeeded c hc hcf hprin hver henr =>
    obtain ⟨hind, hget, rfl⟩ := h.toSound.current_eq_some hc
    refine .enroll h.toSound (fun o _ => h.placed o) henr ?_
    intro id d hd hown
    obtain rfl := (h.placed c.owner).only_confirmed hind hget hcf hd hown
    obtain rfl : d = c := mem_unique hd hget
    exact ⟨hcf, rfl, rfl⟩

theorem Registered.collision (h : Registered m) {env : Env} {owner principal : Bytes}
    {verifier : UInt64} {flags : UInt32} {outcome : ExchangeIdOutcome}
    (hc : m.current owner = some c) (hcf : c.confirmed)
    (hal : (m.removeClient c.clientId).allocateAfterCollision env owner verifier flags
      principal = some (outcome, m')) : Registered m' := by
  obtain ⟨-, henr⟩ := allocateClient_some hal
  obtain ⟨hind, hget, rfl⟩ := h.toSound.current_eq_some hc
  refine .enroll (c := newcomer env c.owner verifier flags principal none)
    (h.toSound.remove c.clientId) (fun _ ho => h.placed_remove_of_ne hget ho) henr ?_
  intro id d hd hown
  rw [removeClient_clients] at hd
  split at hd
  · cases hd
  · next hne => exact absurd ((h.placed c.owner).only_confirmed hind hget hcf hd hown) hne

/-! ### Confirming -/

/-- Confirming a record and removing what it owed: its owner has nothing besides. -/
theorem Registered.confirm (h : Registered m) (clientId : UInt64)
    (halone : ∀ old, (m.markConfirmed clientId).1 = some old →
      Alone (m.markConfirmed clientId).2 old) :
    Registered (match m.markConfirmed clientId with
      | (some old, m') => m'.removeClient old
      | (none, m') => m') := by
  rcases markConfirmed_cases m clientId with hno | ⟨c, hc, hunc, hpn, hcls, hind, -⟩
  · rw [hno]
    exact h
  · generalize m.markConfirmed clientId = result at *
    obtain ⟨pending, m₁⟩ := result
    dsimp only at hpn hcls hind halone ⊢
    subst hpn
    obtain ⟨⟨keyed, owned⟩, placed⟩ := h
    -- the owner of the record has it in the index, before and after
    have hsf : m.ownerToId.get? c.owner = some clientId := by
      have := placed c.owner clientId c hc rfl
      grind
    have hsnd : Sound m₁ := by
      constructor <;> grind
    have hoths : ∀ o, o ≠ c.owner → Placed m₁ o := by
      intro o ho
      have := placed o
      have := owned o
      unfold Placed at *
      grind
    -- all that the owner has besides is what the record owes
    have hbesides : ∀ id d, m₁.clients.get? id = some d → d.owner = c.owner →
        id = clientId ∨ c.pendingReplaces = some id := by
      have := placed c.owner
      unfold Placed at this
      grind
    cases hp : c.pendingReplaces with
    | none =>
      refine ⟨hsnd, fun o => ?_⟩
      by_cases ho : o = c.owner
      · intro id d hd hown
        grind
      · exact hoths o ho
    | some old =>
      refine ⟨hsnd.remove old, fun o => ?_⟩
      by_cases ho : o = c.owner
      · intro id d hd hown
        have := @removeClient_index_of_ne m₁ o old clientId
        grind
      · exact (hoths o ho).remove hsnd (halone old hp)

/-! ### Restart -/

theorem loadRecord_enrolled (env : Env) {r : ClientRecord}
    (hfr : m.clients.get? r.clientId = none) :
    Enrolled m (m.loadRecord env r) (.fromRecord r) where
  fresh := hfr
  clients id := get?_insert m.clients r.clientId id _
  index o := get?_insert m.ownerToId r.owner o r.clientId
  leases _ hid := get?_insert_of_ne m.leases _ hid

theorem Registered.loadRecords (env : Env) {records : List ClientRecord} :
    ∀ {m : ClientManager}, Registered m → records.Pairwise (fun a b => a.clientId ≠ b.clientId) →
      records.Pairwise (fun a b => a.owner ≠ b.owner) →
      (∀ r ∈ records, m.clients.get? r.clientId = none) →
      (∀ r ∈ records, ∀ id c, m.clients.get? id = some c → c.owner ≠ r.owner) →
      Registered (m.loadRecords env records) := by
  induction records with
  | nil =>
    intro m h _ _ _ _
    exact h
  | cons r records ih =>
    intro m h hids hows hfr hnew
    obtain ⟨hid, hids⟩ := pairwise_cons.mp hids
    obtain ⟨hown, hows⟩ := pairwise_cons.mp hows
    have he : Enrolled m (m.loadRecord env r) (.fromRecord r) :=
      loadRecord_enrolled env (hfr r (.head _))
    have hreg : Registered (m.loadRecord env r) := by
      refine .enroll h.toSound (fun o _ => h.placed o) he ?_
      intro id c hc hsm
      exact absurd hsm (hnew r (.head _) id c hc)
    refine ih hreg hids hows ?_ ?_
    · intro r' hr'
      rw [he.clients, if_neg fun heq => hid r' hr' heq.symm]
      exact hfr r' (.tail r hr')
    · intro r' hr' id c hc
      rw [he.clients] at hc
      split at hc
      · cases hc
        exact hown r' hr'
      · exact hnew r' (.tail r hr') id c hc

theorem pairwise_clientId {rows : ClientRows} {records : List ClientRecord}
    (h : records.Perm rows.rows) : records.Pairwise fun a b => a.clientId ≠ b.clientId := by
  refine h.symm.pairwise ?_ fun hne => hne.symm
  exact rows.sorted.imp fun hlt heq => absurd (congrArg UInt64.toNat heq) (Nat.ne_of_lt hlt)

/-! ### Whole runs -/

theorem Registered.step {n : Node} (h : Registered n.manager) {event : Event}
    (hcm : event.Calm n) : Registered (n.step event).manager := by
  cases event with
  | exchangeId env owner verifier flags principal =>
    dsimp only [Node.step]
    split
    · next outcome m hex => exact h.exchanged (exchangeId_cases hex)
    · exact h
  | collision env owner verifier flags principal =>
    dsimp only [Node.step]
    split
    · next incumbent m hex =>
      -- the call found a confirmed client of another principal, and changed nothing itself
      have hcas := exchangeId_cases hex
      generalize houtc : ExchangeIdOutcome.clientCollision incumbent = outcome at hcas
      cases hcas with
      | collided c hc hcf hprin =>
        cases houtc
        split
        · next outcome' m' hal => exact h.collision hc hcf hal
        · exact h
      | refused _ href =>
        subst houtc
        rcases href with hout | hout | hout <;> cases hout
      | renewed | first | replaced | succeeded => cases houtc
    · exact h
  | confirm clientId =>
    have hconfirm := h.confirm clientId hcm
    dsimp only [Node.step]
    generalize n.manager.markConfirmed clientId = result at hconfirm ⊢
    obtain ⟨pending, m⟩ := result
    cases pending with
    | none | some old => exact hconfirm
  | remove clientId => exact h.remove hcm
  | persist =>
    dsimp only [Node.step]
    split
    · exact ⟨⟨h.keyed, h.owned⟩, h.placed⟩
    · exact h
  | restart env records =>
    dsimp only [Node.step]
    split
    · next hpm =>
      refine Registered.new.loadRecords env (pairwise_clientId hpm)
        (hpm.symm.pairwise hcm fun hne => hne.symm) (fun _ _ => rfl) ?_
      intro r _ id c hc
      cases hc
    · exact h

theorem registered_run {events : List Event}
    (h : Steps Node.step (fun n event => event.Calm n) ⟨.new, .empty⟩ events) :
    Registered (nodeAfter events).manager :=
  run_invariant_of_steps (P := fun n => Registered n.manager)
    (fun _ _ hn hcm => hn.step hcm) Registered.new h

/-- **One confirmed client per owner**, after every calm run; and without an unconfirmed record
beside it, it is found again by its owner, verifier and principal. -/
theorem one_confirmed_client_per_owner (events : List Event)
    (h : Steps Node.step (fun n event => event.Calm n) ⟨.new, .empty⟩ events) :
    (∀ id id' c c', (nodeAfter events).manager.clients.get? id = some c →
      (nodeAfter events).manager.clients.get? id' = some c' →
      c.owner = c'.owner → c.confirmed → c'.confirmed → id = id') ∧
    ∀ id c, (nodeAfter events).manager.clients.get? id = some c → c.confirmed →
      (∀ id' c', (nodeAfter events).manager.clients.get? id' = some c' →
        c'.owner = c.owner → c'.confirmed) →
      ∀ (env : Env) (flags : UInt32), flags &&& updConfirmedRecA = 0 →
        (nodeAfter events).manager.exchangeId env c.owner c.verifier flags c.principal =
          some (.existingConfirmed id c.nextCsSequence, (nodeAfter events).manager) := by
  have hreg := registered_run h
  generalize (nodeAfter events).manager = m at hreg ⊢
  constructor
  · intro id id' c c' hc hc' hown hcf hcf'
    -- whichever of the two the index does not name, the other one would be unconfirmed
    rcases hreg.placed c.owner id c hc rfl with hid | ⟨-, k, b, hk, hb, hunc, hpn⟩
    · exact ((hreg.placed c.owner).only_confirmed hid hc hcf hc' hown.symm).symm
    · have hne : id' ≠ k := by
        rintro rfl
        obtain rfl : c' = b := mem_unique hc' hb
        rw [hcf'] at hunc
        cases hunc
      obtain ⟨-, hpn'⟩ := (hreg.placed c.owner).owed hk hb hc' hown.symm hne
      exact mem_unique hpn hpn'
  · intro id c hc hcf hall env flags hflags
    have hind : m.ownerToId.get? c.owner = some id := by
      rcases hreg.placed c.owner id c hc rfl with hid | ⟨-, k, b, hk, hb, hunc, -⟩
      · exact hid
      · obtain ⟨b', hb', hbowner⟩ := hreg.owned c.owner k hk
        obtain rfl : b = b' := mem_unique hb hb'
        rw [hall k b hb hbowner] at hunc
        cases hunc
    have hcur : m.current c.owner = some c := by
      rw [current, hind, bind_some, hc]
    unfold exchangeId
    simp [hcur, hflags, hcf, hreg.keyed id c hc]

def exchangeOf (draw verifier : UInt64) : Event := .exchangeId ⟨0, 90, draw⟩ [7] verifier 0 [1]

/-- A client is confirmed, comes back with a new verifier, and is confirmed again. -/
def rebootedClient : List Event := [exchangeOf 1 10, .confirm 1, exchangeOf 2 20, .confirm 2]

theorem rebooted_client_found_again :
    (nodeAfter rebootedClient).manager.clients.get? 2 =
        some ⟨2, [7], 20, 0, [1], true, none, none, 1, false, none⟩ ∧
      (nodeAfter rebootedClient).manager.exchangeId ⟨5, 90, 3⟩ [7] 20 0 [1] =
        some (.existingConfirmed 2 1, (nodeAfter rebootedClient).manager) := by
  have hget : (nodeAfter rebootedClient).manager.clients.get? 2 =
      some ⟨2, [7], 20, 0, [1], true, none, none, 1, false, none⟩ := by decide
  refine ⟨hget, (one_confirmed_client_per_owner rebootedClient ?_).2 2 _ hget rfl ?_ ⟨5, 90, 3⟩ 0
    rfl⟩
  · refine ⟨trivial, ?_, trivial, ?_, trivial⟩
    · intro old hold
      cases (show (none : Option UInt64) = some old from hold)
    · -- what the second incarnation owes is the first, which is confirmed
      intro old hold c hc hunc
      obtain rfl : (1 : UInt64) = old := some.inj hold
      cases hc
      cases hunc
  · intro id' c' hc' _
    have hmem := Dict.mem_toList.mpr hc'
    rw [show (nodeAfter rebootedClient).manager.clients.toList =
      [(2, ⟨2, [7], 20, 0, [1], true, none, none, 1, false, none⟩)] by decide] at hmem
    obtain ⟨-, rfl⟩ := Prod.mk.inj (mem_singleton.mp hmem)
    rfl

def sweptSuccessor : List Event := [exchangeOf 1 10, .confirm 1, exchangeOf 2 20, .remove 2]

/-- The confirmed client 1 is then not found by an EXCHANGE_ID of its own; and when the client made
instead is confirmed, the owner has two confirmed records. -/
theorem removed_successor_hides_confirmed :
    (nodeAfter sweptSuccessor).manager.clients.toList =
        [(1, ⟨1, [7], 10, 0, [1], true, none, none, 1, false, none⟩)] ∧
      ((nodeAfter sweptSuccessor).manager.exchangeId ⟨0, 90, 3⟩ [7] 10 0 [1]).map Prod.fst =
        some (.newUnconfirmed 3 1) ∧
      ((nodeAfter (sweptSuccessor ++ [exchangeOf 3 10, .confirm 3])).manager.clients.toList.map
        fun entry => (entry.1, entry.2.owner, entry.2.confirmed)) =
          [(3, [7], true), (1, [7], true)] := by
  decide

end Flint.Clients
