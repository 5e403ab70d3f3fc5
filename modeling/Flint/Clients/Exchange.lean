import Flint.Clients.Manager

/-!
# What the calls of the client manager do

`Exchanged` lists the six things that an EXCHANGE_ID can do.
-/

namespace Flint.Clients

open ClientManager Dict

/-! ### Adding a record -/

/-- The manager `m'` is `m` with the record `c`, which has a new id. -/
structure Enrolled (m m' : ClientManager) (c : Client) : Prop where
  fresh : m.clients.get? c.clientId = none
  clients : ∀ id, m'.clients.get? id = if id = c.clientId then some c else m.clients.get? id
  index : ∀ o, m'.ownerToId.get? o = if o = c.owner then some c.clientId else m.ownerToId.get? o
  leases : ∀ id, id ≠ c.clientId → m'.leases.get? id = m.leases.get? id

def newcomer (env : Env) (owner : Bytes) (verifier : UInt64) (flags : UInt32) (principal : Bytes)
    (pending : Option UInt64) : Client :=
  { Client.new env.draw owner verifier flags principal with
    initialCsSequence := 1
    pendingReplaces := pending }

variable {m m' : ClientManager} {env : Env} {owner principal : Bytes} {verifier : UInt64}
  {flags : UInt32} {outcome : ExchangeIdOutcome}

theorem allocateClient_some
    (h : m.allocateClient env owner verifier flags principal = some (outcome, m')) :
    outcome = .newUnconfirmed env.draw 1 ∧
      Enrolled m m' (newcomer env owner verifier flags principal none) := by
  unfold allocateClient at h
  split at h
  · next hdraw =>
    cases h
    refine ⟨rfl, hdraw.2, ?_, ?_, ?_⟩
    · intro id
      exact get?_insert m.clients env.draw id _
    · intro o
      exact get?_insert m.ownerToId owner o env.draw
    · intro id hid
      exact get?_insert_of_ne m.leases _ hid
  · cases h

variable {c : Client}

theorem Enrolled.owe (h : Enrolled m m' c) (prev : UInt64) :
    Enrolled m (m'.owe c.clientId prev) { c with pendingReplaces := some prev } := by
  have hsf : m'.clients.get? c.clientId = some c := by rw [h.clients, if_pos rfl]
  have howe : m'.owe c.clientId prev = ({ m' with
      clients := m'.clients.insert c.clientId { c with pendingReplaces := some prev } }
        : ClientManager).persist { c with pendingReplaces := some prev } := by
    rw [ClientManager.owe, hsf]
  rw [howe]
  refine ⟨h.fresh, ?_, h.index, h.leases⟩
  intro id
  change (m'.clients.insert c.clientId _).get? id = _
  rw [get?_insert, h.clients]
  by_cases hid : id = c.clientId
  · rw [if_pos hid, if_pos hid]
  · rw [if_neg hid, if_neg hid, if_neg hid]

theorem removeClient_of_none {id : UInt64} (h : m.clients.get? id = none) :
    m.removeClient id = m := by
  rw [removeClient, h]

theorem removeClient_clients (m : ClientManager) (id k : UInt64) :
    (m.removeClient id).clients.get? k = if k = id then none else m.clients.get? k := by
  unfold removeClient
  split
  · exact get?_erase m.clients id k
  · next hno =>
    by_cases hk : k = id
    · rw [if_pos hk, hk, hno]
    · rw [if_neg hk]

theorem removeClient_leases (m : ClientManager) (id k : UInt64) (hk : k ≠ id) :
    (m.removeClient id).leases.get? k = m.leases.get? k := by
  unfold removeClient
  split
  · exact get?_erase_of_ne m.leases hk
  · rfl

theorem removeClient_index {id : UInt64} (h : m.clients.get? id = some c) (o : Bytes) :
    (m.removeClient id).ownerToId.get? o =
      if o = c.owner ∧ m.ownerToId.get? o = some id then none else m.ownerToId.get? o := by
  rw [removeClient, h]
  change (m.ownerToId.removeIf c.owner _).get? o = _
  rw [get?_removeIf]
  by_cases ho : o = c.owner
  · subst ho
    cases m.ownerToId.get? c.owner with
    | none | some k => simp
  · simp [ho]

theorem markConfirmed_cases (m : ClientManager) (id : UInt64) :
    m.markConfirmed id = (none, m) ∨
      ∃ c, m.clients.get? id = some c ∧ c.confirmed = false ∧
        (m.markConfirmed id).1 = c.pendingReplaces ∧
        (∀ k, (m.markConfirmed id).2.clients.get? k =
          if k = id then some { c with confirmed := true, pendingReplaces := none }
          else m.clients.get? k) ∧
        (m.markConfirmed id).2.ownerToId = m.ownerToId ∧
        (m.markConfirmed id).2.leases = m.leases := by
  unfold markConfirmed
  cases hc : m.clients.get? id with
  | none => exact .inl rfl
  | some c =>
    dsimp only
    by_cases hcf : c.confirmed
    · exact .inl (if_pos hcf)
    · right
      rw [if_neg hcf]
      refine ⟨c, rfl, Bool.eq_false_iff.mpr hcf, rfl, ?_, rfl, rfl⟩
      intro k
      exact get?_insert m.clients id k _

/-! ### EXCHANGE_ID -/

inductive Exchanged (m : ClientManager) (env : Env) (owner : Bytes) (verifier : UInt64)
    (flags : UInt32) (principal : Bytes) : ExchangeIdOutcome → ClientManager → Prop
  | refused (outcome : ExchangeIdOutcome)
      (hout : outcome = .noEnt ∨ outcome = .notSame ∨ outcome = .perm) :
      Exchanged m env owner verifier flags principal outcome m
  | renewed (c : Client) (hc : m.current owner = some c) (hcf : c.confirmed)
      (hver : c.verifier = verifier) (hprin : c.principal = principal) :
      Exchanged m env owner verifier flags principal
        (.existingConfirmed c.clientId c.nextCsSequence) m
  /-- A confirmed client of another principal; the caller decides. -/
  | collided (c : Client) (hc : m.current owner = some c) (hcf : c.confirmed)
      (hprin : c.principal ≠ principal) :
      Exchanged m env owner verifier flags principal (.clientCollision c.clientId) m
  /-- An owner that the index does not know. -/
  | first {m' : ClientManager} (hc : m.current owner = none)
      (henr : Enrolled m m' (newcomer env owner verifier flags principal none)) :
      Exchanged m env owner verifier flags principal (.newUnconfirmed env.draw 1) m'
  /-- An unconfirmed record makes way for a new one, which takes over what it owed. -/
  | replaced {m' : ClientManager} (c : Client) (hc : m.current owner = some c)
      (hcf : c.confirmed = false)
      (henr : Enrolled (m.removeClient c.clientId) m'
        (newcomer env owner verifier flags principal c.pendingReplaces)) :
      Exchanged m env owner verifier flags principal (.newUnconfirmed env.draw 1) m'
  | succeeded {m' : ClientManager} (c : Client) (hc : m.current owner = some c)
      (hcf : c.confirmed) (hprin : c.principal = principal)
      (hver : c.verifier ≠ verifier)
      (henr : Enrolled m m' (newcomer env owner verifier flags principal (some c.clientId))) :
      Exchanged m env owner verifier flags principal (.newUnconfirmed env.draw 1) m'

theorem replaceWhenConfirmed_some {incumbent : UInt64}
    (h : m.replaceWhenConfirmed env owner verifier flags principal incumbent = some (outcome, m')) :
    outcome = .newUnconfirmed env.draw 1 ∧
      Enrolled m m' (newcomer env owner verifier flags principal (some incumbent)) := by
  unfold replaceWhenConfirmed at h
  cases hal : m.allocateClient env owner verifier flags principal with
  | none =>
    rw [hal] at h
    cases h
  | some result =>
    obtain ⟨outcome₁, m₁⟩ := result
    obtain ⟨rfl, henr⟩ := allocateClient_some hal
    rw [hal] at h
    cases h
    exact ⟨rfl, henr.owe incumbent⟩

theorem Exchanged.of_unconfirmed (hc : m.current owner = some c) (hcf : c.confirmed = false)
    (h : (match (m.removeClient c.clientId).allocateClient env owner verifier flags principal,
        c.pendingReplaces with
      | some (.newUnconfirmed clientId sequenceId, m), some prev =>
        some (.newUnconfirmed clientId sequenceId, m.owe clientId prev)
      | other, _ => other) = some (outcome, m')) :
    Exchanged m env owner verifier flags principal outcome m' := by
  cases hal : (m.removeClient c.clientId).allocateClient env owner verifier flags principal with
  | none =>
    rw [hal] at h
    cases h
  | some result =>
    obtain ⟨outcome₁, m₁⟩ := result
    obtain ⟨rfl, henr⟩ := allocateClient_some hal
    rw [hal] at h
    cases hpn : c.pendingReplaces with
    | none =>
      rw [hpn] at h
      cases h
      exact .replaced c hc hcf (hpn ▸ henr)
    | some prev =>
      rw [hpn] at h
      cases h
      exact .replaced c hc hcf (hpn ▸ henr.owe prev)

theorem exchangeId_cases
    (h : m.exchangeId env owner verifier flags principal = some (outcome, m')) :
    Exchanged m env owner verifier flags principal outcome m' := by
  unfold exchangeId at h
  dsimp only at h
  cases hc : m.current owner with
  | none =>
    rw [hc] at h
    dsimp only at h
    split at h
    · cases h
      exact .refused _ (.inl rfl)
    · obtain ⟨rfl, henr⟩ := allocateClient_some h
      exact .first hc henr
  | some c =>
    rw [hc] at h
    dsimp only at h
    split at h
    · split at h
      · cases h
        exact .refused _ (.inl rfl)
      · next hcf =>
        split at h
        · cases h
          exact .refused _ (.inr (.inl rfl))
        · next hver =>
          split at h
          · cases h
            exact .refused _ (.inr (.inr rfl))
          · next hprin =>
            cases h
            exact .renewed c hc (not_not.mp hcf) (not_not.mp hver) (not_not.mp hprin)
    · split at h
      · next hcf => exact .of_unconfirmed hc (Bool.eq_false_iff.mpr hcf) h
      · next hcf =>
        split at h
        · next hprin =>
          cases h
          exact .collided c hc (not_not.mp hcf) hprin
        · next hprin =>
          split at h
          · next hver =>
            obtain ⟨rfl, henr⟩ := replaceWhenConfirmed_some h
            exact .succeeded c hc (not_not.mp hcf) (not_not.mp hprin) hver henr
          · next hver =>
            cases h
            exact .renewed c hc (not_not.mp hcf) (not_not.mp hver) (not_not.mp hprin)

end Flint.Clients
