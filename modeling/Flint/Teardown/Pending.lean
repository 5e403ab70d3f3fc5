import Flint.Teardown.Tables

/-!
# What is pending for a client

The invariant is about the tables together with the set of the actions that are pending, in whatever
thread they are.

An action serves its client (`Action.serves`) or tears it down (`Action.tears`), and no client has
both at once (`Inv.apart`), which is the condition on the runs. While a client is retired a pending
action removes each of its entries (`Covered`), by name or in a pass over their table. Every entry
of a client that is not served is found in its index. The opens and the lock owners have no index,
and DESTROY_CLIENTID does not look at them; it finds the stateid they stand on (`Inv.backed`).
-/

open Bool

namespace Flint.Teardown

open StateIds (Bytes OpenKey)

/-! ### Whom an action is for -/

namespace Action

def serves : Action → Option ClientId
  | .renewLease c | .createLease c | .persistClient c _ | .insertClient c | .setPendingReplaces c _
  | .checkLease c _ _ _ | .processCreateSessionSeq c _ _ _ | .markConfirmed c _ _
  | .putClientRow c _ | .drawSessionId c _ _ | .lockArm c _ _ | .resolveOwner c _ _ _ => some c
  | .processSequence id _ | .allocate id _ | .updateSeqid id => some id.clientId
  | .openEntry key _ _ | .stampOpen _ key => some key.clientId
  | .cutLock held _ => some held.clientId
  | .put slot _ | .list slot => some slot.client
  | .eraseRow key => some key.client
  | _ => none

def enrols : Action → Bool
  | .persistClient _ _ => true
  | _ => false

def retires : Action → Option ClientId
  | .readSessions c | .readStates c | .dropStates c | .scanOpens c | .takeDelegations c
  | .scanLocks c | .scanLockOwners c | .removeClient c => some c
  | .destroySession id => some id.clientId
  | .removeLock key => some key.client
  | .remove slot => some slot.client
  | _ => none

def tears : Action → Option ClientId
  | .removeLease c | .deleteClientRow c | .countSessions c | .countStates c | .countLocks c
  | .countDelegations c | .removeUnused c => some c
  | action => action.retires

theorem tears_of_retires {a : Action} {c : ClientId} (h : a.retires = some c) :
    a.tears = some c := by
  cases a with
  | removeLease | deleteClientRow | countSessions | countStates | countLocks | countDelegations
  | removeUnused => cases h
  | _ => exact h

theorem tears_of_serves {a : Action} {c : ClientId} (h : a.serves = some c) : a.tears = none := by
  cases a with
  | unlist | lockClient => rfl
  | readSessions | destroySession | readStates | dropStates | scanOpens | takeDelegations
  | scanLocks | removeLock | scanLockOwners | remove | removeClient | removeLease
  | deleteClientRow | countSessions | countStates | countLocks | countDelegations
  | removeUnused => cases h
  | _ => rfl

/-- What DESTROY_CLIENTID has seen to be absent when it comes to the action. -/
def Checked : Action → Slot → Prop
  | .countStates c, slot => slot.client = c ∧ ∃ id, slot = .session id
  | .countLocks c, slot | .countDelegations c, slot => slot.client = c ∧ ∀ id, slot ≠ .delegation id
  | .removeUnused c, slot => slot.client = c
  | _, _ => False

theorem tears_of_checked {a : Action} {slot : Slot} (h : a.Checked slot) :
    a.tears = some slot.client := by
  cases a with
  | countStates | countLocks | countDelegations => exact congrArg some h.1.symm
  | removeUnused => exact congrArg some (Eq.symm h)
  | _ => exact h.elim

structure Quiet (a : Action) : Prop where
  serves : a.serves = none
  retires : a.retires = none
  not_unlist : ∀ id, a ≠ .unlist id

end Action

namespace Slot

def pass : Slot → Action
  | .session id => .readSessions id.clientId
  | .state id | .stateRow id => .readStates id.clientId
  | .opened key => .scanOpens key.clientId
  | .lock key => .scanLocks key.client
  | .lockOwner key | .lockRow key => .scanLockOwners key.client
  | .delegation id => .takeDelegations id.clientId

def remover : Slot → Action
  | .session id => .destroySession id
  | .lock key => .removeLock key
  | slot => .remove slot

theorem pass_retires (slot : Slot) : slot.pass.retires = some slot.client := by
  cases slot with
  | _ => rfl

theorem remover_retires (slot : Slot) : slot.remover.retires = some slot.client := by
  cases slot with
  | _ => rfl

def OnState : Slot → Prop
  | .opened _ | .lock _ | .lockOwner _ | .lockRow _ => True
  | _ => False

end Slot

def Serves (P : Set Action) (c : ClientId) : Prop := ∃ a ∈ P, a.serves = some c

def Tears (P : Set Action) (c : ClientId) : Prop := ∃ a ∈ P, a.tears = some c

def Retires (P : Set Action) (c : ClientId) : Prop := ∃ a ∈ P, a.retires = some c

def Covered (P : Set Action) (slot : Slot) : Prop := slot.pass ∈ P ∨ slot.remover ∈ P

def Known (t : Tables) (P : Set Action) (c : ClientId) : Prop :=
  t.hasClient c ∨ .insertClient c ∈ P

def Backed (t : Tables) (c : ClientId) : Prop :=
  ∃ id : Minted, id.clientId = c ∧ t.has (.stateRow id)

def Listed (t : Tables) (P : Set Action) (id : Minted) : Prop :=
  .state id ∈ t.listed ∨ .list (.state id) ∈ P ∨ ∃ v, .put (.state id) v ∈ P

structure Stock (t : Tables) (P : Set Action) : Prop where
  sessions : ∀ id, t.has (.session id) → .session id ∈ t.listed ∨ .list (.session id) ∈ P
  states : ∀ id, t.has (.state id) →
    .state id ∈ t.listed ∨ .list (.state id) ∈ P ∨ .remove (.state id) ∈ P
  stateRows : ∀ id, t.has (.stateRow id) ∨ (∃ v, .put (.stateRow id) v ∈ P) →
    Listed t P id ∨ .remove (.stateRow id) ∈ P
  delegations : ∀ id, t.has (.delegation id) →
    .delegation id ∈ t.listed ∨ .list (.delegation id) ∈ P ∨ .remove (.delegation id) ∈ P
  dropped : ∀ id : Minted, .dropStates id.clientId ∈ P →
    (t.has (.state id) → .remove (.state id) ∈ P) ∧
      (t.has (.stateRow id) → .remove (.stateRow id) ∈ P)
  unlisted : ∀ id, .unlist id ∈ P → t.has (.session id) = false
  backed : ∀ slot, slot.OnState → t.has slot ∨ (∃ v, .put slot v ∈ P) →
    Backed t slot.client ∨ Retires P slot.client
  owned : ∀ key, t.has (.lockRow key) ∨ (∃ v, .put (.lockRow key) v ∈ P) →
    t.has (.lockOwner key) ∨ (∃ v, .put (.lockOwner key) v ∈ P) ∨ .remove (.lockRow key) ∈ P
  purged : ∀ key, .remove (.lockOwner key) ∈ P → t.has (.lockRow key) →
    .remove (.lockRow key) ∈ P

structure Inv (t : Tables) (P : Set Action) : Prop extends Stock t P where
  apart : ∀ c, Serves P c → ¬Tears P c
  /-- A client that is served has a record, or EXCHANGE_ID is at the very start. -/
  present : ∀ a ∈ P, ∀ c, a.serves = some c → Known t P c ∨ a.enrols
  /-- An entry is removed, or its client has a record and is not being retired. -/
  owed : ∀ slot, t.has slot → Covered P slot ∨ Known t P slot.client ∧ ¬Retires P slot.client
  /-- What DESTROY_CLIENTID has seen to be absent is absent or being removed. -/
  checked : ∀ a ∈ P, ∀ slot, a.Checked slot → t.has slot → Covered P slot
  leaseKnown : ∀ c, t.hasLease c → Known t P c ∨ .removeLease c ∈ P
  leased : ∀ c, Known t P c → t.hasLease c ∨ .createLease c ∈ P
  rowKnown : ∀ c, t.hasClientRow c →
    Known t P c ∨ .deleteClientRow c ∈ P ∨ ∃ r, .persistClient c r ∈ P
  rowed : ∀ c, Known t P c → t.hasClientRow c
  gone : ∀ c, .removeLease c ∈ P ∨ .deleteClientRow c ∈ P → t.hasClient c = false

/-! ### Reading the invariant -/

section Reading

variable {t : Tables} {P Q M : Set Action} {c : ClientId} {slot : Slot} {a : Action}

theorem Serves.of_mem (ha : a ∈ P) (h : a.serves = some c) : Serves P c := ⟨a, ha, h⟩

theorem Tears.of_mem (ha : a ∈ P) (h : a.tears = some c) : Tears P c := ⟨a, ha, h⟩

theorem Retires.of_mem (ha : a ∈ P) (h : a.retires = some c) : Retires P c := ⟨a, ha, h⟩

theorem Retires.tears (h : Retires P c) : Tears P c :=
  let ⟨a, ha, h⟩ := h
  ⟨a, ha, Action.tears_of_retires h⟩

theorem Covered.retires (h : Covered P slot) : Retires P slot.client :=
  h.elim (fun h => .of_mem h slot.pass_retires) fun h => .of_mem h slot.remover_retires

theorem Serves.mono (h : Serves P c) (hPQ : P ⊆ Q) : Serves Q c :=
  let ⟨a, ha, h⟩ := h
  ⟨a, hPQ ha, h⟩

theorem Tears.mono (h : Tears P c) (hPQ : P ⊆ Q) : Tears Q c :=
  let ⟨a, ha, h⟩ := h
  ⟨a, hPQ ha, h⟩

theorem Retires.mono (h : Retires P c) (hPQ : P ⊆ Q) : Retires Q c :=
  let ⟨a, ha, h⟩ := h
  ⟨a, hPQ ha, h⟩

theorem Covered.mono (h : Covered P slot) (hPQ : P ⊆ Q) : Covered Q slot := h.imp (@hPQ _) (@hPQ _)

theorem Known.mono (h : Known t P c) (hPQ : P ⊆ Q) : Known t Q c := h.imp_right (@hPQ _)

theorem Listed.mono {id : Minted} (h : Listed t P id) (hPQ : P ⊆ Q) : Listed t Q id :=
  h.imp_right (Or.imp (@hPQ _) fun ⟨v, hv⟩ => ⟨v, hPQ hv⟩)

theorem serves_union : Serves (P ∪ M) c ↔ Serves P c ∨ Serves M c := by
  simp only [Serves, Set.mem_union, or_and_right, exists_or]

theorem tears_union : Tears (P ∪ M) c ↔ Tears P c ∨ Tears M c := by
  simp only [Tears, Set.mem_union, or_and_right, exists_or]

theorem retires_union : Retires (P ∪ M) c ↔ Retires P c ∨ Retires M c := by
  simp only [Retires, Set.mem_union, or_and_right, exists_or]

namespace Inv

theorem covered (h : Inv t P) (hrets : Retires P slot.client) (hhas : t.has slot) :
    Covered P slot :=
  (h.owed slot hhas).resolve_right fun hnot => hnot.2 hrets

theorem known_of_has (h : Inv t P) (slot : Slot) (htr : ¬Tears P slot.client)
    (hhas : t.has slot) : Known t P slot.client :=
  ((h.owed slot hhas).resolve_left fun hcov => htr hcov.retires.tears).1

theorem not_serves (h : Inv t P) (htr : Tears P c) : ¬Serves P c := fun hsrv => h.apart c hsrv htr

theorem hasClient_of_known (h : Inv t P) (htr : Tears P c) (hkn : Known t P c) : t.hasClient c :=
  hkn.resolve_right fun hins => h.apart c (.of_mem hins rfl) htr

end Inv

end Reading

/-! ### Pending actions come -/

section Moves

variable {t : Tables} {P Q M : Set Action} {c : ClientId}

structure StockGrows (t : Tables) (P M : Set Action) : Prop where
  rows : ∀ id v, .put (.stateRow id) v ∈ M → Listed t (P ∪ M) id
  dropped : ∀ id : Minted, .dropStates id.clientId ∈ M →
    (t.has (.state id) → .remove (.state id) ∈ P ∪ M) ∧
      (t.has (.stateRow id) → .remove (.stateRow id) ∈ P ∪ M)
  unlisted : ∀ id, .unlist id ∈ M → t.has (.session id) = false
  backed : ∀ slot v, slot.OnState → .put slot v ∈ M → Backed t slot.client
  owned : ∀ key v, .put (.lockRow key) v ∈ M →
    t.has (.lockOwner key) ∨ ∃ w, .put (.lockOwner key) w ∈ P ∪ M
  purged : ∀ key, .remove (.lockOwner key) ∈ M → t.has (.lockRow key) →
    .remove (.lockRow key) ∈ P ∪ M

structure Grows (t : Tables) (P M : Set Action) : Prop extends StockGrows t P M where
  apart : ∀ c, Serves (P ∪ M) c → ¬Tears (P ∪ M) c
  present : ∀ a ∈ M, ∀ c, a.serves = some c → Known t (P ∪ M) c ∨ a.enrols
  retires : ∀ slot, t.has slot → Retires M slot.client →
    Retires P slot.client ∨ Covered M slot
  checked : ∀ a ∈ M, ∀ slot, a.Checked slot → t.has slot → Covered (P ∪ M) slot
  enrolled : ∀ c, .insertClient c ∈ M →
    (t.hasLease c ∨ .createLease c ∈ P ∪ M) ∧ t.hasClientRow c
  gone : ∀ c, .removeLease c ∈ M ∨ .deleteClientRow c ∈ M → t.hasClient c = false

theorem Stock.grow (h : Stock t P) (g : StockGrows t P M) : Stock t (P ∪ M) := by
  have hsub : P ⊆ P ∪ M := Set.subset_union_left
  refine ⟨?_, ?_, ?_, ?_, ?_, ?_, ?_, ?_, ?_⟩
  · exact fun id hid => (h.sessions id hid).imp_right (@hsub _)
  · exact fun id hid => (h.states id hid).imp_right (Or.imp (@hsub _) (@hsub _))
  · rintro id (hid | ⟨v, hv | hv⟩)
    · exact (h.stateRows id (.inl hid)).imp (fun hl => hl.mono hsub) (@hsub _)
    · exact (h.stateRows id (.inr ⟨v, hv⟩)).imp (fun hl => hl.mono hsub) (@hsub _)
    · exact .inl (g.rows id v hv)
  · exact fun id hid => (h.delegations id hid).imp_right (Or.imp (@hsub _) (@hsub _))
  · rintro id (hid | hid)
    · exact (h.dropped id hid).imp (fun hr hs => hsub (hr hs)) fun hr hs => hsub (hr hs)
    · exact g.dropped id hid
  · exact fun id hid => hid.elim (h.unlisted id) (g.unlisted id)
  · rintro slot hsl (hhas | ⟨v, hv | hv⟩)
    · exact (h.backed slot hsl (.inl hhas)).imp_right fun hr => hr.mono hsub
    · exact (h.backed slot hsl (.inr ⟨v, hv⟩)).imp_right fun hr => hr.mono hsub
    · exact .inl (g.backed slot v hsl hv)
  · have hold : ∀ key, t.has (.lockRow key) ∨ (∃ v, .put (.lockRow key) v ∈ P) →
        t.has (.lockOwner key) ∨ (∃ v, .put (.lockOwner key) v ∈ P ∪ M) ∨
          .remove (.lockRow key) ∈ P ∪ M := fun key hk =>
      (h.owned key hk).imp_right (Or.imp (fun ⟨v, hv⟩ => ⟨v, hsub hv⟩) (@hsub _))
    rintro key (hhas | ⟨v, hv | hv⟩)
    · exact hold key (.inl hhas)
    · exact hold key (.inr ⟨v, hv⟩)
    · exact (g.owned key v hv).imp_right .inl
  · rintro key (hkey | hkey) hhas
    · exact hsub (h.purged key hkey hhas)
    · exact g.purged key hkey hhas

theorem StockGrows.of_quiet (hM : ∀ a ∈ M, a.Quiet) : StockGrows t P M where
  rows := fun id v ha => by cases (hM _ ha).serves
  dropped := fun id ha => by cases (hM _ ha).retires
  unlisted := fun id ha => absurd rfl ((hM _ ha).not_unlist id)
  backed := fun slot v _ ha => by cases (hM _ ha).serves
  owned := fun key v ha => by cases (hM _ ha).serves
  purged := fun key ha => by cases (hM _ ha).retires

namespace Inv

theorem grow (h : Inv t P) (g : Grows t P M) : Inv t (P ∪ M) := by
  have hsub : P ⊆ P ∪ M := Set.subset_union_left
  -- a client that was not known before is one that is being enrolled
  have hkn : ∀ c, Known t (P ∪ M) c → Known t P c ∨ .insertClient c ∈ M := fun c hc =>
    hc.elim (fun hc => .inl (.inl hc)) (Or.imp_left .inr)
  refine ⟨h.toStock.grow g.toStockGrows, g.apart, ?_, ?_, ?_, ?_, ?_, ?_, ?_, ?_⟩
  · rintro a (ha | ha) c hc
    · exact (h.present a ha c hc).imp_left fun hc => hc.mono hsub
    · exact g.present a ha c hc
  · intro slot hhas
    rcases h.owed slot hhas with hcov | ⟨hkn, hrets⟩
    · exact .inl (hcov.mono hsub)
    · by_cases hM : Retires M slot.client
      · exact .inl (((g.retires slot hhas hM).resolve_left hrets).mono Set.subset_union_right)
      · exact .inr ⟨hkn.mono hsub, fun hr => (retires_union.mp hr).elim hrets hM⟩
  · rintro a (ha | ha) slot hchk hhas
    · exact (h.checked a ha slot hchk hhas).mono hsub
    · exact g.checked a ha slot hchk hhas
  · exact fun c hc => (h.leaseKnown c hc).imp (fun hc => hc.mono hsub) (@hsub _)
  · intro c hc
    rcases hkn c hc with hc | hc
    · exact (h.leased c hc).imp_right (@hsub _)
    · exact (g.enrolled c hc).1
  · exact fun c hc => (h.rowKnown c hc).imp (fun hc => hc.mono hsub)
      (Or.imp (@hsub _) fun ⟨r, hr⟩ => ⟨r, hsub hr⟩)
  · exact fun c hc => (hkn c hc).elim (h.rowed c) fun hc => (g.enrolled c hc).2
  · rintro c ((hc | hc) | (hc | hc))
    · exact h.gone c (.inl hc)
    · exact g.gone c (.inl hc)
    · exact h.gone c (.inr hc)
    · exact g.gone c (.inr hc)

theorem serve_enrolling (h : Inv t P) (hM : ∀ a ∈ M, a.serves = some c)
    (hkn : Known t (P ∪ M) c) (htr : ¬Tears P c) (enrolled : .insertClient c ∈ M →
      (t.hasLease c ∨ .createLease c ∈ P ∪ M) ∧ t.hasClientRow c)
    (rows : ∀ id v, .put (.stateRow id) v ∈ M → Listed t (P ∪ M) id)
    (backed : ∀ slot v, slot.OnState → .put slot v ∈ M → Backed t slot.client)
    (owned : ∀ key v, .put (.lockRow key) v ∈ M →
      t.has (.lockOwner key) ∨ ∃ w, .put (.lockOwner key) w ∈ P ∪ M) : Inv t (P ∪ M) := by
  have hnot : ∀ a ∈ M, ∀ c', a.tears ≠ some c' := fun a ha c' hc' => by
    rw [Action.tears_of_serves (hM a ha)] at hc'
    cases hc'
  have hkn' : ∀ c', Serves M c' → c' = c := fun c' ⟨a, ha, hc'⟩ => Option.mem_unique hc' (hM a ha)
  refine h.grow
    { rows, backed, owned, dropped := ?_, unlisted := ?_, purged := ?_
      apart := ?_, present := ?_, retires := ?_, checked := ?_, enrolled := ?_, gone := ?_ }
  · exact fun id ha => absurd rfl (hnot _ ha id.clientId)
  · exact fun id ha => by cases hM _ ha
  · exact fun key ha => absurd rfl (hnot _ ha key.client)
  · rintro c' hsrv htr'
    have htr' := (tears_union.mp htr').resolve_right fun ⟨a, ha, hc'⟩ => hnot a ha c' hc'
    rcases serves_union.mp hsrv with hsrv | hsrv
    · exact h.apart c' hsrv htr'
    · exact htr (hkn' c' hsrv ▸ htr')
  · intro a ha c' hc'
    obtain rfl := hkn' c' ⟨a, ha, hc'⟩
    exact .inl hkn
  · exact fun slot _ ⟨a, ha, hr⟩ => absurd (Action.tears_of_retires hr) (hnot a ha _)
  · exact fun a ha slot hchk => absurd (Action.tears_of_checked hchk) (hnot a ha _)
  · intro c' hc'
    obtain rfl := hkn' c' ⟨_, hc', rfl⟩
    exact enrolled hc'
  · exact fun c' hc' => hc'.elim (fun ha => absurd rfl (hnot _ ha c'))
      fun ha => absurd rfl (hnot _ ha c')

theorem serve (h : Inv t P) (hM : ∀ a ∈ M, a.serves = some c) (hkn : Known t P c)
    (htr : ¬Tears P c) (rows : ∀ id v, .put (.stateRow id) v ∈ M → Listed t (P ∪ M) id)
    (backed : ∀ slot v, slot.OnState → .put slot v ∈ M → Backed t slot.client)
    (owned : ∀ key v, .put (.lockRow key) v ∈ M →
      t.has (.lockOwner key) ∨ ∃ w, .put (.lockOwner key) w ∈ P ∪ M) : Inv t (P ∪ M) :=
  h.serve_enrolling hM (hkn.mono Set.subset_union_left) htr
    (fun _ => ⟨(h.leased c hkn).imp_right .inl, h.rowed c hkn⟩) rows backed owned

theorem tear (h : Inv t P) (hM : ∀ a ∈ M, ∃ c, a.tears = some c ∧ ¬Serves P c)
    (retires : ∀ slot, t.has slot → Retires M slot.client → Retires P slot.client ∨ Covered M slot)
    (checked : ∀ a ∈ M, ∀ slot, a.Checked slot → t.has slot → Covered (P ∪ M) slot)
    (gone : ∀ c, .removeLease c ∈ M ∨ .deleteClientRow c ∈ M → t.hasClient c = false)
    (dropped : ∀ id : Minted, .dropStates id.clientId ∈ M →
      (t.has (.state id) → .remove (.state id) ∈ P ∪ M) ∧
        (t.has (.stateRow id) → .remove (.stateRow id) ∈ P ∪ M))
    (purged : ∀ key, .remove (.lockOwner key) ∈ M → t.has (.lockRow key) →
      .remove (.lockRow key) ∈ P ∪ M) : Inv t (P ∪ M) := by
  have hnot : ∀ a ∈ M, ∀ c', a.serves ≠ some c' := fun a ha c' hc' => by
    obtain ⟨c, hc, -⟩ := hM a ha
    rw [Action.tears_of_serves hc'] at hc
    cases hc
  refine h.grow
    { retires, checked, gone, dropped, purged := purged
      rows := ?_, unlisted := ?_, backed := ?_, owned := ?_, apart := ?_, present := ?_
      enrolled := ?_ }
  · exact fun id v ha => absurd rfl (hnot _ ha id.clientId)
  · intro id ha
    obtain ⟨c, hc, -⟩ := hM _ ha
    cases hc
  · exact fun slot v _ ha => absurd rfl (hnot _ ha slot.client)
  · exact fun key v ha => absurd rfl (hnot _ ha key.client)
  · rintro c' hsrv htr
    have hsrv := (serves_union.mp hsrv).resolve_right fun ⟨a, ha, hc'⟩ => hnot a ha c' hc'
    rcases tears_union.mp htr with htr | ⟨a, ha, hc'⟩
    · exact h.apart c' hsrv htr
    · obtain ⟨c, hc, hserved⟩ := hM a ha
      rw [Option.mem_unique hc' hc] at hsrv
      exact hserved hsrv
  · exact fun a ha c' hc' => absurd hc' (hnot a ha c')
  · exact fun c' ha => absurd rfl (hnot _ ha c')

end Inv

end Moves

/-! ### A pending action goes -/

def Spent (t : Tables) (Q : Set Action) : Action → Prop
  | .insertClient c => t.hasClient c
  | .createLease c => t.hasLease c
  | .persistClient c _ => t.hasClientRow c → Known t Q c
  | .put (.state id) _ => Listed t Q id
  | .put (.lockOwner key) _ => t.has (.lockOwner key)
  | .list slot => slot ∈ t.listed
  | .readSessions c => ∀ id : SessionId, id.clientId = c → t.has (.session id) →
      .destroySession id ∈ Q
  | .destroySession id => t.has (.session id) = false
  | .readStates c => ∀ id : Minted, id.clientId = c →
      (t.has (.state id) → .remove (.state id) ∈ Q) ∧
        (t.has (.stateRow id) → .remove (.stateRow id) ∈ Q)
  | .scanOpens c => ∀ key : OpenKey, key.clientId = c → t.has (.opened key) →
      .remove (.opened key) ∈ Q
  | .takeDelegations c => ∀ id : Minted, id.clientId = c → t.has (.delegation id) →
      .remove (.delegation id) ∈ Q
  | .scanLocks c => ∀ key : LockKey, key.client = c → t.has (.lock key) →
      .removeLock key ∈ Q
  | .removeLock key => t.has (.lock key) = false
  | .scanLockOwners c => ∀ key : LockKey, key.client = c →
      (t.has (.lockOwner key) → .remove (.lockOwner key) ∈ Q) ∧
        (t.has (.lockRow key) → .remove (.lockRow key) ∈ Q)
  | .remove slot => t.has slot = false
  | .removeLease c => t.hasLease c = false
  | .deleteClientRow c => t.hasClientRow c = false
  | _ => True

section Dropping

variable {t : Tables} {P Q M : Set Action} {a : Action} {c : ClientId} {slot : Slot}

theorem Spent.covered_of_pass (h : Spent t Q slot.pass) (hhas : t.has slot) : Covered Q slot := by
  refine .inr ?_
  cases slot with
  | session id | delegation id => exact h id rfl hhas
  | state id => exact (h id rfl).1 hhas
  | opened key | lock key => exact h key rfl hhas
  | lockOwner key => exact (h key rfl).1 hhas
  | stateRow id => exact (h id rfl).2 hhas
  | lockRow key => exact (h key rfl).2 hhas

theorem Spent.absent_of_remover (h : Spent t Q slot.remover) : t.has slot = false := by
  cases slot with
  | _ => exact h

def Spends (t : Tables) (P Q : Set Action) : Prop := ∀ a ∈ P, a ∈ Q ∨ Spent t Q a

namespace Spends

variable (h : Spends t P Q)

include h

theorem covered (hcov : Covered P slot) (hhas : t.has slot) : Covered Q slot := by
  rcases hcov with hpass | hremover
  · rcases h _ hpass with hpass | hsp
    · exact .inl hpass
    · exact hsp.covered_of_pass hhas
  · rcases h _ hremover with hremover | hsp
    · exact .inr hremover
    · exact absurd hhas (eq_false_iff.mp hsp.absent_of_remover)

theorem removed (hrem : .remove slot ∈ P) (hhas : t.has slot) : .remove slot ∈ Q :=
  (h _ hrem).resolve_right fun hsp => eq_false_iff.mp hsp hhas

theorem listed (hli : slot ∈ t.listed ∨ .list slot ∈ P) : slot ∈ t.listed ∨ .list slot ∈ Q :=
  hli.elim .inl fun hli => (h _ hli).symm

theorem stateListed {id : Minted} (hlis : Listed t P id) : Listed t Q id := by
  rcases hlis with hlis | hli | ⟨v, hv⟩
  · exact .inl hlis
  · exact (h.listed (.inr hli)).imp_right .inl
  · rcases h _ hv with hv | hsp
    · exact .inr (.inr ⟨v, hv⟩)
    · exact hsp

theorem known (hkn : Known t P c) : Known t Q c := hkn.elim .inl fun hins => (h _ hins).symm

end Spends

theorem Inv.shrink (h : Inv t P) (hsub : Q ⊆ P) (hspd : Spends t P Q) : Inv t Q := by
  have hrmd : ∀ slot, (t.has slot → .remove slot ∈ P) →
      t.has slot → .remove slot ∈ Q := fun slot hr hhas => hspd.removed (hr hhas) hhas
  have hidx : ∀ {slot}, (slot ∈ t.listed ∨ .list slot ∈ P ∨ .remove slot ∈ P) →
      t.has slot → slot ∈ t.listed ∨ .list slot ∈ Q ∨ .remove slot ∈ Q := by
    rintro slot (hl | hl | hr) hhas
    · exact .inl hl
    · exact (hspd.listed (.inr hl)).imp_right .inl
    · exact .inr (.inr (hspd.removed hr hhas))
  refine ⟨⟨?_, ?_, ?_, ?_, ?_, ?_, ?_, ?_, ?_⟩, ?_, ?_, ?_, ?_, ?_, ?_, ?_, ?_, ?_⟩
  · exact fun id hid => hspd.listed (h.sessions id hid)
  · exact fun id hid => hidx (h.states id hid) hid
  · intro id hid
    rcases h.stateRows id (hid.imp_right fun ⟨v, hv⟩ => ⟨v, hsub hv⟩) with hl | hr
    · exact .inl (hspd.stateListed hl)
    · rcases hid with hid | ⟨v, hv⟩
      · exact .inr (hspd.removed hr hid)
      · -- a row that is about to be written is not one that is removed
        exact absurd (Tears.of_mem hr rfl) (h.apart id.clientId (.of_mem (hsub hv) rfl))
  · exact fun id hid => hidx (h.delegations id hid) hid
  · exact fun id hid => (h.dropped id (hsub hid)).imp (hrmd _) (hrmd _)
  · exact fun id hid => h.unlisted id (hsub hid)
  · intro slot hsl hhas
    rcases h.backed slot hsl (hhas.imp_right fun ⟨v, hv⟩ => ⟨v, hsub hv⟩) with hb | hr
    · exact .inl hb
    · rcases hhas with hhas | ⟨v, hv⟩
      · -- an entry of a client that is retired is covered, and so its client is still retired
        exact .inr (hspd.covered (h.covered hr hhas) hhas).retires
      · exact absurd hr.tears (h.apart slot.client (.of_mem (hsub hv) rfl))
  · intro key hkey
    rcases h.owned key (hkey.imp_right fun ⟨v, hv⟩ => ⟨v, hsub hv⟩) with ho | ⟨v, hv⟩ | hr
    · exact .inl ho
    · rcases hspd _ hv with hv | hsp
      · exact .inr (.inl ⟨v, hv⟩)
      · exact .inl hsp
    · rcases hkey with hkey | ⟨v, hv⟩
      · exact .inr (.inr (hspd.removed hr hkey))
      · exact absurd (Tears.of_mem hr rfl) (h.apart key.client (.of_mem (hsub hv) rfl))
  · exact fun key hkey => hrmd _ (h.purged key (hsub hkey))
  · exact fun c hsrv htr => h.apart c (hsrv.mono hsub) (htr.mono hsub)
  · exact fun b hb c hc => (h.present b (hsub hb) c hc).imp_left hspd.known
  · intro slot hhas
    rcases h.owed slot hhas with hcov | ⟨hkn, hnot⟩
    · exact .inl (hspd.covered hcov hhas)
    · exact .inr ⟨hspd.known hkn, fun hr => hnot (hr.mono hsub)⟩
  · exact fun b hb slot hchk hhas => hspd.covered (h.checked b (hsub hb) slot hchk hhas) hhas
  · intro c hc
    rcases h.leaseKnown c hc with hkn | hrem
    · exact .inl (hspd.known hkn)
    · exact .inr ((hspd _ hrem).resolve_right fun hgo => eq_false_iff.mp hgo hc)
  · intro c hc
    rcases h.leased c (hc.mono hsub) with hls | hcreate
    · exact .inl hls
    · exact (hspd _ hcreate).symm
  · intro c hc
    rcases h.rowKnown c hc with hkn | hdelete | ⟨r, hr⟩
    · exact .inl (hspd.known hkn)
    · refine .inr (.inl ((hspd _ hdelete).resolve_right fun hgo => ?_))
      exact eq_false_iff.mp hgo hc
    · rcases hspd _ hr with hr | hsp
      · exact .inr (.inr ⟨r, hr⟩)
      · exact .inl (hsp hc)
  · exact fun c hc => h.rowed c (hc.mono hsub)
  · exact fun c hc => h.gone c (hc.imp (@hsub _) (@hsub _))

theorem Inv.drop (h : Inv t (insert a Q ∪ M)) (hsp : Spent t (Q ∪ M) a) : Inv t (Q ∪ M) := by
  refine h.shrink (Set.union_subset_union_left M (Set.subset_insert a Q)) ?_
  rintro b ((rfl | hb) | hb)
  · exact .inr hsp
  · exact .inl (.inl hb)
  · exact .inl (.inr hb)

end Dropping

/-! ### One write to a table -/

namespace Tables

theorem has_put {t : Tables} {slot s : Slot} {v : Val} :
    (t.put slot v).has s ↔ s = slot ∨ t.has s := t.entries.isSome_insert slot s v

theorem has_erase {t : Tables} {slot s : Slot} :
    (t.erase slot).has s ↔ s ≠ slot ∧ t.has s := t.entries.isSome_erase slot s

theorem has_erase_self (t : Tables) (slot : Slot) : (t.erase slot).has slot = false :=
  eq_false_iff.mpr fun h => (has_erase.mp h).1 rfl

end Tables

section Writes

open Tables List

variable {t : Tables} {P : Set Action} {c : ClientId} {slot : Slot} {v : Val}

theorem Backed.put (h : Backed t c) : Backed (t.put slot v) c :=
  let ⟨id, hid, hhas⟩ := h
  ⟨id, hid, has_put.mpr (.inr hhas)⟩

namespace Inv

theorem not_tears_of_put {b : Action} (h : Inv t P) (hput : .put slot v ∈ P) (hb : b ∈ P) :
    b.tears ≠ some slot.client := fun htr =>
  h.apart slot.client (.of_mem hput rfl) (.of_mem hb htr)

theorem put (h : Inv t P) (hput : .put slot v ∈ P) (hli : ∀ b ∈ slot.listing, b ∈ P)
    (hunl : ∀ id, slot = .session id → .unlist id ∉ P) : Inv (t.put slot v) P := by
  have htr : ¬Tears P slot.client := h.apart slot.client (.of_mem hput rfl)
  -- the entry that is there now was to be written
  have hwas : ∀ {s}, ((t.put slot v).has s ∨ ∃ w, .put s w ∈ P) → t.has s ∨ ∃ w, .put s w ∈ P := by
    rintro s (hs | hs)
    · rcases has_put.mp hs with rfl | hs
      · exact .inr ⟨v, hput⟩
      · exact .inl hs
    · exact .inr hs
  have hkp : ∀ {s b}, b ∈ P → b.tears = some s.client → (t.put slot v).has s → t.has s := by
    intro s b hb ht hs
    rcases has_put.mp hs with rfl | hs
    · exact absurd ht (h.not_tears_of_put hput hb)
    · exact hs
  refine { h with
    sessions := ?_, states := ?_, delegations := ?_, unlisted := ?_, owed := ?_
    dropped := fun id hid => (h.dropped id hid).imp (fun hr hs => hr (hkp hid rfl hs))
      fun hr hs => hr (hkp hid rfl hs)
    purged := fun key hkey hs => h.purged key hkey (hkp hkey rfl hs)
    checked := fun b hb s hchk hs =>
      h.checked b hb s hchk (hkp hb (Action.tears_of_checked hchk) hs)
    stateRows := fun id hid => h.stateRows id (hwas hid)
    backed := fun s hsl hs => (h.backed s hsl (hwas hs)).imp_left Backed.put
    owned := fun key hkey => (h.owned key (hwas hkey)).imp_left fun ho => has_put.mpr (.inr ho) }
  · intro id hid
    rcases has_put.mp hid with rfl | hid
    · exact .inr (hli _ (mem_singleton.mpr rfl))
    · exact h.sessions id hid
  · intro id hid
    rcases has_put.mp hid with rfl | hid
    · exact .inr (.inl (hli _ (mem_singleton.mpr rfl)))
    · exact h.states id hid
  · intro id hid
    rcases has_put.mp hid with rfl | hid
    · exact .inr (.inl (hli _ (mem_singleton.mpr rfl)))
    · exact h.delegations id hid
  · refine fun id hid => eq_false_iff.mpr fun hs => ?_
    rcases has_put.mp hs with rfl | hs
    · exact hunl id rfl hid
    · exact eq_false_iff.mp (h.unlisted id hid) hs
  · intro s hs
    rcases has_put.mp hs with rfl | hs
    · have hkn := (h.present _ hput s.client rfl).resolve_right false_ne_true
      exact .inr ⟨hkn, fun hr => htr hr.tears⟩
    · exact h.owed s hs

theorem erase (h : Inv t P) (hrow : ∀ id, slot = .stateRow id → Retires P id.clientId)
    (hown : ∀ key, slot = .lockOwner key → .remove (.lockOwner key) ∈ P) :
    Inv (t.erase slot) P := by
  have hold : ∀ s, (t.erase slot).has s → t.has s := fun s hs => (has_erase.mp hs).2
  refine { h with
    owed := fun s hs => h.owed s (hold s hs)
    checked := fun b hb s hchk hs => h.checked b hb s hchk (hold s hs)
    sessions := fun id hid => h.sessions id (hold _ hid)
    states := fun id hid => h.states id (hold _ hid)
    stateRows := fun id hid => h.stateRows id (hid.imp_left (hold _))
    delegations := fun id hid => h.delegations id (hold _ hid)
    dropped := fun id hid =>
      (h.dropped id hid).imp (fun hr hs => hr (hold _ hs)) fun hr hs => hr (hold _ hs)
    unlisted := fun id hid =>
      eq_false_iff.mpr fun hs => eq_false_iff.mp (h.unlisted id hid) (hold _ hs)
    purged := fun key hkey hs => h.purged key hkey (hold _ hs)
    backed := ?_, owned := ?_ }
  · intro s hsl hs
    rcases h.backed s hsl (hs.imp_left (hold s)) with ⟨id, hid, hhas⟩ | hr
    · by_cases heq : slot = .stateRow id
      · exact .inr (hid ▸ hrow id heq)
      · exact .inl ⟨id, hid, has_erase.mpr ⟨fun heq' => heq heq'.symm, hhas⟩⟩
    · exact .inr hr
  · intro key hkey
    rcases h.owned key (hkey.imp_left (hold _)) with ho | ho
    · by_cases heq : slot = .lockOwner key
      · -- the row goes with the registration
        rcases hkey with hkey | ⟨v, hv⟩
        · exact .inr (.inr (h.purged key (hown key heq) (hold _ hkey)))
        · exact absurd (Tears.of_mem (hown key heq) rfl) (h.apart key.client (.of_mem hv rfl))
      · exact .inl (has_erase.mpr ⟨fun heq' => heq heq'.symm, ho⟩)
    · exact .inr ho

theorem enlist (h : Inv t P) (slot : Slot) : Inv { t with listed := t.listed ++ [slot] } P := by
  have hold : ∀ s ∈ t.listed, s ∈ t.listed ++ [slot] := fun s hs => mem_append_left _ hs
  exact { h with
    sessions := fun id hid => (h.sessions id hid).imp_left (hold _)
    states := fun id hid => (h.states id hid).imp_left (hold _)
    stateRows := fun id hid => (h.stateRows id hid).imp_left (Or.imp_left (hold _))
    delegations := fun id hid => (h.delegations id hid).imp_left (hold _) }

theorem delist (h : Inv t P) (p : Slot → Bool)
    (hses : ∀ id, p (.session id) = false → t.has (.session id) = false)
    (hstt : ∀ id, p (.state id) = false → .dropStates id.clientId ∈ P)
    (hdel : ∀ id, p (.delegation id) = false → t.has (.delegation id) →
      .remove (.delegation id) ∈ P) : Inv { t with listed := t.listed.filter p } P := by
  have hfil : ∀ s ∈ t.listed, s ∈ t.listed.filter p ∨ p s = false := fun s hs => by
    cases hp : p s with
    | true => exact .inl (mem_filter.mpr ⟨hs, hp⟩)
    | false => exact .inr rfl
  refine { h with sessions := ?_, states := ?_, stateRows := ?_, delegations := ?_ }
  · intro id hid
    rcases h.sessions id hid with hl | hl
    · refine .inl ((hfil _ hl).resolve_right fun hp => ?_)
      exact eq_false_iff.mp (hses id hp) hid
    · exact .inr hl
  · intro id hid
    rcases h.states id hid with hl | hl
    · rcases hfil _ hl with hl | hp
      · exact .inl hl
      · exact .inr (.inr ((h.dropped id (hstt id hp)).1 hid))
    · exact .inr hl
  · intro id hid
    rcases h.stateRows id hid with (hl | hl) | hr
    · rcases hfil _ hl with hl | hp
      · exact .inl (.inl hl)
      · rcases hid with hid | ⟨v, hv⟩
        · exact .inr ((h.dropped id (hstt id hp)).2 hid)
        · exact absurd (Tears.of_mem (hstt id hp) rfl) (h.apart id.clientId (.of_mem hv rfl))
    · exact .inl (.inr hl)
    · exact .inr hr
  · intro id hid
    rcases h.delegations id hid with hl | hl
    · rcases hfil _ hl with hl | hp
      · exact .inl hl
      · exact .inr (.inr (hdel id hp hid))
    · exact .inr hl

end Inv

end Writes

section Records

variable {t : Tables} {P : Set Action} {c : ClientId}

namespace Inv

variable (h : Inv t P)

include h

theorem record (hkn : Known t P c) (htr : ¬Tears P c) (r : ClientRecord) :
    Inv { t with clients := t.clients.insert c r } P := by
  have hcl : ∀ c', ((t.clients.insert c r).get? c').isSome ↔
      c' = c ∨ t.hasClient c' := fun c' => t.clients.isSome_insert c c' r
  have hold : ∀ c', Known { t with clients := t.clients.insert c r } P c' ↔ Known t P c' := by
    intro c'
    constructor
    · rintro (hc' | hc')
      · rcases (hcl c').mp hc' with rfl | hc'
        · exact hkn
        · exact .inl hc'
      · exact .inr hc'
    · exact Or.imp_left fun hc' => (hcl c').mpr (.inr hc')
  exact { h with
    present := fun a ha c' hc' => (h.present a ha c' hc').imp_left (hold c').mpr
    owed := fun slot hs => (h.owed slot hs).imp_right (And.imp_left (hold slot.client).mpr)
    leaseKnown := fun c' hc' => (h.leaseKnown c' hc').imp_left (hold c').mpr
    leased := fun c' hc' => h.leased c' ((hold c').mp hc')
    rowKnown := fun c' hc' => (h.rowKnown c' hc').imp_left (hold c').mpr
    rowed := fun c' hc' => h.rowed c' ((hold c').mp hc')
    gone := fun c' hc' => eq_false_iff.mpr fun hhas => by
      rcases (hcl c').mp hhas with rfl | hhas
      · exact htr (hc'.elim (fun hm => .of_mem hm rfl) fun hm => .of_mem hm rfl)
      · exact eq_false_iff.mp (h.gone c' hc') hhas }

theorem retire (hsrv : ¬Serves P c)
    (hcov : ∀ slot : Slot, slot.client = c → t.has slot → Covered P slot) :
    Inv { t with clients := t.clients.erase c } (P ∪ {.removeLease c, .deleteClientRow c}) := by
  have hcl : ∀ c', ((t.clients.erase c).get? c').isSome ↔
      c' ≠ c ∧ t.hasClient c' := fun c' => t.clients.isSome_erase c c'
  generalize hM : ({.removeLease c, .deleteClientRow c} : Set Action) = M
  have hmem : ∀ a ∈ M, a = .removeLease c ∨ a = .deleteClientRow c := fun a ha => by
    rwa [← hM] at ha
  have hqt : ∀ a ∈ M, a.Quiet := fun a ha => by
    rcases hmem a ha with rfl | rfl <;> exact ⟨rfl, rfl, fun id heq => by cases heq⟩
  have hsub : P ⊆ P ∪ M := Set.subset_union_left
  have hserved : ∀ c', Serves (P ∪ M) c' → Serves P c' := fun c' hc' =>
    (serves_union.mp hc').resolve_right fun ⟨a, ha, hs⟩ => by
      cases (hqt a ha).serves.symm.trans hs
  have htorn : ∀ c', Tears (P ∪ M) c' → Tears P c' ∨ c' = c := fun c' hc' =>
    (tears_union.mp hc').imp_right fun ⟨a, ha, ht⟩ => by
      rcases hmem a ha with rfl | rfl <;> exact (Option.some.inj ht).symm
  have hret : ∀ c', Retires (P ∪ M) c' → Retires P c' := fun c' hc' =>
    (retires_union.mp hc').resolve_right fun ⟨a, ha, hr⟩ => by
      cases (hqt a ha).retires.symm.trans hr
  -- the other clients are known as before
  have hkn : ∀ c', Known { t with clients := t.clients.erase c } (P ∪ M) c' → Known t P c' :=
    fun c' hc' => hc'.imp (fun hc' => ((hcl c').mp hc').2) fun hc' => hc'.resolve_right
      fun ha => by cases (hqt _ ha).serves
  have hoths : ∀ c', Known t P c' → c' ≠ c →
      Known { t with clients := t.clients.erase c } (P ∪ M) c' := fun c' hc' hne =>
    hc'.imp (fun hc' => (hcl c').mpr ⟨hne, hc'⟩) (@hsub _)
  have hls : .removeLease c ∈ M := hM ▸ Set.mem_insert _ _
  have hrow : .deleteClientRow c ∈ M := hM ▸ Set.mem_insert_of_mem _ rfl
  refine { h.toStock.grow (.of_quiet hqt) with
    apart := ?_, present := ?_, owed := ?_, checked := ?_, leaseKnown := ?_, leased := ?_
    rowKnown := ?_, rowed := ?_, gone := ?_ }
  · intro c' hs ht
    rcases htorn c' ht with ht | rfl
    · exact h.apart c' (hserved c' hs) ht
    · exact hsrv (hserved c' hs)
  · rintro a (ha | ha) c' hc'
    · have hne : c' ≠ c := fun heq => hsrv (heq ▸ .of_mem ha hc')
      exact (h.present a ha c' hc').imp_left fun hk => hoths c' hk hne
    · cases (hqt a ha).serves.symm.trans hc'
  · intro slot hhas
    by_cases heq : slot.client = c
    · exact .inl ((hcov slot heq hhas).mono hsub)
    · exact (h.owed slot hhas).imp (fun hc => hc.mono hsub) fun ⟨hk, hr⟩ =>
        ⟨hoths _ hk heq, fun hr' => hr (hret _ hr')⟩
  · rintro a (ha | ha) slot hchk hhas
    · exact (h.checked a ha slot hchk hhas).mono hsub
    · rcases hmem a ha with rfl | rfl <;> exact hchk.elim
  · intro c' hc'
    by_cases heq : c' = c
    · exact .inr (.inr (heq ▸ hls))
    · exact (h.leaseKnown c' hc').imp (fun hk => hoths c' hk heq) (@hsub _)
  · exact fun c' hc' => (h.leased c' (hkn c' hc')).imp_right (@hsub _)
  · intro c' hc'
    by_cases heq : c' = c
    · exact .inr (.inl (.inr (heq ▸ hrow)))
    · exact (h.rowKnown c' hc').imp (fun hk => hoths c' hk heq)
        (Or.imp (@hsub _) fun ⟨r, hr⟩ => ⟨r, hsub hr⟩)
  · exact fun c' hc' => h.rowed c' (hkn c' hc')
  · intro c' hc'
    refine eq_false_iff.mpr fun hhas => ?_
    obtain ⟨hne, hhas⟩ := (hcl c').mp hhas
    refine eq_false_iff.mp (h.gone c' ?_) hhas
    refine hc'.imp (fun ha => ha.resolve_right ?_) fun ha => ha.resolve_right ?_
    · intro ha
      rcases hmem _ ha with ha | ha
      · exact hne (Action.removeLease.inj ha)
      · cases ha
    · intro ha
      rcases hmem _ ha with ha | ha
      · cases ha
      · exact hne (Action.deleteClientRow.inj ha)

theorem lease (hkn : Known t P c) (l : Lease) : Inv { t with leases := t.leases.insert c l } P := by
  have hls : ∀ c', ((t.leases.insert c l).get? c').isSome ↔
      c' = c ∨ t.hasLease c' := fun c' => t.leases.isSome_insert c c' l
  refine { h with leaseKnown := ?_, leased := ?_ }
  · intro c' hc'
    rcases (hls c').mp hc' with rfl | hc'
    · exact .inl hkn
    · exact h.leaseKnown c' hc'
  · exact fun c' hc' => (h.leased c' hc').imp_left fun hl => (hls c').mpr (.inr hl)

theorem not_known_of_gone (hc : .removeLease c ∈ P ∨ .deleteClientRow c ∈ P) : ¬Known t P c := by
  have htr : Tears P c := hc.elim (fun hm => .of_mem hm rfl) fun hm => .of_mem hm rfl
  exact fun hkn => eq_false_iff.mp (h.gone c hc) (h.hasClient_of_known htr hkn)

theorem dropLease (hc : .removeLease c ∈ P) : Inv { t with leases := t.leases.erase c } P := by
  have hls : ∀ c', ((t.leases.erase c).get? c').isSome ↔
      c' ≠ c ∧ t.hasLease c' := fun c' => t.leases.isSome_erase c c'
  refine { h with leaseKnown := fun c' hc' => h.leaseKnown c' ((hls c').mp hc').2, leased := ?_ }
  intro c' hc'
  have hne : c' ≠ c := fun heq => h.not_known_of_gone (.inl hc) (heq ▸ hc')
  exact (h.leased c' hc').imp_left fun hl => (hls c').mpr ⟨hne, hl⟩

theorem clientRow (hkn : Known t P c ∨ ∃ r, .persistClient c r ∈ P)
    (confirmed : Bool) : Inv { t with clientRows := t.clientRows.insert c confirmed } P := by
  have hrow : ∀ c', ((t.clientRows.insert c confirmed).get? c').isSome ↔
      c' = c ∨ t.hasClientRow c' := fun c' => t.clientRows.isSome_insert c c' confirmed
  refine { h with rowKnown := ?_, rowed := fun c' hc' => (hrow c').mpr (.inr (h.rowed c' hc')) }
  intro c' hc'
  rcases (hrow c').mp hc' with rfl | hc'
  · exact hkn.imp_right .inr
  · exact h.rowKnown c' hc'

theorem dropClientRow (hc : .deleteClientRow c ∈ P) :
    Inv { t with clientRows := t.clientRows.erase c } P := by
  have hrow : ∀ c', ((t.clientRows.erase c).get? c').isSome ↔
      c' ≠ c ∧ t.hasClientRow c' := fun c' => t.clientRows.isSome_erase c c'
  refine { h with rowKnown := fun c' hc' => h.rowKnown c' ((hrow c').mp hc').2, rowed := ?_ }
  intro c' hc'
  have hne : c' ≠ c := fun heq => h.not_known_of_gone (.inr hc) (heq ▸ hc')
  exact (hrow c').mpr ⟨hne, h.rowed c' hc'⟩

end Inv

end Records

end Flint.Teardown
