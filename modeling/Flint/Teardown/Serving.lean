import Flint.Teardown.Pending

/-!
# Every action keeps the invariant

One lemma for each action that a handler takes (`Inv.exec`), and for the first access of a request
(`Inv.start`). In each, the actions that follow become pending while the action taken still is, then
the tables change, and then the action goes.
-/

namespace Flint.Teardown

open Tables Slot List Option

open StateIds (Bytes OpenKey)

def Action.writes : Action → Bool
  | .put _ _ => true
  | _ => false

def follow (answer : Option (List Action)) : Set Action := { b | b ∈ answer.getD [] }

/-- Taking the action keeps the invariant, whatever else is pending. -/
def Keeps (t : Tables) (Q : Set Action) (a : Action) : Prop :=
  Inv t (insert a Q) → Inv (t.exec a).1 (Q ∪ follow (t.exec a).2)

/-- The action has no part in what is written for a client or removed: it finds the client first, or
it makes it. -/
def Action.inert : Action → Bool
  | .persistClient _ _ | .lockClient _ | .unlist _ | .countSessions _ => true
  | _ => false

theorem Inv.adds {t : Tables} {P : Set Action} {b : Action} (h : Inv t P) (hb : b.inert)
    (hsrv : ∀ c, b.serves = some c → ¬Tears P c) (htr : ∀ c, b.tears = some c → ¬Serves P c)
    (hunl : ∀ id, b = .unlist id → t.has (.session id) = false) :
    Inv t (P ∪ follow (some [b])) := by
  have hmem : ∀ b' ∈ follow (some [b]), b' = b := fun b' hb' => mem_singleton.mp hb'
  have hinert : ∀ b' ∈ follow (some [b]), b'.inert := fun b' hb' => hmem b' hb' ▸ hb
  have hrets : b.retires = none := by
    cases b with
    | persistClient | lockClient | unlist | countSessions => rfl
    | _ => cases hb
  refine h.grow
    { rows := fun _ _ hb' => by cases hinert _ hb'
      dropped := fun _ hb' => by cases hinert _ hb'
      unlisted := fun id hb' => hunl id (hmem _ hb').symm
      backed := fun _ _ _ hb' => by cases hinert _ hb'
      owned := fun _ _ hb' => by cases hinert _ hb'
      purged := fun _ hb' => by cases hinert _ hb'
      apart := ?_, present := ?_, retires := ?_, checked := ?_
      enrolled := fun _ hb' => by cases hinert _ hb'
      gone := fun _ hb' => by rcases hb' with hb' | hb' <;> cases hinert _ hb' }
  · intro c hs ht
    rcases serves_union.mp hs with hs | ⟨b', hb', hc⟩
    · rcases tears_union.mp ht with ht | ⟨b', hb', hc⟩
      · exact h.apart c hs ht
      · exact htr c (hmem b' hb' ▸ hc) hs
    · rw [hmem b' hb'] at hc
      rcases tears_union.mp ht with ht | ⟨b', hb', hc'⟩
      · exact hsrv c hc ht
      · rw [hmem b' hb', Action.tears_of_serves hc] at hc'
        cases hc'
  · intro b' hb' c hc
    rw [hmem b' hb'] at hc ⊢
    cases b with
    | persistClient => exact .inr rfl
    | lockClient | unlist | countSessions => cases hc
    | _ => cases hb
  · rintro slot - ⟨b', hb', hr⟩
    rw [hmem b' hb', hrets] at hr
    cases hr
  · intro b' hb' slot hchk
    rw [hmem b' hb'] at hchk
    cases b with
    | persistClient | lockClient | unlist | countSessions => exact hchk.elim
    | _ => cases hb

section Serving

variable {t : Tables} {P Q : Set Action} {a : Action} {c : ClientId} {l : List Action}

namespace Inv

theorem known_of_serves (h : Inv t P) (ha : a ∈ P) (hsrv : a.serves = some c)
    (hne : a.enrols = false) : Known t P c :=
  (h.present a ha c hsrv).resolve_right (Bool.eq_false_iff.mp hne)

variable (h : Inv t (insert a Q))

include h

theorem ends (hsp : Spent t Q a) : Inv t (Q ∪ follow none) := by
  have hno : follow none = ∅ := Set.eq_empty_of_forall_notMem fun _ => not_mem_nil
  rw [hno, Set.union_empty]
  exact h.shrink (Set.subset_insert a Q) fun b hb => hb.symm.imp_right fun heq : b = a => heq ▸ hsp

theorem goes_on (hsrv : a.serves = some c) (hne : a.enrols = false)
    (hsp : Spent t (Q ∪ follow (some l)) a) (hl : ∀ b ∈ l, b.serves = some c)
    (rows : ∀ id v, .put (.stateRow id) v ∈ l → Listed t (insert a Q ∪ follow (some l)) id)
    (backed : ∀ slot v, slot.OnState → .put slot v ∈ l → Backed t c)
    (owned : ∀ key v, .put (.lockRow key) v ∈ l → ∃ w, .put (.lockOwner key) w ∈ l) :
    Inv t (Q ∪ follow (some l)) := by
  have ha : a ∈ insert a Q := Set.mem_insert a Q
  have hcl : ∀ slot v, .put slot v ∈ l → slot.client = c := fun slot v hv => some.inj (hl _ hv)
  refine Inv.drop (h.serve hl (h.known_of_serves ha hsrv hne) (h.apart c (.of_mem ha hsrv))
    rows (fun slot v hsl hv => hcl slot v hv ▸ backed slot v hsl hv) ?_) hsp
  exact fun key v hv => .inr ((owned key v hv).imp fun w hw => .inr hw)

theorem goes_on_plain (hsrv : a.serves = some c) (hne : a.enrols = false)
    (hsp : Spent t (Q ∪ follow (some l)) a) (hl : ∀ b ∈ l, b.serves = some c)
    (hput : ∀ slot v, .put slot v ∈ l → ¬slot.OnState ∧ ∀ id, slot ≠ .stateRow id) :
    Inv t (Q ∪ follow (some l)) :=
  h.goes_on hsrv hne hsp hl (fun id v hv => absurd rfl ((hput _ v hv).2 id))
    (fun slot v hsl hv => absurd hsl (hput slot v hv).1)
    fun _ v hv => absurd trivial (hput _ v hv).1

theorem goes_on_with {b : Action} (hsrv : a.serves = some c) (hne : a.enrols = false)
    (hsp : Spent t (Q ∪ follow (some [b])) a) (hb : b.serves = some c) (hput : b.writes = false)
    : Inv t (Q ∪ follow (some [b])) :=
  h.goes_on_plain hsrv hne hsp (fun _ hmem => mem_singleton.mp hmem ▸ hb)
    fun slot v hmem => by
      rw [← mem_singleton.mp hmem] at hput
      cases hput

end Inv

end Serving

section Sessions

variable {t : Tables} {Q : Set Action} {c : ClientId} {id : SessionId}

section

-- The equations of `exec` are made here, so that the proofs below do not all wait for the first.
attribute [local simp] Tables.exec

end

theorem keeps_processSequence (isNew : Bool) : Keeps t Q (.processSequence id isNew) := by
  intro h
  by_cases hhas : t.has (.session id)
  · rw [exec, if_pos hhas]
    cases isNew with
    | true => exact h.goes_on_with rfl rfl trivial rfl rfl
    | false => exact h.ends trivial
  · rw [exec, if_neg hhas]
    exact h.ends trivial

theorem keeps_renewLease : Keeps t Q (.renewLease c) := by
  intro h
  have hkn := h.known_of_serves (Set.mem_insert _ Q) rfl rfl
  rw [exec]
  split
  · exact h.goes_on_with rfl rfl trivial rfl rfl
  · exact h.ends trivial
  · exact (h.lease hkn .running).ends trivial

theorem keeps_createLease : Keeps t Q (.createLease c) := by
  intro h
  have hkn := h.known_of_serves (Set.mem_insert _ Q) rfl rfl
  exact (h.lease hkn .running).ends ((t.leases.isSome_insert c c .running).mpr (.inl rfl))

end Sessions

section Clients

variable {t : Tables} {Q : Set Action} {c : ClientId}

/-! ### EXCHANGE_ID and CREATE_SESSION -/

theorem keeps_persistClient (replaces : Option ClientId) :
    Keeps t Q (.persistClient c replaces) := by
  intro h
  have ha : Action.persistClient c replaces ∈ insert (.persistClient c replaces) Q :=
    Set.mem_insert _ Q
  have hrow := (t.clientRows.isSome_insert c c false).mpr (.inl rfl)
  have h₁ := h.clientRow (.inr ⟨replaces, ha⟩) false
  rw [exec]
  set l : List Action := [.insertClient c, .createLease c] ++
    (replaces.map (.setPendingReplaces c)).toList with hl
  have hmem : ∀ b ∈ l, b.serves = some c ∧ b.writes = false := by
    simp only [hl, mem_append, mem_cons, not_mem_nil, or_false, mem_toList, map_eq_some_iff]
    rintro b ((rfl | rfl) | ⟨old, -, rfl⟩) <;> exact ⟨rfl, rfl⟩
  have hput : ∀ slot v, .put slot v ∉ l := fun slot v hv => by cases (hmem _ hv).2
  have hins : Action.insertClient c ∈ l := .head _
  have hls : Action.createLease c ∈ l := .tail _ (.head _)
  refine Inv.drop (h₁.serve_enrolling (fun b hb => (hmem b hb).1) (.inr (.inr hins))
    (h.apart c (.of_mem ha rfl)) (fun _ => ⟨.inr (.inr hls), hrow⟩) ?_ ?_ ?_)
    fun _ => .inr (.inr hins)
  · exact fun id v hv => absurd hv (hput _ v)
  · exact fun slot v _ hv => absurd hv (hput _ v)
  · exact fun key v hv => absurd hv (hput _ v)

theorem keeps_insertClient : Keeps t Q (.insertClient c) := by
  intro h
  have ha := Set.mem_insert (Action.insertClient c) Q
  refine (h.record (h.known_of_serves ha rfl rfl) (h.apart c (.of_mem ha rfl)) _).ends ?_
  exact (t.clients.isSome_insert c c _).mpr (.inl rfl)

theorem keeps_setPendingReplaces (incumbent : ClientId) :
    Keeps t Q (.setPendingReplaces c incumbent) := by
  intro h
  have ha := Set.mem_insert (Action.setPendingReplaces c incumbent) Q
  rw [exec]
  split
  · next record _ =>
    have h₁ := h.record (h.known_of_serves ha rfl rfl) (h.apart c (.of_mem ha rfl))
      { record with pendingReplaces := some incumbent }
    exact h₁.goes_on_with rfl rfl trivial rfl rfl
  · exact h.ends trivial

theorem keeps_checkLease (random : UInt64) (inOrder underQuota : Bool) :
    Keeps t Q (.checkLease c random inOrder underQuota) := by
  intro h
  rw [exec]
  split
  · exact h.goes_on_with rfl rfl trivial rfl rfl
  · exact h.ends trivial

theorem keeps_processCreateSessionSeq (random : UInt64) (inOrder underQuota : Bool) :
    Keeps t Q (.processCreateSessionSeq c random inOrder underQuota) := by
  intro h
  rw [exec]
  split
  · exact h.goes_on_with rfl rfl trivial rfl rfl
  · exact h.ends trivial

theorem keeps_putClientRow (confirmed : Bool) : Keeps t Q (.putClientRow c confirmed) := by
  intro h
  have hkn := h.known_of_serves (Set.mem_insert _ Q) rfl rfl
  exact (h.clientRow (.inl hkn) confirmed).ends trivial

theorem keeps_drawSessionId (random : UInt64) (underQuota : Bool) :
    Keeps t Q (.drawSessionId c random underQuota) := by
  intro h
  rw [exec]
  split
  · refine h.goes_on_plain rfl rfl trivial (fun b hb => ?_) fun slot v hv => ?_
    · rw [mem_singleton.mp hb]
      rfl
    · obtain ⟨rfl, -⟩ := Action.put.inj (mem_singleton.mp hv)
      exact ⟨id, fun id heq => by cases heq⟩
  · exact h.ends trivial

end Clients

section Holding

variable {t : Tables} {P Q : Set Action} {c : ClientId} {id : Minted}

/-! ### OPEN and LOCK -/

namespace Inv

theorem listed_of_has (h : Inv t P) (hsrv : Serves P id.clientId) (hhas : t.has (.state id))
    : Listed t P id := by
  rcases h.states id hhas with hl | hl | hr
  · exact .inl hl
  · exact .inr (.inl hl)
  · exact absurd (Tears.of_mem hr rfl) (h.apart id.clientId hsrv)

theorem backed_of_has {slot : Slot} (h : Inv t P) (hsrv : Serves P slot.client) (hsl : slot.OnState)
    (hhas : t.has slot) : Backed t slot.client :=
  (h.backed slot hsl (.inl hhas)).resolve_right fun hr => h.apart _ hsrv hr.tears

theorem goes_on_with_row {a : Action} (h : Inv t (insert a Q)) (v : Val)
    (hsrv : a.serves = some id.clientId) (hne : a.enrols = false)
    (hsp : Spent t (Q ∪ follow (some [.put (.stateRow id) v])) a) (hhas : t.has (.state id))
    : Inv t (Q ∪ follow (some [.put (.stateRow id) v])) := by
  have hmem : ∀ {slot w}, Action.put slot w ∈ [Action.put (.stateRow id) v] → slot = .stateRow id :=
    fun hw => (Action.put.inj (mem_singleton.mp hw)).1
  refine h.goes_on hsrv hne hsp (fun b hb => ?_) (fun id' w hw => ?_)
    (fun slot w hsl hw => ?_) fun key w hw => by cases hmem hw
  · rw [mem_singleton.mp hb]
    rfl
  · obtain rfl := stateRow.inj (hmem hw)
    exact (h.listed_of_has (.of_mem (Set.mem_insert a Q) hsrv) hhas).mono Set.subset_union_left
  · rw [hmem hw] at hsl
    exact hsl.elim

end Inv

structure LockWrites (c : ClientId) (l : List Action) : Prop where
  serves : ∀ b ∈ l, b.serves = some c
  noState : ∀ id v, .put (.stateRow id) v ∉ l
  owned : ∀ key v, .put (.lockRow key) v ∈ l → ∃ w, .put (.lockOwner key) w ∈ l

theorem LockWrites.append {l m : List Action} (hl : LockWrites c l) (hm : LockWrites c m) :
    LockWrites c (l ++ m) where
  serves := fun b hb => (mem_append.mp hb).elim (hl.serves b) (hm.serves b)
  noState := fun id v hb => (mem_append.mp hb).elim (hl.noState id v) (hm.noState id v)
  owned := fun key v hb => (mem_append.mp hb).elim
    (fun hb => (hl.owned key v hb).imp fun _ => mem_append_left m)
    fun hb => (hm.owned key v hb).imp fun _ => mem_append_right l

theorem LockWrites.flatMap {ns : List ℕ} {f : ℕ → List Action} (hf : ∀ n, LockWrites c (f n)) :
    LockWrites c (ns.flatMap f) := by
  induction ns with
  | nil => exact ⟨nofun, fun _ _ => not_mem_nil, nofun⟩
  | cons n ns ih =>
    rw [flatMap_cons]
    exact (hf n).append ih

variable {l : List Action}

theorem LockWrites.cons {b : Action} (hb : b.serves = some c) (hwrs : b.writes = false)
    (hl : LockWrites c l) : LockWrites c (b :: l) where
  serves := fun b' hb' => (mem_cons.mp hb').elim (fun heq => heq ▸ hb) (hl.serves b')
  noState := fun id v hmem => by
    rcases mem_cons.mp hmem with rfl | hmem
    · cases hwrs
    · exact hl.noState id v hmem
  owned := fun key v hmem => by
    rcases mem_cons.mp hmem with rfl | hmem
    · cases hwrs
    · exact (hl.owned key v hmem).imp fun _ => .tail b

theorem lockWrites_registerOwnerStateid (id : Minted) :
    LockWrites id.clientId (registerOwnerStateid id) := by
  refine ⟨?_, ?_, ?_⟩ <;>
    simp [registerOwnerStateid, Action.serves, client, LockKey.client]

theorem lockWrites_addLock (id : Minted) : LockWrites id.clientId (addLock id) := by
  refine ⟨?_, ?_, ?_⟩ <;> simp [addLock, Action.serves, client, LockKey.client]

theorem lockWrites_purpose (id : Minted) (purpose : Purpose) :
    LockWrites id.clientId (purpose.actions id) := by
  cases purpose with
  | opened owner fh =>
    refine ⟨?_, ?_, ?_⟩ <;> simp [Purpose.actions, Action.serves, client]
  | lockOwner entry =>
    exact (lockWrites_registerOwnerStateid id).append (lockWrites_addLock ⟨entry, id.clientId⟩)
  | reclaimed => exact lockWrites_registerOwnerStateid id

theorem Inv.serve_locking {a : Action} (h : Inv t P) (ha : a ∈ P) (hsrv : a.serves = some c)
    (hne : a.enrols = false) (hl : LockWrites c l) (hbkd : Backed t c)
    : Inv t (P ∪ follow (some l)) := by
  refine h.serve hl.serves (h.known_of_serves ha hsrv hne) (h.apart c (.of_mem ha hsrv))
    (fun id v hv => absurd hv (hl.noState id v)) (fun slot v _ hv => ?_)
    fun key v hv => .inr ((hl.owned key v hv).imp fun _ hw => .inr hw)
  rwa [show slot.client = c from some.inj (hl.serves _ hv)]

theorem Inv.goes_on_locking {a : Action} (h : Inv t (insert a Q)) (hsrv : a.serves = some c)
    (hne : a.enrols = false) (hsp : Spent t (Q ∪ follow (some l)) a) (hl : LockWrites c l)
    (hbkd : Backed t c) :
    Inv t (Q ∪ follow (some l)) :=
  (h.serve_locking (Set.mem_insert a Q) hsrv hne hl hbkd).drop hsp

theorem keeps_allocate (purpose : Purpose) : Keeps t Q (.allocate id purpose) := by
  intro h
  have ha := Set.mem_insert (Action.allocate id purpose) Q
  set rows : List Action := [.put (.stateRow id) .plain, .put (.state id) .plain] with hrw
  have hput : ∀ {slot v}, Action.put slot v ∈ rows → slot = .stateRow id ∨ slot = .state id := by
    simp only [hrw, mem_cons, not_mem_nil, or_false, Action.put.injEq]
    rintro slot v (⟨rfl, -⟩ | ⟨rfl, -⟩)
    · exact .inl rfl
    · exact .inr rfl
  have h₁ : Inv t (insert (.allocate id purpose) Q ∪ follow (some rows)) := by
    refine h.serve (fun b hb => ?_) (h.known_of_serves ha rfl rfl)
      (h.apart id.clientId (.of_mem ha rfl)) (fun id' v hv => ?_) (fun slot v hsl hv => ?_)
      fun key v hv => by rcases hput hv with heq | heq <;> cases heq
    · rcases mem_pair.mp hb with rfl | rfl <;> rfl
    · rcases hput hv with heq | heq
      · obtain rfl := stateRow.inj heq
        exact .inr (.inr ⟨.plain, .inr (.tail _ (.head _))⟩)
      · cases heq
    · rcases hput hv with rfl | rfl <;> exact hsl.elim
  have h₂ := h₁.put (.inr (.head _)) nofun
    nofun
  have hbkd : Backed (t.put (.stateRow id) .plain) id.clientId :=
    ⟨id, rfl, has_put.mpr (.inl rfl)⟩
  have h₃ := h₂.serve_locking (.inl ha) rfl rfl (lockWrites_purpose id purpose) hbkd
  refine h₃.shrink ?_ ?_
  · rintro b (hb | hb)
    · exact .inl (.inl (.inr hb))
    · rcases mem_cons.mp hb with rfl | hb
      · exact .inl (.inr (.tail _ (.head _)))
      · exact .inr hb
  · rintro b (((rfl | hb) | hb) | hb)
    · exact .inr trivial
    · exact .inl (.inl hb)
    · rcases mem_pair.mp hb with rfl | rfl
      · exact .inr trivial
      · exact .inl (.inr (.head _))
    · exact .inl (.inr (.tail _ hb))

theorem keeps_openEntry (key : OpenKey) (stateid : ℕ) (delegation : Option ℕ) :
    Keeps t Q (.openEntry key stateid delegation) := by
  intro h
  -- whichever way the open is made, a delegation may follow
  have hgr : ∀ b : Action, b.serves = some key.clientId → b.writes = false →
      Inv t (Q ∪ follow (some (b :: tryGrant key.clientId delegation))) := by
    intro b hb hwrs
    refine h.goes_on_plain rfl rfl trivial (fun b' hb' => ?_) fun slot v hv => ?_
    · rcases mem_cons.mp hb' with rfl | hb'
      · exact hb
      · cases delegation with
        | none => cases hb'
        | some n => rcases mem_pair.mp hb' with rfl | rfl <;> rfl
    · rcases mem_cons.mp hv with rfl | hv
      · cases hwrs
      · cases delegation with
        | none => cases hv
        | some n =>
          rcases mem_pair.mp hv with heq | heq <;>
          · obtain ⟨rfl, -⟩ := Action.put.inj heq
            exact ⟨fun hsl => hsl, fun id heq => by cases heq⟩
  rw [exec]
  split
  · split
    · exact hgr _ rfl rfl
    · exact hgr _ rfl rfl
  · exact hgr _ rfl rfl

theorem keeps_stampOpen (stateid : ℕ) (key : OpenKey) : Keeps t Q (.stampOpen stateid key) := by
  intro h
  rw [exec]
  split
  · next hhas => exact h.goes_on_with_row _ rfl rfl trivial hhas
  · exact h.ends trivial

theorem keeps_updateSeqid : Keeps t Q (.updateSeqid id) := by
  intro h
  rw [exec]
  split
  · next hhas => exact h.goes_on_with_row _ rfl rfl trivial hhas
  · exact h.ends trivial

theorem keeps_lockArm (stateid : Option Minted) (arm : LockArm) :
    Keeps t Q (.lockArm c stateid arm) := by
  intro h
  rw [exec]
  cases arm with
  | newOwner id entry => exact h.goes_on_with rfl rfl trivial rfl rfl
  | existingOwner cuts entry =>
    cases stateid with
    | none => exact h.ends trivial
    | some id => exact h.goes_on_with rfl rfl trivial rfl rfl
  | reclaimKnown held id =>
    simp only [LockArm.actions]
    split
    · next hfnd =>
      have hcl : id.clientId = c := of_decide_eq_true (Bool.and_eq_true_iff.mp hfnd).2
      exact h.goes_on_with rfl rfl trivial (congrArg some hcl) rfl
    · exact h.ends trivial
  | reclaimMint held id =>
    simp only [LockArm.actions]
    split
    · exact h.goes_on_with rfl rfl trivial rfl rfl
    · exact h.ends trivial

theorem keeps_resolveOwner (cuts : List (ℕ × List ℕ)) (entry : ℕ) :
    Keeps t Q (.resolveOwner c id cuts entry) := by
  intro h
  rw [exec]
  split
  · next hfnd =>
    obtain ⟨hhas, hcl⟩ := Bool.and_eq_true_iff.mp hfnd
    obtain rfl := of_decide_eq_true hcl
    have hbkd : Backed t id.clientId :=
      h.backed_of_has (.of_mem (Set.mem_insert _ Q) rfl)
        (show (lockOwner (.canonical id)).OnState from trivial) hhas
    refine h.goes_on_locking rfl rfl trivial ?_ hbkd
    refine LockWrites.append ?_ (.cons rfl rfl (lockWrites_addLock ⟨entry, id.clientId⟩))
    -- a cut writes nothing before it has found the lock
    refine ⟨fun b hb => ?_, fun id' v hv => ?_, fun key v hv => ?_⟩
    · obtain ⟨cut, -, rfl⟩ := mem_map.mp hb
      rfl
    · obtain ⟨cut, -, heq⟩ := mem_map.mp hv
      cases heq
    · obtain ⟨cut, -, heq⟩ := mem_map.mp hv
      cases heq
  · exact h.ends trivial

theorem keeps_cutLock (pieces : List ℕ) : Keeps t Q (.cutLock id pieces) := by
  intro h
  rw [exec]
  split
  · next hhas =>
    have ha := Set.mem_insert (Action.cutLock id pieces) Q
    obtain ⟨id', hid', hrow⟩ : Backed t id.clientId :=
      h.backed_of_has (.of_mem ha rfl) (show (lock (.entry id)).OnState from trivial) hhas
    have hbkd : Backed (t.erase (.lock (.entry id))) id.clientId :=
      ⟨id', hid', has_erase.mpr ⟨fun heq => (by cases heq), hrow⟩⟩
    have h₁ : Inv (t.erase (.lock (.entry id))) (insert (.cutLock id pieces) Q) :=
      h.erase (fun id heq => by cases heq) fun key heq => by cases heq
    refine h₁.goes_on_locking rfl rfl trivial ?_ hbkd
    exact .cons rfl rfl (.flatMap fun n => lockWrites_addLock ⟨n, id.clientId⟩)
  · exact h.ends trivial

theorem keeps_put {slot : Slot} {v : Val} (hunl : ∀ sid, slot = .session sid → .unlist sid ∉ Q)
    : Keeps t Q (.put slot v) := by
  intro h
  have ha := Set.mem_insert (Action.put slot v) Q
  have hlisting : ∀ b ∈ slot.listing, b.serves = some slot.client ∧ b.writes = false := by
    cases slot with
    | session id | state id | delegation id =>
      intro b hb
      rw [mem_singleton.mp hb]
      exact ⟨rfl, rfl⟩
    | _ => exact nofun
  have hno : ∀ {s w}, Action.put s w ∉ slot.listing := fun hw => by cases (hlisting _ hw).2
  have h₁ : Inv t (insert (.put slot v) Q ∪ follow (some slot.listing)) :=
    h.serve (fun b hb => (hlisting b hb).1) (h.known_of_serves ha rfl rfl)
      (h.apart slot.client (.of_mem ha rfl)) (fun _ _ hw => absurd hw hno)
      (fun _ _ _ hw => absurd hw hno) fun _ _ hw => absurd hw hno
  refine (h₁.put (.inl ha) (fun b hb => .inr hb) fun sid heq hmem => ?_).drop ?_
  · rcases hmem with (hmem | hmem) | hmem
    · cases hmem
    · exact hunl sid heq hmem
    · cases (hlisting _ hmem).1
  · -- what is pending with the write of a stateid or of a lock owner is done, or listed next
    cases slot with
    | state id => exact .inr (.inl (.inr (.head _)))
    | lockOwner key => exact has_put.mpr (.inl rfl)
    | _ => trivial

theorem keeps_list (slot : Slot) : Keeps t Q (.list slot) := fun h =>
  (h.enlist slot).ends (mem_append_right _ (mem_singleton.mpr rfl))

theorem keeps_eraseRow (key : LockKey) : Keeps t Q (.eraseRow key) := fun h =>
  (h.erase (fun id heq => by cases heq) fun key heq => by cases heq).ends trivial

end Holding
end Flint.Teardown
