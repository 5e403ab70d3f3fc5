import Flint.Basic.Outcome
import Flint.Teardown.Retiring

/-!
# What a client held does not outlive it

Between two requests, whatever names a client in the tables names one that has a record, and every
client with a record has a lease (`NoneLeft`), in every run in which no client is served and torn
down at once (`Server.Orderly`).

Nothing in the code enforces this: a LOCK that has found its session writes its lock after the strip
(`lock_outlives_client`), and no later sweep looks for it.
-/

open Outcome
open Dict
open List

namespace Flint.Teardown

open StateIds (Bytes OpenKey)

/-! ### A teardown starts -/

/-- The action is one of those that a teardown starts with: a pass, or the removal of the record. -/
def Action.starts : Action → Bool
  | .readSessions _ | .readStates _ | .scanOpens _ | .takeDelegations _ | .scanLocks _
  | .scanLockOwners _ | .removeClient _ => true
  | _ => false

section Starting

variable {t : Tables} {P Q : Set Action} {a b : Action} {c : ClientId} {l : List Action}

theorem starts_cascade : ∀ b ∈ cascadeDestroyClient c, b.starts ∧ b.retires = some c := by
  simp [cascadeDestroyClient, destroyClientSessions, removeClientStateids,
    cleanupClientDelegations, removeClientLocks, Action.starts, Action.retires]

theorem pass_mem_cascade (slot : Slot) : slot.pass ∈ cascadeDestroyClient slot.client := by
  cases slot <;> simp [cascadeDestroyClient, destroyClientSessions, removeClientStateids,
    cleanupClientDelegations, removeClientLocks, Slot.pass, Slot.client]

theorem mem_courtesyReleaseExpired {expired : List ClientId} :
    b ∈ courtesyReleaseExpired expired ↔ ∃ c ∈ expired, b ∈ cascadeDestroyClient c := by
  simp only [courtesyReleaseExpired, cleanupExpiredIds, cascadeDestroyClient, mem_append,
    mem_flatMap, mem_singleton]
  constructor
  · rintro (⟨c, hc, hb⟩ | ⟨c, hc, hb⟩)
    · exact ⟨c, hc, by tauto⟩
    · exact ⟨c, hc, by tauto⟩
  · rintro ⟨c, hc, hb⟩
    rcases hb with (hb | hb) | hb
    · exact .inl ⟨c, hc, by tauto⟩
    · exact .inr ⟨c, hc, hb⟩
    · exact .inl ⟨c, hc, by tauto⟩

theorem Inv.tears_down (h : Inv t P) (cs : List ClientId) (hsrv : ∀ c ∈ cs, ¬Serves P c)
    (hl : ∀ b, b ∈ l ↔ ∃ c ∈ cs, b ∈ cascadeDestroyClient c) : Inv t (P ∪ follow (some l)) := by
  have hsts : ∀ b ∈ l, b.starts ∧ ∃ c ∈ cs, b.retires = some c := fun b hb => by
    obtain ⟨c, hc, hb⟩ := (hl b).mp hb
    exact ⟨(starts_cascade b hb).1, c, hc, (starts_cascade b hb).2⟩
  refine h.tear (fun b hb => ?_) (fun slot _ hr => ?_) (fun b hb slot hchk => ?_)
    (fun c hb => ?_) (fun id hb => ?_) fun key hb => ?_
  · obtain ⟨-, c, hc, hr⟩ := hsts b hb
    exact ⟨c, Action.tears_of_retires hr, hsrv c hc⟩
  · obtain ⟨b, hb, hr⟩ := hr
    obtain ⟨-, c, hc, hr'⟩ := hsts b hb
    obtain rfl := Option.mem_unique hr hr'
    exact .inr (.inl ((hl _).mpr ⟨_, hc, pass_mem_cascade slot⟩))
  · obtain ⟨-, c, -, hr⟩ := hsts b hb
    cases hr.symm.trans (Action.retires_of_checked hchk)
  · rcases hb with hb | hb <;> cases (hsts _ hb).1
  · cases (hsts _ hb).1
  · cases (hsts _ hb).1

theorem Inv.takes_up (h : Inv t P) (hkn : Known t P c) (htr : ¬Tears P c) (hb : b.serves = some c)
    (hwrs : b.writes = false) : Inv t (P ∪ follow (some [b])) := by
  have hput : ∀ {slot v}, Action.put slot v ∉ [b] := fun hmem => by
    rw [← mem_singleton.mp hmem] at hwrs
    cases hwrs
  exact h.serve (fun b' hb' => mem_singleton.mp hb' ▸ hb) hkn htr
    (fun _ _ hv => absurd hv hput) (fun _ _ _ hv => absurd hv hput) fun _ _ hv => absurd hv hput

/-! ### The actions that take up a client -/

theorem keeps_lockClient (op : LockOp)
    (hmay : ∀ id, op.sessionId = some id → ¬Tears (insert (.lockClient op) Q) id.clientId) :
    Keeps t Q (.lockClient op) := by
  intro h
  rw [Tables.exec]
  split
  · next id hid =>
    split
    · next hfnd =>
      have hhas := (Bool.and_eq_true_iff.mp hfnd).1
      have htr := hmay id hid
      exact (h.takes_up (h.known_of_has (.session id) htr hhas) htr rfl rfl).drop trivial
    · exact h.ends trivial
  · exact h.ends trivial

theorem keeps_markConfirmed (random : UInt64) (underQuota : Bool)
    (hmay : ∀ old, t.clients.get? c = some ⟨false, some old⟩ →
      ¬Serves (insert (.markConfirmed c random underQuota) Q) old) :
    Keeps t Q (.markConfirmed c random underQuota) := by
  intro h
  have ha := Set.mem_insert (Action.markConfirmed c random underQuota) Q
  have hsrv : Serves (insert (.markConfirmed c random underQuota) Q) c := .of_mem ha rfl
  rw [Tables.exec]
  split
  · next pending hcl =>
    set next : List Action := [.putClientRow c true, .drawSessionId c random underQuota] with hnx
    have hmem : ∀ b ∈ next, b.serves = some c ∧ b.writes = false := fun b hb => by
      rcases mem_pair.mp hb with rfl | rfl <;> exact ⟨rfl, rfl⟩
    have hput : ∀ {slot v}, Action.put slot v ∉ next := fun hv => by cases (hmem _ hv).2
    have h₁ := h.record (h.known_of_serves ha rfl rfl) (h.apart c hsrv) ⟨true, none⟩
    have h₂ := h₁.serve (fun b hb => (hmem b hb).1) (h₁.known_of_serves ha rfl rfl)
      (h.apart c hsrv) (fun _ _ hv => absurd hv hput) (fun _ _ _ hv => absurd hv hput)
      fun _ _ hv => absurd hv hput
    have h₃ := h₂.tears_down (l := (pending.map cascadeDestroyClient).getD []) pending.toList
      (fun old hold => ?_) fun b => ?_
    · refine h₃.shrink ?_ ?_
      · rintro b (hb | hb)
        · exact .inl (.inl (.inr hb))
        · rcases mem_cons.mp hb with rfl | hb
          · exact .inl (.inr (.head _))
          · rcases mem_append.mp hb with hb | hb
            · exact .inr hb
            · exact .inl (.inr (.tail _ hb))
      · rintro b (((rfl | hb) | hb) | hb)
        · exact .inr trivial
        · exact .inl (.inl hb)
        · rcases mem_pair.mp hb with rfl | rfl
          · exact .inl (.inr (.head _))
          · exact .inl (.inr (.tail _ (mem_append_right _ (.head _))))
        · exact .inl (.inr (.tail _ (mem_append_left _ hb)))
    · -- the client that confirms is served, so it is not the one that is replaced
      have hold := hmay old (hcl.trans (by rw [Option.mem_toList.mp hold]))
      intro hs
      rcases serves_union.mp hs with hs | ⟨b, hb, hc⟩
      · exact hold hs
      · rw [← Option.mem_unique (hmem b hb).1 hc] at hold
        exact hold hsrv
    · cases pending with
      | none | some old => simp
  · exact h.goes_on_with rfl rfl trivial rfl rfl

end Starting

/-! ### The conditions of a run -/

/-- A client is taken up when nobody tears it down, and one that is replaced starts to be torn down
when nobody serves it. A session id that is drawn is not of a session being destroyed. -/
def MayTake (t : Tables) (P : Set Action) : Action → Prop
  | .markConfirmed c _ _ =>
    match t.clients.get? c with
    | some ⟨false, some old⟩ => ¬Serves P old
    | _ => True
  | .lockClient op => ∀ id ∈ op.sessionId, ¬Tears P id.clientId
  | .put (.session id) _ => .unlist id ∉ P
  | _ => True

/-- The condition on a request. An OPEN is of a client that has a record. -/
def MayStart (t : Tables) (P : Set Action) : Request → Prop
  | .courtesyRelease => ∀ c ∈ t.getExpiredClients, ¬Serves P c
  | .exchangeId c _ | .createSession c _ _ _ => ¬Tears P c
  | .sequence id _ => ¬Tears P id.clientId
  | .destroySession _ => True
  | .destroyClientId c => ¬Serves P c
  | .openFile sessionId _ _ _ _ _ =>
    t.hasClient (t.getClientIdFromContext sessionId) ∧
      ¬Tears P (t.getClientIdFromContext sessionId)
  | .lock _ => True
  | .cascade c => ¬Serves P c

section Steps

variable {t : Tables} {P Q : Set Action}

theorem Inv.exec {a : Action} (h : Inv t (insert a Q)) (hmay : MayTake t (insert a Q) a) :
    Inv (t.exec a).1 (Q ∪ follow (t.exec a).2) := by
  cases a with
  | processSequence => exact keeps_processSequence _ h
  | renewLease => exact keeps_renewLease h
  | createLease => exact keeps_createLease h
  | persistClient => exact keeps_persistClient _ h
  | insertClient => exact keeps_insertClient h
  | setPendingReplaces => exact keeps_setPendingReplaces _ h
  | checkLease => exact keeps_checkLease _ _ _ h
  | processCreateSessionSeq => exact keeps_processCreateSessionSeq _ _ _ h
  | markConfirmed c random underQuota =>
    refine keeps_markConfirmed random underQuota (fun old hold => ?_) h
    simpa only [MayTake, hold] using hmay
  | putClientRow => exact keeps_putClientRow _ h
  | drawSessionId => exact keeps_drawSessionId _ _ h
  | allocate => exact keeps_allocate _ h
  | openEntry => exact keeps_openEntry _ _ _ h
  | stampOpen => exact keeps_stampOpen _ _ h
  | lockClient => exact keeps_lockClient _ hmay h
  | lockArm => exact keeps_lockArm _ _ h
  | resolveOwner => exact keeps_resolveOwner _ _ h
  | cutLock => exact keeps_cutLock _ h
  | updateSeqid => exact keeps_updateSeqid h
  | put slot v =>
    refine keeps_put (fun sid heq hmem => ?_) h
    subst heq
    exact hmay (Set.mem_insert_of_mem _ hmem)
  | list => exact keeps_list _ h
  | eraseRow => exact keeps_eraseRow _ h
  | unlist => exact keeps_unlist h
  | readSessions => exact keeps_readSessions h
  | destroySession => exact keeps_destroySession h
  | readStates => exact keeps_readStates h
  | dropStates => exact keeps_dropStates h
  | scanOpens => exact keeps_scanOpens h
  | takeDelegations => exact keeps_takeDelegations h
  | scanLocks => exact keeps_scanLocks h
  | removeLock => exact keeps_removeLock _ h
  | scanLockOwners => exact keeps_scanLockOwners h
  | remove => exact keeps_remove _ h
  | removeClient => exact keeps_removeClient h
  | removeLease => exact keeps_removeLease h
  | deleteClientRow => exact keeps_deleteClientRow h
  | countSessions => exact keeps_countSessions h
  | countStates => exact keeps_countStates h
  | countLocks => exact keeps_countLocks h
  | countDelegations => exact keeps_countDelegations h
  | removeUnused => exact keeps_removeUnused h

theorem Inv.refused (h : Inv t P) : Inv t (P ∪ follow none) := by
  have hno : follow none = ∅ := Set.eq_empty_of_forall_notMem fun _ => not_mem_nil
  rwa [hno, Set.union_empty]

theorem Inv.start {r : Request} (h : Inv t P) (hmay : MayStart t P r) :
    Inv (t.start r).1 (P ∪ follow (t.start r).2) := by
  cases r <;> rw [Tables.start]
  case courtesyRelease =>
    exact h.tears_down t.getExpiredClients hmay fun b => mem_courtesyReleaseExpired
  case exchangeId c replaces =>
    split
    · refine h.adds rfl (fun c' hc => ?_) (fun c' hc => by cases hc) fun id heq => by cases heq
      exact Option.some.inj hc ▸ hmay
    · exact h.refused
  case createSession c random inOrder underQuota =>
    split
    · next hcl => exact h.takes_up (.inl hcl) hmay rfl rfl
    · exact h.refused
  case sequence id isNew =>
    split
    · next hhas => exact h.takes_up (h.known_of_has (.session id) hmay hhas) hmay rfl rfl
    · exact h.refused
  case destroySession id =>
    split
    · exact h.erase_session id
    · exact h.refused
  case destroyClientId c =>
    split
    · refine h.adds rfl nofun (fun c' hc => ?_) nofun
      exact Option.some.inj hc ▸ hmay
    · exact h.refused
  case openFile sessionId owner fh refused stateid delegation =>
    split
    · exact h.refused
    · exact h.takes_up (.inl hmay.1) hmay.2 rfl rfl
  case lock op =>
    split
    · exact h.adds rfl nofun nofun fun id heq => by
        cases heq
    · exact h.refused
  case cascade c =>
    exact h.tears_down [c] (fun c' hc' => mem_singleton.mp hc' ▸ hmay) fun b => by simp

end Steps

/-! ### A restart -/

section Restart

variable {t : Tables} {P : Set Action}

namespace Tables

theorem hasClient_restart {c : ClientId} : t.restart.hasClient c ↔ t.hasClientRow c := by
  refine (isSome_foldl_insert _ _ _ _ c).trans ?_
  simp [hasClientRow, Option.isSome_iff_exists, mem_toList]

theorem hasLease_restart {c : ClientId} : t.restart.hasLease c ↔ t.hasClientRow c := by
  refine (isSome_foldl_insert _ _ _ _ c).trans ?_
  simp [hasClientRow, Option.isSome_iff_exists, mem_toList]

theorem has_restart {slot : Slot} :
    t.restart.has slot ↔
      ∃ row v, t.entries.get? row = some v ∧ ∃ w, (slot, w) ∈ reloaded (row, v) := by
  refine (isSome_foldl_insert _ _ _ _ slot).trans ?_
  simp only [mem_flatMap, Prod.exists, mem_toList, get?_empty, Option.isSome_none,
    Bool.false_eq_true, or_false]
  constructor
  · rintro ⟨slot', w, ⟨row, v, hv, hw⟩, rfl⟩
    exact ⟨row, v, hv, w, hw⟩
  · rintro ⟨row, v, hv, w, hw⟩
    exact ⟨slot, w, ⟨row, v, hv, hw⟩, rfl⟩

/-- What an entry after a restart was built from: the row of a stateid, or of a lock. -/
def BuiltFrom (row : Slot) : Slot → Prop
  | .state id | .stateRow id => row = .stateRow id
  | .opened key => ∃ id : Minted, row = .stateRow id ∧ id.clientId = key.clientId
  | .lock key | .lockOwner key | .lockRow key => row = .lockRow key
  | .session _ | .delegation _ => False

theorem builtFrom_of_reloaded {row slot : Slot} {v w : Val} (h : (slot, w) ∈ reloaded (row, v)) :
    BuiltFrom row slot := by
  cases row with
  | stateRow id =>
    cases v with
    | owner owner fh =>
      simp only [reloaded, mem_append, mem_cons, not_mem_nil, or_false,
        Prod.mk.injEq] at h
      rcases h with (⟨rfl, -⟩ | ⟨rfl, -⟩) | ⟨rfl, -⟩
      · rfl
      · rfl
      · exact ⟨id, rfl, rfl⟩
    | plain | number n =>
      simp only [reloaded, append_nil, mem_cons, not_mem_nil, or_false,
        Prod.mk.injEq] at h
      rcases h with ⟨rfl, -⟩ | ⟨rfl, -⟩ <;> rfl
  | lockRow key =>
    cases key with
    | canonical id =>
      simp only [reloaded, mem_cons, not_mem_nil, or_false, Prod.mk.injEq] at h
      rcases h with ⟨rfl, -⟩ | ⟨rfl, -⟩ <;> rfl
    | entry id =>
      simp only [reloaded, mem_cons, not_mem_nil, or_false, Prod.mk.injEq] at h
      rcases h with ⟨rfl, -⟩ | ⟨rfl, -⟩ | ⟨rfl, -⟩ <;> rfl
  | session | state | opened | lock | lockOwner | delegation => cases h

theorem BuiltFrom.client {row slot : Slot} (h : BuiltFrom row slot) : row.client = slot.client := by
  cases slot with
  | opened key =>
    obtain ⟨id, rfl, hid⟩ := h
    exact hid
  | session | delegation => exact h.elim
  | state | lock | lockOwner | stateRow | lockRow =>
    obtain rfl := h
    rfl

theorem exists_row_of_restart {slot : Slot} (h : t.restart.has slot) :
    ∃ row, t.has row ∧ BuiltFrom row slot := by
  obtain ⟨row, v, hv, w, hw⟩ := has_restart.mp h
  exact ⟨row, Option.isSome_iff_exists.mpr ⟨v, hv⟩, builtFrom_of_reloaded hw⟩

theorem stateRow_restart {id : Minted} (h : t.has (.stateRow id)) :
    t.restart.has (.stateRow id) := by
  obtain ⟨v, hv⟩ := Option.isSome_iff_exists.mp h
  exact has_restart.mpr ⟨_, v, hv, v, mem_append_left _ (.head _)⟩

theorem lockOwner_restart {key : LockKey} (h : t.has (.lockRow key)) :
    t.restart.has (.lockOwner key) := by
  obtain ⟨v, hv⟩ := Option.isSome_iff_exists.mp h
  refine has_restart.mpr ⟨_, v, hv, .plain, ?_⟩
  cases key with
  | canonical id | entry id => exact .tail _ (.head _)

theorem listed_restart {id : Minted} (h : t.has (.stateRow id)) : .state id ∈ t.restart.listed := by
  obtain ⟨v, hv⟩ := Option.isSome_iff_exists.mp h
  exact mem_filterMap.mpr ⟨(.stateRow id, v), mem_toList.mpr hv, rfl⟩

end Tables

open Tables

theorem Inv.restart (h : Inv t P) (htr : ∀ c, ¬Tears P c) : Inv t.restart ∅ := by
  have hcl : ∀ {slot}, t.restart.has slot → t.restart.hasClient slot.client := by
    intro slot hsl
    obtain ⟨row, hrow, hblt⟩ := exists_row_of_restart hsl
    rw [hasClient_restart, ← hblt.client]
    exact h.rowed row.client (h.known_of_has row (htr row.client) hrow)
  refine ⟨⟨fun id hid => ?_, fun id hid => ?_, fun id hid => ?_, fun id hid => ?_,
    fun _ hb => hb.elim, fun _ hb => hb.elim, fun slot hsl hhas => ?_, fun key hkey => ?_,
    fun _ hb => hb.elim⟩, fun c hs => ?_, fun b hb => hb.elim, fun slot hsl => ?_,
    fun b hb => hb.elim, fun c hc => ?_, fun c hc => ?_, fun c hc => ?_, fun c hc => ?_,
    fun c hb => ?_⟩
  · obtain ⟨row, -, hblt⟩ := exists_row_of_restart hid
    exact hblt.elim
  · obtain ⟨row, hrow, rfl⟩ := exists_row_of_restart hid
    exact .inl (listed_restart hrow)
  · obtain ⟨row, hrow, rfl⟩ := exists_row_of_restart (hid.resolve_right fun ⟨v, hv⟩ => hv.elim)
    exact .inl (.inl (listed_restart hrow))
  · obtain ⟨row, -, hblt⟩ := exists_row_of_restart hid
    exact hblt.elim
  · -- an open was built from a stateid's row, and a lock's row has one of its client beside it
    obtain ⟨row, hrow, hblt⟩ := exists_row_of_restart (hhas.resolve_right fun ⟨v, hv⟩ => hv.elim)
    have hlock : ∀ key, row = .lockRow key → Backed t.restart key.client := by
      rintro key rfl
      obtain ⟨id, hid, hstt⟩ := (h.backed (.lockRow key) trivial (.inl hrow)).resolve_right
        fun hr => htr _ hr.tears
      exact ⟨id, hid, stateRow_restart hstt⟩
    refine .inl ?_
    cases slot with
    | opened key =>
      obtain ⟨id, rfl, hid⟩ := hblt
      exact ⟨id, hid, stateRow_restart hrow⟩
    | lock key | lockOwner key | lockRow key => exact hlock key hblt
    | session | state | delegation | stateRow => exact hsl.elim
  · obtain ⟨row, hrow, rfl⟩ := exists_row_of_restart (hkey.resolve_right fun ⟨v, hv⟩ => hv.elim)
    exact .inl (lockOwner_restart hrow)
  · obtain ⟨b, hb, -⟩ := hs
    exact hb.elim
  · refine .inr ⟨.inl (hcl hsl), fun hr => ?_⟩
    obtain ⟨b, hb, -⟩ := hr
    exact hb.elim
  · exact .inl (.inl (hasClient_restart.mpr (hasLease_restart.mp hc)))
  · exact .inl (hasLease_restart.mpr (hasClient_restart.mp (hc.resolve_right fun hb => hb.elim)))
  · exact .inl (.inl (hasClient_restart.mpr hc))
  · exact hasClient_restart.mp (hc.resolve_right fun hb => hb.elim)
  · exact (hb.elim id id).elim

end Restart

/-! ### The threads -/

namespace Server

def pending (s : Server) : Set Action := { a | a ∈ s.threads.flatMap Thread.current }

/-- The condition on a step: no client is served and torn down at once, and the server does not stop
while it tears a client down. -/
def Orderly (s : Server) : Event → Prop
  | .step i =>
    match s.threads[i]? with
    | some ⟨action :: _, _⟩ => MayTake s.tables s.pending action
    | some ⟨[], request :: _⟩ => MayStart s.tables s.pending request
    | _ => True
  | .restart => ∀ a ∈ s.threads.flatMap Thread.current, a.tears = none
  | _ => True

instance (s : Server) (c : ClientId) : Decidable (Serves s.pending c) :=
  inferInstanceAs (Decidable (∃ a ∈ s.threads.flatMap Thread.current, a.serves = some c))

instance (s : Server) (c : ClientId) : Decidable (Tears s.pending c) :=
  inferInstanceAs (Decidable (∃ a ∈ s.threads.flatMap Thread.current, a.tears = some c))

instance (s : Server) (a : Action) : Decidable (a ∈ s.pending) :=
  inferInstanceAs (Decidable (a ∈ s.threads.flatMap Thread.current))

instance (s : Server) (a : Action) : Decidable (MayTake s.tables s.pending a) := by
  unfold MayTake
  split
  · split <;> infer_instance
  all_goals infer_instance

-- the clients of the sweep are a list: the instance that goes through all ids is not to be taken
instance (s : Server) (r : Request) : Decidable (MayStart s.tables s.pending r) := by
  unfold MayStart
  split
  · exact decidableBAll (fun c => ¬Serves s.pending c) s.tables.getExpiredClients
  all_goals infer_instance

instance (s : Server) (event : Event) : Decidable (s.Orderly event) := by
  unfold Orderly
  split
  · split <;> infer_instance
  all_goals infer_instance

def others (s : Server) (i : ℕ) : Set Action :=
  { a | ∃ j th, j ≠ i ∧ s.threads[j]? = some th ∧ a ∈ th.current }

variable {s : Server} {i : ℕ} {th th' : Thread}

theorem mem_pending_set {a : Action} (hi : s.threads[i]? = some th) :
    a ∈ (⟨s.tables, s.threads.set i th'⟩ : Server).pending ↔ a ∈ th'.current ∨ a ∈ s.others i := by
  have hlt : i < s.threads.length := (List.getElem?_eq_some_iff.mp hi).1
  refine mem_flatMap.trans ?_
  constructor
  · rintro ⟨x, hx, ha⟩
    obtain ⟨j, hj⟩ := mem_iff_getElem?.mp hx
    by_cases hij : j = i
    · subst hij
      rw [getElem?_set_self hlt] at hj
      exact .inl (Option.some.inj hj ▸ ha)
    · rw [getElem?_set_ne fun heq => hij heq.symm] at hj
      exact .inr ⟨j, x, hij, hj, ha⟩
  · rintro (ha | ⟨j, x, hij, hj, ha⟩)
    · exact ⟨th', mem_iff_getElem?.mpr ⟨i, getElem?_set_self hlt⟩, ha⟩
    · refine ⟨x, mem_iff_getElem?.mpr ⟨j, ?_⟩, ha⟩
      rwa [getElem?_set_ne fun heq => hij heq.symm]

theorem mem_pending {a : Action} (hi : s.threads[i]? = some th) :
    a ∈ s.pending ↔ a ∈ th.current ∨ a ∈ s.others i := by
  have hset : s.threads.set i th = s.threads := by
    obtain ⟨hlt, rfl⟩ := List.getElem?_eq_some_iff.mp hi
    exact set_getElem_self hlt
  rw [← mem_pending_set hi, hset]

theorem pending_taken {a : Action} {rest : List Action} {later : List Request}
    (hi : s.threads[i]? = some ⟨a :: rest, later⟩) :
    s.pending = insert a ({ b | b ∈ rest } ∪ s.others i) := by
  ext b
  rw [mem_pending hi, mem_cons, or_assoc]
  rfl

theorem pending_continue {t : Tables} {rest : List Action} {later later' : List Request}
    {current : List Action} (hi : s.threads[i]? = some ⟨current, later'⟩)
    (answer : Option (List Action)) :
    (⟨t, s.threads.set i (.continue rest later answer)⟩ : Server).pending =
      { b | b ∈ rest } ∪ s.others i ∪ follow answer := by
  ext b
  refine (mem_pending_set hi).trans ?_
  cases answer with
  | none =>
    refine ⟨fun hb => .inl hb, fun hb => hb.resolve_right not_mem_nil⟩
  | some more =>
    show b ∈ more ++ rest ∨ b ∈ s.others i ↔ (b ∈ rest ∨ b ∈ s.others i) ∨ b ∈ more
    rw [mem_append, or_assoc, or_comm]

/-! ### Runs -/

theorem pending_nil (t : Tables) : (⟨t, []⟩ : Server).pending = ∅ :=
  Set.eq_empty_of_forall_notMem fun _ => not_mem_nil

theorem inv_new : Inv new.tables new.pending := by
  rw [new, pending_nil]
  refine ⟨⟨fun _ hid => ?_, fun _ hid => ?_, fun _ hid => ?_, fun _ hid => ?_,
    fun _ hb => hb.elim, fun _ hb => hb.elim, fun _ _ hhas => ?_, fun _ hkey => ?_,
    fun _ hb => hb.elim⟩, fun _ hs => ?_, fun _ hb => hb.elim, fun _ hhas => ?_,
    fun _ hb => hb.elim, fun _ hc => ?_, fun _ hc => ?_, fun _ hc => ?_, fun _ hc => ?_,
    fun _ _ => rfl⟩
  · cases hid
  · cases hid
  · cases hid.resolve_right fun ⟨v, hv⟩ => hv.elim
  · cases hid
  · cases hhas.resolve_right fun ⟨v, hv⟩ => hv.elim
  · cases hkey.resolve_right fun ⟨v, hv⟩ => hv.elim
  · obtain ⟨b, hb, -⟩ := hs
    exact hb.elim
  · cases hhas
  · cases hc
  · cases hc.resolve_right fun hb => hb.elim
  · cases hc
  · cases hc.resolve_right fun hb => hb.elim

theorem inv_step (event : Event) (h : Inv s.tables s.pending) (horderly : s.Orderly event) :
    Inv (s.step event).tables (s.step event).pending := by
  cases event with
  | arrive compound =>
    have hpn : (s.step (.arrive compound)).pending = s.pending := by
      ext a
      simp [pending, step]
    rw [hpn]
    exact h
  | step i =>
    cases hi : s.threads[i]? with
    | none =>
      simp only [step, hi]
      exact h
    | some th =>
      obtain ⟨current, later⟩ := th
      match current, later, hi with
      | action :: rest, later, hi =>
        have hmay : MayTake s.tables s.pending action := by simpa only [Orderly, hi] using horderly
        simp only [step, hi]
        rw [pending_taken hi] at h hmay
        rw [pending_continue hi]
        exact h.exec hmay
      | [], request :: later, hi =>
        have hmay : MayStart s.tables s.pending request := by
          simpa only [Orderly, hi] using horderly
        have hpn : s.pending = { b | b ∈ [] } ∪ s.others i := by
          ext b
          exact mem_pending hi
        simp only [step, hi]
        rw [hpn] at h hmay
        rw [pending_continue hi]
        exact h.start hmay
      | [], [], hi =>
        simp only [step, hi]
        exact h
  | expire c =>
    -- a lease that runs out is still a lease
    have hls : ∀ c', (s.step (.expire c)).tables.hasLease c' = s.tables.hasLease c' :=
      fun c' => s.tables.leases.isSome_modify c c' _
    exact { h with
      leaseKnown := fun c' hc' => h.leaseKnown c' (hls c' ▸ hc')
      leased := fun c' hc' => (hls c').symm ▸ h.leased c' hc' }
  | restart =>
    have hno : ∀ c, ¬Tears s.pending c := by
      rintro c ⟨a, ha, hc⟩
      rw [horderly a ha] at hc
      cases hc
    rw [show s.step .restart = ⟨s.tables.restart, []⟩ from rfl, pending_nil]
    exact h.restart hno

theorem pending_of_idle (h : s.Idle) : s.pending = ∅ := by
  refine Set.eq_empty_of_forall_notMem fun a ha => ?_
  obtain ⟨th, hth, ha⟩ := mem_flatMap.mp ha
  rw [h th hth] at ha
  exact not_mem_nil ha

end Server

theorem Inv.noneLeft {t : Tables} (h : Inv t ∅) : NoneLeft t where
  named := fun slot hhas => by
    rcases h.owed slot hhas with (hb | hb) | ⟨hkn, -⟩
    · exact hb.elim
    · exact hb.elim
    · exact hkn.resolve_right fun hb => hb.elim
  leases := fun c hc =>
    ((h.leaseKnown c hc).resolve_right fun hb => hb.elim).resolve_right fun hb => hb.elim
  leased := fun c hc => (h.leased c (.inl hc)).resolve_right fun hb => hb.elim

/-- In every run in which no client is served and torn down at once, nothing outlives its client. -/
theorem none_left_behind (events : List Event) (h : Steps Server.step Server.Orderly .new events)
    (hidle : (run Server.step .new events).Idle) :
    NoneLeft (run Server.step .new events).tables := by
  have hinv := run_invariant_of_steps
    (P := fun s : Server => Inv s.tables s.pending) (fun s event hs => Server.inv_step event hs)
    Server.inv_new h
  rw [Server.pending_of_idle hidle] at hinv
  exact hinv.noneLeft

def openByFive : List Event :=
  [.arrive [.exchangeId 5 none, .createSession 5 9 true true]] ++ replicate 12 (.step 0) ++
    [.arrive [.sequence ⟨9, 5⟩ true, .openFile (some ⟨9, 5⟩) [1] [7] false 1 none]] ++
    replicate 14 (.step 1)

def lockByFive : Event :=
  .arrive [.sequence ⟨9, 5⟩ true, .lock ⟨some ⟨9, 5⟩, some ⟨1, 5⟩, false, .newOwner 2 1⟩]

def sweptAfterLock : List Event :=
  openByFive ++ lockByFive :: replicate 14 (.step 2) ++
    .expire 5 :: .arrive [.courtesyRelease] :: replicate 30 (.step 3)

theorem swept_after_lock_none_left :
    (run Server.step .new sweptAfterLock).Idle ∧
      NoneLeft (run Server.step .new sweptAfterLock).tables :=
  ⟨by decide +kernel, none_left_behind sweptAfterLock (by decide +kernel) (by decide +kernel)⟩

def lockAcrossSweep : List Event :=
  openByFive ++ [.expire 5, .arrive [.courtesyRelease], .step 2, lockByFive] ++
    replicate 5 (.step 3) ++ replicate 25 (.step 2) ++ replicate 12 (.step 3)

/-- The lock is there, and its row, and no client and no lease; a restart changes nothing in this.
-/
theorem lock_outlives_client :
    let s := run Server.step .new lockAcrossSweep
    s.Idle ∧ ¬NoneLeft s.tables ∧
      s.tables.has (.lock (.entry ⟨1, 5⟩)) ∧ s.tables.hasClient 5 = false ∧
        s.tables.hasLease 5 = false ∧
      (s.step .restart).tables.has (.lock (.entry ⟨1, 5⟩)) ∧
        (s.step .restart).tables.hasClient 5 = false := by
  refine ⟨by decide +kernel, fun h => ?_, by decide +kernel, by decide +kernel,
    by decide +kernel, by decide +kernel, by decide +kernel⟩
  exact absurd (h.named (.lock (.entry ⟨1, 5⟩)) (by decide +kernel)) (by decide +kernel)

end Flint.Teardown
