import Flint.StateIds.Calls

/-!
# The indices of the stateid manager

`Agree` says that the indices hold what the tables hold, and nothing else. Every call keeps this but
two (`Careful`): the removal of a client takes its opens away and leaves their stateids in the
reverse index, and `remove`, which is made for stateids of locks, leaves an open whose stateid it is
given without its entry.
-/

namespace Flint.StateIds

open StateIdManager StateIdRecord Outcome List Dict

inductive TableCall
  | call (c : Call)
  | allocate (stateType : StateType) (clientId : UInt64) (filehandle : Option Bytes)
  | remove (stateid : StateId)

def StateIdManager.applyTable (m : StateIdManager) : TableCall → StateIdManager
  | .call c => m.apply c
  | .allocate stateType clientId filehandle => (m.allocate stateType clientId filehandle).2
  | .remove stateid => m.remove stateid

def StateIdManager.HasEntry (m : StateIdManager) (x : Other) (c : UInt64) : Prop :=
  (m.states.get? x).map StateEntry.clientId = some c

structure Agree (m : StateIdManager) : Prop where
  keys : ∀ x key, m.openStateKeys.get? x = some key ↔
    ∃ st, m.openStates.get? key = some st ∧ st.stateidOther = x
  owners : ∀ key : OpenKey, (key.clientId, key.owner) ∈ m.ownersOf key.fh ↔
    (m.openStates.get? key).isSome
  entries : ∀ key st, m.openStates.get? key = some st → m.HasEntry st.stateidOther key.clientId
  nodup : ∀ c, (m.statesOf c).Nodup
  clients : ∀ c x, x ∈ m.statesOf c ↔ m.HasEntry x c

def Careful (m : StateIdManager) : TableCall → Prop
  | .call (.removeClientStateids clientId) => ∀ o ∈ m.openStates.toList, o.1.clientId ≠ clientId
  | .remove stateid => ∀ o ∈ m.openStates.toList, o.2.stateidOther ≠ stateid.other
  | _ => True

instance (m : StateIdManager) (c : TableCall) : Decidable (Careful m c) := by
  unfold Careful
  split <;> infer_instance

variable {m m' : StateIdManager} {key : OpenKey} {st : OpenState} {other : Other} (h : Agree m)

include h

theorem Agree.same (hsm : SameOpens m m') : Agree m' := by
  cases h
  cases hsm
  constructor <;> grind [HasEntry]

omit h in
theorem eq_key {k : OpenKey} (hfh : k.fh = key.fh)
    (hhol : (k.clientId, k.owner) = (key.clientId, key.owner)) : k = key := by
  cases k
  cases key
  simp_all

omit h in
theorem clients_update {f : StateEntry → StateEntry} (hstts : ∀ x, m'.states.get? x =
      if x = other then (m.states.get? x).map f else m.states.get? x)
    (hf : ∀ e, (f e).clientId = e.clientId) (c : UInt64) (x : Other) :
    m'.HasEntry x c ↔ m.HasEntry x c := by
  unfold HasEntry
  rw [hstts]
  split
  · cases m.states.get? x <;> simp [hf]
  · rfl

theorem Agree.opened (hs : Sound m) (hopd : Opened m m' key st) : Agree m' := by
  obtain ⟨hunu, hunusedOpen⟩ := hs.next_unused key.clientId
  rw [← hopd.other] at hunu hunusedOpen
  have hcl : (openEntry key st).clientId = key.clientId := rfl
  have hkey := @eq_key key
  cases h
  cases hopd
  constructor <;> grind [HasEntry]

theorem Agree.restamped {cur : OpenState} (hcur : m.openStates.get? key = some cur)
    (hrst : Restamped m m' key st) (hoth : st.stateidOther = cur.stateidOther) : Agree m' := by
  have hcli := clients_update hrst.states fun _ => rfl
  cases h
  cases hrst
  constructor <;> grind

theorem Agree.revokedAt (hrev : RevokedAt m m' other) : Agree m' := by
  have hcli := clients_update hrev.states fun _ => rfl
  cases h
  cases hrev
  constructor <;> grind

theorem Agree.closed (hst : m.openStates.get? key = some st)
    (hcls : Closed m m' key st.stateidOther) : Agree m' := by
  have hkey := @eq_key key
  -- no other open has the stateid
  have huniq : ∀ k s, m.openStates.get? k = some s → s.stateidOther = st.stateidOther → k = key :=
    fun k s hs hoth => Option.some.inj (((h.keys _ k).mpr ⟨s, hs, hoth⟩).symm.trans
      ((h.keys _ key).mpr ⟨st, hst, rfl⟩))
  cases h
  cases hcls
  constructor <;> grind [HasEntry]

theorem Agree.retired (hno : ∀ key st, m.openStates.get? key = some st → st.stateidOther ≠ other)
    (hret : Retired m m' other) : Agree m' := by
  cases h
  cases hret
  constructor <;> grind [HasEntry]

theorem Agree.purged {clientId : UInt64}
    (hno : ∀ k : OpenKey, k.clientId = clientId → m.openStates.get? k = none)
    (hpur : Purged m m' clientId) : Agree m' := by
  cases h
  cases hpur
  constructor <;> grind [HasEntry]

omit h in
theorem statesOf_allocate (m : StateIdManager) (stateType : StateType) (c c' : UInt64)
    (fh : Option Bytes) : (m.allocate stateType c fh).2.statesOf c' =
      if c' = c then m.statesOf c' ++ [m.nextOther c] else m.statesOf c' := by
  rw [statesOf, allocate, get?_insert]
  split
  · next heq =>
    rw [heq]
    rfl
  · rfl

theorem Agree.allocated (hs : Sound m) (stateType : StateType) (c : UInt64) (fh : Option Bytes) :
    Sound (m.allocate stateType c fh).2 ∧ Agree (m.allocate stateType c fh).2 := by
  obtain ⟨hunu, hunusedOpen⟩ := hs.next_unused c
  have hctr : (m.nextOther c).counter = m.nextStateid := rfl
  have hstatesOf := fun c' => statesOf_allocate m stateType c c' fh
  generalize hent : StateEntry.new ⟨1, m.nextOther c⟩ stateType c fh = entry
  have hnew : entry.openOf = none ∧ entry.stateid.other = m.nextOther c ∧ entry.clientId = c ∧
      entry.toRecord.other = m.nextOther c := by
    subst hent
    refine ⟨?_, rfl, rfl, rfl⟩
    cases stateType <;> rfl
  obtain ⟨hstd, hoth, hcl, hrow⟩ := hnew
  cases hs
  cases h
  simp only [allocate, hent, persist] at hstatesOf ⊢
  constructor
  all_goals constructor <;> grind [HasEntry, ownersOf, get?_insert]

omit h

theorem Agree.restarted (hs : Sound m) {records : List StateIdRecord}
    (hpm : records.Perm m.records) (tag : Option UInt32) :
    Agree ((new tag m.rows).loadRecords records) := by
  have hdis := hs.distinct hpm
  obtain ⟨hld, -, -⟩ := loadRecords_loaded tag m.rows hdis
  generalize (new tag m.rows).loadRecords records = m' at hld
  have hent : ∀ r ∈ records, r.stateType ≠ .delegation → m'.HasEntry r.other r.clientId := by
    intro r hr hty
    rw [HasEntry, (hld.states r.other _).mpr ⟨r, hr, hty, rfl, rfl⟩]
    rfl
  constructor
  case keys =>
    intro x key
    rw [hld.keys]
    simp only [hld.opens]
    constructor
    · rintro ⟨r, hr, rfl, st, hop⟩
      exact ⟨st, ⟨r, hr, hop⟩, (openOf_eq_some hop).2.2.2.2.2.1⟩
    · rintro ⟨st, ⟨r, hr, hop⟩, rfl⟩
      exact ⟨r, hr, (openOf_eq_some hop).2.2.2.2.2.1.symm, st, hop⟩
  case owners =>
    intro key
    rw [hld.owners, Option.isSome_iff_exists]
    simp only [hld.opens]
    constructor
    · rintro ⟨r, hr, st, hop⟩
      exact ⟨st, r, hr, hop⟩
    · rintro ⟨st, r, hr, hop⟩
      exact ⟨r, hr, st, hop⟩
  case entries =>
    intro key st hst
    obtain ⟨r, hr, hop⟩ := (hld.opens key st).mp hst
    obtain ⟨-, -, hcl, -, -, hoth, -⟩ := openOf_eq_some hop
    rw [hoth, ← hcl]
    exact hent r hr (type_of_openOf hop)
  case nodup =>
    intro c
    rw [hld.statesOf]
    exact pairwise_map.mpr (hdis.others.sublist filter_sublist)
  case clients =>
    intro c x
    rw [hld.statesOf, mem_map]
    constructor
    · rintro ⟨r, hr, rfl⟩
      rw [mem_filter] at hr
      obtain ⟨hr, hrow⟩ := hr
      simp only [Bool.and_eq_true, decide_eq_true_eq] at hrow
      rw [← hrow.2]
      exact hent r hr hrow.1
    · intro hx
      obtain ⟨e, he, rfl⟩ := Option.map_eq_some_iff.mp hx
      obtain ⟨r, hr, hty, hoth, rfl⟩ := (hld.states x e).mp he
      exact ⟨r, mem_filter.mpr ⟨hr, by simp [hty, StateEntry.fromRecord]⟩, hoth⟩

theorem Agree.apply (hs : Sound m) (h : Agree m) (call : Call) (hcar : Careful m (.call call)) :
    Agree (m.apply call) := by
  have heff := hs.effect call
  generalize m.apply call = m' at heff
  cases heff with
  | same hsm => exact h.same hsm
  | made _ hopd => exact h.opened hs hopd
  | merged cur hcur hrst => exact h.restamped hcur hrst rfl
  | downgraded key st hst _ _ hrst => exact h.restamped hst hrst rfl
  | closed key st hst hcls => exact h.closed hst hcls
  | retired other hno hret => exact h.retired hno hret
  | revoked other hrev => exact h.revokedAt hrev
  | purged hpur =>
    refine h.purged (fun k hk => ?_) hpur
    by_contra hop
    obtain ⟨st, hst⟩ := Option.ne_none_iff_exists'.mp hop
    exact hcar (k, st) (mem_toList.mpr hst) hk
  | restarted hpm => exact .restarted hs hpm _

/-- **The indices agree with the tables** unless a call drops the stateid of an open. -/
theorem agree_run (tag : Option UInt32) (calls : List TableCall)
    (hcar : Steps applyTable Careful (.new tag .empty) calls) :
    Agree (run applyTable (.new tag .empty) calls) := by
  refine (run_invariant_of_steps (P := fun m => Sound m ∧ Agree m) ?_ ⟨sound_new tag, ?_⟩ hcar).2
  · rintro m call ⟨hs, h⟩ hte
    cases call with
    | call c => exact ⟨hs.apply c, h.apply hs c hte⟩
    | allocate stateType c fh => exact h.allocated hs stateType c fh
    | remove stateid =>
      have hno : ∀ key st, m.openStates.get? key = some st → st.stateidOther ≠ stateid.other :=
        fun key st hst => hte (key, st) (mem_toList.mpr hst)
      have hret := removeMaster_retired m stateid.other
      exact ⟨hs.retired hno hret, h.retired hno hret⟩
  · have hpm : ([] : List StateIdRecord).Perm (new tag .empty).records := .refl []
    exact .restarted (sound_new tag) hpm tag

/-- The open of a client that is removed is gone, and its stateid still leads to the key. -/
theorem removed_client_leaves_key : ¬Agree (run applyTable (.new none .empty)
    [.call (.recordOpen ⟨1, [1], [7]⟩ 1 0 none none), .call (.removeClientStateids 1)]) := by
  intro h
  obtain ⟨st, hst, -⟩ := (h.keys ⟨1, 1⟩ ⟨1, [1], [7]⟩).mp (by decide +kernel)
  have hno : (run applyTable (.new none .empty) [.call (.recordOpen ⟨1, [1], [7]⟩ 1 0
      none none), .call (.removeClientStateids 1)]).openStates.get? ⟨1, [1], [7]⟩ = none := by
    decide +kernel
  rw [hno] at hst
  cases hst

theorem agree_run_removed : Agree (run applyTable (.new none .empty)
    [.call (.recordOpen ⟨1, [1], [7]⟩ 1 0 none none), .allocate .lock 2 none,
      .remove ⟨1, ⟨2, 2⟩⟩, .call (.closeOpenState ⟨1, 1⟩), .call (.removeClientStateids 1)]) :=
  agree_run none _ (by decide +kernel)

end Flint.StateIds
