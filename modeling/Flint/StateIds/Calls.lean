import Flint.StateIds.Loading
import Flint.Basic.Outcome

/-!
# Runs of the stateid manager

A run is a list of calls, one at a time, from a new manager over an empty backend; among the calls
is a restart, which loads the rows in any order into a new manager. `Sound` is what every run keeps.
So a restart gives back the opens that are not revoked, and only those (`Sound.restart_opens`).
-/

namespace Flint.StateIds

open StateIdManager StateIdRecord List Dict

inductive Call
  | recordOpen (key : OpenKey) (access deny : UInt32) (verifier : Option UInt64)
      (ident : Option Ident)
  | closeOpen (stateid : StateId)
  | closeOpenState (other : Other)
  | downgradeOpen (stateid : StateId) (access deny : UInt32)
  | revoke (stateid : StateId)
  | removeClientStateids (clientId : UInt64)
  | restart (tag : Option UInt32) (records : List StateIdRecord)

def StateIdManager.records (m : StateIdManager) : List StateIdRecord := m.rows.toList.map Prod.snd

def StateIdManager.apply (m : StateIdManager) : Call → StateIdManager
  | .recordOpen key access deny verifier ident =>
    (m.recordOpen key.clientId key.owner key.fh access deny verifier ident).2
  | .closeOpen stateid => (m.closeOpen stateid).2
  | .closeOpenState other => m.closeOpenState other
  | .downgradeOpen stateid access deny => (m.downgradeOpen stateid access deny).2
  | .revoke stateid => (m.revoke stateid).2
  | .removeClientStateids clientId => m.removeClientStateids clientId
  | .restart tag records =>
    if records.Perm m.records then (new tag m.rows).loadRecords records else m

def StateEntry.openOf (e : StateEntry) : Option (OpenKey × OpenState) := e.toRecord.openOf

structure Sound (m : StateIdManager) : Prop where
  linked : ∀ key st, m.openStates.get? key = some st →
    m.openStateKeys.get? st.stateidOther = some key
  listed : ∀ key st, m.openStates.get? key = some st → (key.clientId, key.owner) ∈ m.ownersOf key.fh
  /-- The entry of an open, unless it is revoked, says what the open does. -/
  owned : ∀ key st e, m.openStates.get? key = some st → m.states.get? st.stateidOther = some e →
    e.revoked = false → e.openOf = some (key, { st with verifier := none })
  backed : ∀ x e key st, m.states.get? x = some e → e.openOf = some (key, st) →
    ∃ st', m.openStates.get? key = some st' ∧ st'.stateidOther = x
  fresh : ∀ x e, m.states.get? x = some e → x.counter < m.nextStateid
  freshOpen : ∀ key st, m.openStates.get? key = some st → st.stateidOther.counter < m.nextStateid
  keyed : ∀ x e, m.states.get? x = some e → e.stateid.other = x
  tracked : ∀ x e, m.states.get? x = some e → x ∈ m.statesOf e.clientId
  persisted : ∀ x e, m.states.get? x = some e → m.rows.get? x = some e.toRecord
  stored : ∀ x r, m.rows.get? x = some r → r.other = x ∧
    (r.stateType = .delegation ∨ ∃ e, m.states.get? x = some e ∧ e.toRecord = r)

section Entries

variable {e : StateEntry} {key : OpenKey} {st : OpenState}

@[grind →] theorem StateEntry.live_of_openOf (h : e.openOf = some (key, st)) : e.revoked = false :=
  (openOf_eq_some h).2.1

@[grind →] theorem StateEntry.client_of_openOf (h : e.openOf = some (key, st)) :
    e.clientId = key.clientId :=
  (openOf_eq_some h).2.2.1

end Entries

theorem sound_new (tag : Option UInt32) : Sound (.new tag .empty) := by
  have hstts : ∀ x, (new tag .empty).states.get? x = none := fun _ => rfl
  have hops : ∀ key, (new tag .empty).openStates.get? key = none := fun _ => rfl
  have hrw : ∀ x, (new tag .empty).rows.get? x = none := fun _ => rfl
  constructor
  all_goals
    intros
    simp_all

variable {m m' : StateIdManager}

theorem Sound.same (h : Sound m) (hsm : SameOpens m m') : Sound m' := by
  cases h
  cases hsm
  constructor <;> grind

/-! ### One call -/

theorem Sound.next_unused (h : Sound m) (c : UInt64) :
    m.states.get? (m.nextOther c) = none ∧
      ∀ key st, m.openStates.get? key = some st → st.stateidOther ≠ m.nextOther c := by
  constructor
  · cases he : m.states.get? (m.nextOther c) with
    | none => rfl
    | some e => exact absurd (h.fresh _ e he) (lt_irrefl m.nextStateid)
  · intro key st hst hoth
    have hlt := h.freshOpen key st hst
    rw [hoth] at hlt
    exact lt_irrefl m.nextStateid hlt

variable {key : OpenKey} {st : OpenState}

theorem Sound.opened (h : Sound m)
    (hdd : ∀ cur, m.openStates.get? key = some cur → m.masterAlive cur.stateidOther = false)
    (hopd : Opened m m' key st) : Sound m' := by
  obtain ⟨hunu, hunusedOpen⟩ := h.next_unused key.clientId
  rw [← hopd.other] at hunu hunusedOpen
  have hctr : st.stateidOther.counter = m.nextStateid := by
    rw [hopd.other]
    rfl
  -- the entry of the open that is replaced is not alive, and stands for none
  have hreplaced : ∀ x e s, m.states.get? x = some e → e.openOf ≠ some (key, s) := by
    intro x e s he hs
    obtain ⟨s', hs', rfl⟩ := h.backed x e key s he hs
    have hliv := hdd s' hs'
    rw [masterAlive, he] at hliv
    simp [e.live_of_openOf hs] at hliv
  -- what the new entry says
  have hstd : (openEntry key st).openOf = some (key, { st with verifier := none }) := rfl
  have hoth : (openEntry key st).stateid.other = st.stateidOther := rfl
  have hcl : (openEntry key st).clientId = key.clientId := rfl
  have hrow : (openEntry key st).toRecord.other = st.stateidOther := rfl
  cases h
  cases hopd
  constructor <;> grind

variable {other : Other} (h : Sound m)

include h

theorem Sound.rows_update {f : StateEntry → StateEntry}
    (hstts : ∀ x, m'.states.get? x =
      if x = other then (m.states.get? x).map f else m.states.get? x) (hrw : ∀ x, m'.rows.get? x =
      match m.states.get? other with
      | some e => if x = e.stateid.other then some (f e).toRecord else m.rows.get? x
      | none => m.rows.get? x) (hf : ∀ e, (f e).toRecord.other = e.stateid.other) :
    (∀ x e, m'.states.get? x = some e → m'.rows.get? x = some e.toRecord) ∧
      ∀ x r, m'.rows.get? x = some r → r.other = x ∧
        (r.stateType = .delegation ∨ ∃ e, m'.states.get? x = some e ∧ e.toRecord = r) := by
  have hkeyed := h.keyed
  have hpersisted := h.persisted
  have hstored := h.stored
  constructor <;> grind

omit h in
theorem openOf_restamped {e : StateEntry} (h : e.openOf = some (key, st)) (st' : OpenState)
    (hoth : st'.stateidOther = st.stateidOther) :
    (e.restamped key.owner st').openOf = some (key, { st' with verifier := none }) := by
  obtain ⟨hty, hrev, hcl, hfh, -, hx, -⟩ := openOf_eq_some h
  have hrow := openOf_of (e.restamped key.owner st').toRecord key hty hrev
    hcl hfh rfl
  rw [StateEntry.openOf, hrow]
  change some (key, (⟨e.stateid.other, st'.seqid, st'.shareAccess, st'.shareDeny, none⟩ :
    OpenState)) = _
  rw [show e.stateid.other = st'.stateidOther from hx.symm.trans hoth.symm]

theorem Sound.restamped {cur : OpenState} (hcur : m.openStates.get? key = some cur)
    (hrst : Restamped m m' key st) (hoth : st.stateidOther = cur.stateidOther) :
    Sound m' := by
  have hrw := h.rows_update hrst.states hrst.rows fun _ => rfl
  -- the entry stands for the open at the key, before and after
  have hstd : ∀ e, m.states.get? st.stateidOther = some e → e.revoked = false →
      (e.restamped key.owner st).openOf = some (key, { st with verifier := none }) := by
    intro e he hrev
    rw [hoth] at he
    exact openOf_restamped (h.owned key cur e hcur he hrev) st hoth
  have hkp : ∀ e : StateEntry, (e.restamped key.owner st).revoked = e.revoked ∧
      (e.restamped key.owner st).stateid.other = e.stateid.other ∧
      (e.restamped key.owner st).clientId = e.clientId := fun _ => ⟨rfl, rfl, rfl⟩
  cases h
  cases hrst
  constructor <;> grind

theorem Sound.revokedAt (hrev : RevokedAt m m' other) : Sound m' := by
  have hrw := h.rows_update hrev.states hrev.rows fun _ => rfl
  cases h
  cases hrev
  constructor <;> grind

omit h in
/-- Entries and opens have gone, none has come or changed, and no entry is left without its open. -/
structure Shrunk (m m' : StateIdManager) : Prop where
  next : m'.nextStateid = m.nextStateid
  states : ∀ x e, m'.states.get? x = some e → m.states.get? x = some e
  tracked : ∀ x e, m'.states.get? x = some e → x ∈ m.statesOf e.clientId →
    x ∈ m'.statesOf e.clientId
  opens : ∀ key st, m'.openStates.get? key = some st → m.openStates.get? key = some st
  keys : ∀ key st, m'.openStates.get? key = some st →
    m'.openStateKeys.get? st.stateidOther = m.openStateKeys.get? st.stateidOther
  owners : ∀ key st, m'.openStates.get? key = some st →
    (key.clientId, key.owner) ∈ m.ownersOf key.fh → (key.clientId, key.owner) ∈ m'.ownersOf key.fh
  backed : ∀ x e key st, m'.states.get? x = some e → e.clientId = key.clientId →
    m.openStates.get? key = some st → st.stateidOther = x → m'.openStates.get? key = some st
  persisted : ∀ x e, m'.states.get? x = some e → m'.rows.get? x = m.rows.get? x
  stored : ∀ x r, m'.rows.get? x = some r →
    m.rows.get? x = some r ∧ m'.states.get? x = m.states.get? x

theorem Sound.shrunk (hs : Shrunk m m') : Sound m' where
  linked key st hst := by
    rw [hs.keys key st hst]
    exact h.linked key st (hs.opens key st hst)
  listed key st hst := hs.owners key st hst (h.listed key st (hs.opens key st hst))
  owned key st e hst he := h.owned key st e (hs.opens key st hst) (hs.states _ e he)
  backed x e key st he hst := by
    obtain ⟨st', hst', hx⟩ := h.backed x e key st (hs.states x e he) hst
    have hcl : e.clientId = key.clientId := e.client_of_openOf hst
    exact ⟨st', hs.backed x e key st' he hcl hst' hx, hx⟩
  fresh x e he := hs.next ▸ h.fresh x e (hs.states x e he)
  freshOpen key st hst := hs.next ▸ h.freshOpen key st (hs.opens key st hst)
  keyed x e he := h.keyed x e (hs.states x e he)
  tracked x e he := hs.tracked x e he (h.tracked x e (hs.states x e he))
  persisted x e he := (hs.persisted x e he).trans (h.persisted x e (hs.states x e he))
  stored x r hr := by
    obtain ⟨hr, hsm⟩ := hs.stored x r hr
    rw [hsm]
    exact h.stored x r hr

theorem Sound.closed (hst : m.openStates.get? key = some st)
    (hcls : Closed m m' key st.stateidOther) : Sound m' := by
  -- another key on the filehandle has another owner
  have hkey : ∀ k : OpenKey, k.fh = key.fh → k.clientId = key.clientId → k.owner = key.owner →
      k = key := by
    rintro ⟨⟩ rfl rfl rfl
    rfl
  refine h.shrunk ?_
  cases h
  cases hcls
  constructor <;> grind

theorem Sound.retired (hno : ∀ key st, m.openStates.get? key = some st → st.stateidOther ≠ other)
    (hret : Retired m m' other) : Sound m' := by
  refine h.shrunk ?_
  cases h
  cases hret
  constructor <;> grind

theorem Sound.purged {clientId : UInt64} (hpur : Purged m m' clientId) : Sound m' := by
  refine h.shrunk ?_
  cases h
  cases hpur
  constructor <;> grind

omit h

/-! ### A restart -/

variable {r : StateIdRecord}

theorem mem_records : r ∈ m.records ↔ ∃ x, m.rows.get? x = some r := by
  unfold records
  rw [mem_map]
  constructor
  · rintro ⟨⟨x, r⟩, hmem, rfl⟩
    exact ⟨x, mem_toList.mp hmem⟩
  · rintro ⟨x, hx⟩
    exact ⟨(x, r), mem_toList.mpr hx, rfl⟩

theorem Sound.entry_of_record (h : Sound m) (hr : r ∈ m.records)
    (hty : r.stateType ≠ .delegation) : ∃ e, m.states.get? r.other = some e ∧ e.toRecord = r := by
  obtain ⟨x, hx⟩ := mem_records.mp hr
  obtain ⟨rfl, hent⟩ := h.stored x r hx
  exact hent.resolve_left hty

theorem Sound.record_of_entry (h : Sound m) {x : Other} {e : StateEntry}
    (he : m.states.get? x = some e) : e.toRecord ∈ m.records :=
  mem_records.mpr ⟨x, h.persisted x e he⟩

theorem StateIdRecord.type_of_openOf (h : r.openOf = some (key, st)) :
    r.stateType ≠ .delegation := by
  rw [(openOf_eq_some h).1]
  exact nofun

variable {records : List StateIdRecord}

theorem Sound.distinct (h : Sound m) (hpm : records.Perm m.records) : Distinct records := by
  have hoths : records.Pairwise fun r r' => r.other ≠ r'.other := by
    rw [hpm.pairwise_iff fun hne => Ne.symm hne]
    unfold StateIdManager.records
    rw [pairwise_map]
    -- a row stands in the table under its own stateid
    have hown : ∀ entry ∈ m.rows.toList, entry.2.other = entry.1 := fun entry hmem =>
      (h.stored entry.1 entry.2 (mem_toList.mp hmem)).1
    refine m.rows.pairwise_toList.imp_of_mem ?_
    intro a b ha hb hne
    rw [hown a ha, hown b hb]
    exact hne
  refine ⟨hoths, hoths.imp_of_mem ?_⟩
  intro r r' hr hr' hne key st st' hst hst'
  obtain ⟨e, he, rfl⟩ := h.entry_of_record (hpm.mem_iff.mp hr) (type_of_openOf hst)
  obtain ⟨e', he', rfl⟩ := h.entry_of_record (hpm.mem_iff.mp hr') (type_of_openOf hst')
  -- both entries stand for the open at the key
  obtain ⟨s, hs, hx⟩ := h.backed _ e key st he hst
  obtain ⟨s', hs', hx'⟩ := h.backed _ e' key st' he' hst'
  obtain rfl : s = s' := Option.mem_unique hs hs'
  exact hne (hx.symm.trans hx')

theorem Sound.restart_states (h : Sound m) (hpm : records.Perm m.records)
    (hld : Loaded records m') (x : Other) (e : StateEntry) :
    m'.states.get? x = some e ↔ ∃ e₀, m.states.get? x = some e₀ ∧ e₀.stateType ≠ .delegation ∧
      e = .fromRecord e₀.toRecord := by
  rw [hld.states]
  constructor
  · rintro ⟨r, hr, hty, rfl, rfl⟩
    obtain ⟨e₀, he₀, rfl⟩ := h.entry_of_record (hpm.mem_iff.mp hr) hty
    exact ⟨e₀, he₀, hty, rfl⟩
  · rintro ⟨e₀, he₀, hty, rfl⟩
    exact ⟨e₀.toRecord, hpm.mem_iff.mpr (h.record_of_entry he₀), hty, h.keyed x e₀ he₀, rfl⟩

theorem Sound.restart_opens (h : Sound m) (hpm : records.Perm m.records)
    (hld : Loaded records m') (key : OpenKey) (st : OpenState) :
    m'.openStates.get? key = some st ↔
      ∃ st₀ e, m.openStates.get? key = some st₀ ∧ m.states.get? st₀.stateidOther = some e ∧
        e.revoked = false ∧ st = { st₀ with verifier := none } := by
  rw [hld.opens]
  constructor
  · rintro ⟨r, hr, hop⟩
    obtain ⟨e, he, rfl⟩ := h.entry_of_record (hpm.mem_iff.mp hr) (type_of_openOf hop)
    obtain ⟨st₀, hst₀, hx⟩ := h.backed _ e key st he hop
    rw [← hx] at he
    have hlv : e.revoked = false := (openOf_eq_some hop).2.1
    have howned := h.owned key st₀ e hst₀ he hlv
    exact ⟨st₀, e, hst₀, he, hlv, (Prod.mk.inj (Option.mem_unique hop howned)).2⟩
  · rintro ⟨st₀, e, hst₀, he, hlv, rfl⟩
    exact ⟨e.toRecord, hpm.mem_iff.mpr (h.record_of_entry he), h.owned key st₀ e hst₀ he hlv⟩

theorem Sound.restart (h : Sound m) (hpm : records.Perm m.records) (tag : Option UInt32) :
    Sound ((new tag m.rows).loadRecords records) := by
  obtain ⟨hld, hrw, hnx⟩ := loadRecords_loaded tag m.rows (h.distinct hpm)
  have hstt := h.restart_states hpm hld
  have hop := h.restart_opens hpm hld
  constructor
  case linked =>
    intro key st hst
    obtain ⟨r, hr, hropn⟩ := (hld.opens key st).mp hst
    exact (hld.keys _ key).mpr ⟨r, hr, (openOf_eq_some hropn).2.2.2.2.2.1.symm, st, hropn⟩
  case listed =>
    intro key st hst
    obtain ⟨r, hr, hropn⟩ := (hld.opens key st).mp hst
    exact (hld.owners key.fh _).mpr ⟨r, hr, st, hropn⟩
  case owned =>
    intro key st e hst he hlv
    obtain ⟨st₀, e₀, hst₀, he₀, hlv₀, rfl⟩ := (hop key st).mp hst
    obtain ⟨e₁, he₁, -, rfl⟩ := (hstt _ e).mp he
    obtain rfl : e₀ = e₁ := Option.mem_unique he₀ he₁
    exact h.owned key st₀ e₀ hst₀ he₀ hlv₀
  case backed =>
    intro x e key st he hst
    obtain ⟨e₀, he₀, -, rfl⟩ := (hstt x e).mp he
    obtain ⟨st₀, hst₀, hx⟩ := h.backed x e₀ key st he₀ hst
    refine ⟨{ st₀ with verifier := none }, ?_, hx⟩
    exact (hop key _).mpr ⟨st₀, e₀, hst₀, by rwa [hx], (openOf_eq_some hst).2.1, rfl⟩
  case fresh =>
    intro x e he
    obtain ⟨r, hr, hty, rfl, -⟩ := (hld.states x e).mp he
    exact hnx r hr hty
  case freshOpen =>
    intro key st hst
    obtain ⟨r, hr, hropn⟩ := (hld.opens key st).mp hst
    rw [(openOf_eq_some hropn).2.2.2.2.2.1]
    exact hnx r hr (type_of_openOf hropn)
  case keyed =>
    intro x e he
    obtain ⟨e₀, he₀, -, rfl⟩ := (hstt x e).mp he
    exact h.keyed x e₀ he₀
  case tracked =>
    intro x e he
    obtain ⟨r, hr, hty, rfl, rfl⟩ := (hld.states x e).mp he
    rw [hld.statesOf]
    exact mem_map_of_mem (mem_filter.mpr ⟨hr, by simp [hty, StateEntry.fromRecord]⟩)
  case persisted =>
    intro x e he
    obtain ⟨e₀, he₀, -, rfl⟩ := (hstt x e).mp he
    rw [hrw]
    exact h.persisted x e₀ he₀
  case stored =>
    intro x r hr
    rw [hrw] at hr
    refine (h.stored x r hr).imp_right fun hent => ?_
    by_cases hty : r.stateType = .delegation
    · exact .inl hty
    · obtain ⟨e₀, he₀, rfl⟩ := hent.resolve_left hty
      exact .inr ⟨_, (hstt x _).mpr ⟨e₀, he₀, hty, rfl⟩, rfl⟩

/-! ### Every run -/

inductive Effect (m : StateIdManager) : Call → StateIdManager → Prop
  | same {call : Call} {m' : StateIdManager} (hsm : SameOpens m m') : Effect m call m'
  | made {key : OpenKey} {access deny : UInt32} {verifier : Option UInt64} {ident : Option Ident}
      {m' : StateIdManager}
      (hdd : ∀ cur, m.openStates.get? key = some cur → m.masterAlive cur.stateidOther = false)
      (hopd : Opened m m' key ⟨m.nextOther key.clientId, 1, access, deny, verifier⟩) :
      Effect m (.recordOpen key access deny verifier ident) m'
  | merged {key : OpenKey} {access deny : UInt32} {verifier : Option UInt64} {ident : Option Ident}
      {m' : StateIdManager} (cur : OpenState) (hcur : m.openStates.get? key = some cur)
      (hrst : Restamped m m' key { cur with
        seqid := cur.seqid + 1
        shareAccess := cur.shareAccess ||| access
        shareDeny := cur.shareDeny ||| deny }) :
      Effect m (.recordOpen key access deny verifier ident) m'
  | downgraded {stateid : StateId} {access deny : UInt32} {m' : StateIdManager} (key : OpenKey)
      (st : OpenState) (hst : m.openStates.get? key = some st)
      (hacs : access &&& ~~~st.shareAccess = 0) (hdeny : deny &&& ~~~st.shareDeny = 0)
      (hrst : Restamped m m' key
        { st with seqid := st.seqid + 1, shareAccess := access, shareDeny := deny }) :
      Effect m (.downgradeOpen stateid access deny) m'
  | closed {call : Call} {m' : StateIdManager} (key : OpenKey) (st : OpenState)
      (hst : m.openStates.get? key = some st) (hcls : Closed m m' key st.stateidOther) :
      Effect m call m'
  | retired {call : Call} {m' : StateIdManager} (other : Other)
      (hno : ∀ key st, m.openStates.get? key = some st → st.stateidOther ≠ other)
      (hret : Retired m m' other) : Effect m call m'
  | revoked {call : Call} {m' : StateIdManager} (other : Other) (hrev : RevokedAt m m' other) :
      Effect m call m'
  | purged {clientId : UInt64} {m' : StateIdManager} (hpur : Purged m m' clientId) :
      Effect m (.removeClientStateids clientId) m'
  | restarted {tag : Option UInt32} {records : List StateIdRecord}
      (hpm : records.Perm m.records) :
      Effect m (.restart tag records) ((new tag m.rows).loadRecords records)

theorem Sound.effect (h : Sound m) (call : Call) : Effect m call (m.apply call) := by
  cases call with
  | recordOpen key access deny verifier ident =>
    obtain ⟨sid, m', heq, hch⟩ := recordOpen_change m key access deny verifier ident
    rw [StateIdManager.apply, heq]
    cases hch with
    | merged cur hcur _ hrst => exact .merged cur hcur hrst
    | made hdd hopd => exact .made hdd hopd
  | closeOpen stateid =>
    obtain ⟨outcome, m', heq, hch⟩ := closeOpen_change m stateid
    rw [StateIdManager.apply, heq]
    cases hch with
    | kept _ hsm _ => exact .same hsm
    | closed key st _ hst hcurr hcls =>
      have hoth : st.stateidOther = stateid.other := by
        rw [isCurrent, Bool.and_eq_true, decide_eq_true_eq] at hcurr
        exact hcurr.1
      exact .closed key st hst (hoth ▸ hcls)
  | closeOpenState other =>
    rw [StateIdManager.apply]
    rcases closeOpenState_cases m other with ⟨key, st, -, hst, rfl, hcls⟩ | ⟨hnot, hret⟩
    · exact .closed key st hst hcls
    · refine .retired other ?_ hret
      rintro key st hst rfl
      exact hnot key st (h.linked key st hst) hst rfl
  | downgradeOpen stateid access deny =>
    rw [StateIdManager.apply]
    rcases downgradeOpen_cases m stateid access deny with
      ⟨heq, -⟩ | ⟨key, st, -, hst, -, hacs, hdeny, -, hrst⟩
    · rw [heq]
      exact .same (.refl m)
    · exact .downgraded key st hst hacs hdeny hrst
  | revoke stateid => exact .revoked _ (revoke_revokedAt m stateid)
  | removeClientStateids clientId => exact .purged (removeClientStateids_purged m clientId)
  | restart tag records =>
    rw [StateIdManager.apply]
    split
    · next hpm => exact .restarted hpm
    · exact .same (.refl m)

theorem Sound.apply (h : Sound m) (call : Call) : Sound (m.apply call) := by
  have heff := h.effect call
  generalize m.apply call = m' at heff
  cases heff with
  | same hsm => exact h.same hsm
  | made hdd hopd => exact h.opened hdd hopd
  | merged cur hcur hrst => exact h.restamped hcur hrst rfl
  | downgraded key st hst _ _ hrst => exact h.restamped hst hrst rfl
  | closed key st hst hcls => exact h.closed hst hcls
  | retired other hno hret => exact h.retired hno hret
  | revoked other hrev => exact h.revokedAt hrev
  | purged hpur => exact h.purged hpur
  | restarted hpm => exact h.restart hpm _

end Flint.StateIds
