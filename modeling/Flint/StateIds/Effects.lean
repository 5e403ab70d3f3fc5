import Flint.StateIds.Manager

/-!
# What the calls of the stateid manager do

Each call is described by what it does to the lookups in the tables, in one structure per kind of
change.
-/

namespace Flint.StateIds

open StateIdManager Dict List Option Prod

attribute [local grind =] get?_insert get?_erase get?_modify

attribute [local grind] statesOf ownersOf persist persistDelete

structure SameOpens (m m' : StateIdManager) : Prop where
  next : m'.nextStateid = m.nextStateid
  tag : m'.stateidTag = m.stateidTag
  states : ∀ x, m'.states.get? x = m.states.get? x
  statesOf : ∀ c, m'.statesOf c = m.statesOf c
  opens : ∀ key, m'.openStates.get? key = m.openStates.get? key
  keys : ∀ x, m'.openStateKeys.get? x = m.openStateKeys.get? x
  owners : ∀ fh, m'.ownersOf fh = m.ownersOf fh
  rows : ∀ x, m'.rows.get? x = m.rows.get? x

theorem SameOpens.refl (m : StateIdManager) : SameOpens m m :=
  ⟨rfl, rfl, fun _ => rfl, fun _ => rfl, fun _ => rfl, fun _ => rfl, fun _ => rfl, fun _ => rfl⟩

variable {m₁ : StateIdManager}

theorem SameOpens.trans {m₂ m₃ : StateIdManager} (h : SameOpens m₁ m₂) (h' : SameOpens m₂ m₃) :
    SameOpens m₁ m₃ := by
  cases h
  cases h'
  constructor <;> grind

theorem indexIdent_same (m : StateIdManager) (fh : Bytes) (ident : Option Ident) :
    SameOpens m (m.indexIdent fh ident) := by
  cases ident <;> constructor <;> intros <;> rfl

theorem pushTombstone_same (m : StateIdManager) (other : Other) :
    SameOpens m (m.pushTombstone other) := by
  unfold pushTombstone
  split <;> constructor <;> intros <;> rfl

theorem dropFhIfUnopened_same (m : StateIdManager) (fh : Bytes) :
    SameOpens m (m.dropFhIfUnopened fh) := by
  unfold dropFhIfUnopened
  constructor <;> grind

/-! ### A new open -/

def openEntry (key : OpenKey) (st : OpenState) : StateEntry where
  stateid := ⟨st.seqid, st.stateidOther⟩
  stateType := .openFile
  clientId := key.clientId
  seqid := st.seqid
  filehandle := some key.fh
  revoked := false
  opened := some ⟨key.owner, st.shareAccess, st.shareDeny⟩

/-- The key has the open `st` with the next stateid, and a state entry with its row. -/
structure Opened (m m' : StateIdManager) (key : OpenKey) (st : OpenState) : Prop where
  other : st.stateidOther = m.nextOther key.clientId
  next : m'.nextStateid = m.nextStateid + 1
  states : ∀ x, m'.states.get? x =
    if x = st.stateidOther then some (openEntry key st) else m.states.get? x
  statesOf : ∀ c, m'.statesOf c =
    if c = key.clientId then m.statesOf c ++ [st.stateidOther] else m.statesOf c
  opens : ∀ k, m'.openStates.get? k = if k = key then some st else m.openStates.get? k
  keys : ∀ x, m'.openStateKeys.get? x =
    if x = st.stateidOther then some key
    else if (m.openStates.get? key).map OpenState.stateidOther = some x ∧
        m.openStateKeys.get? x = some key then none
    else m.openStateKeys.get? x
  owners : ∀ fh p, p ∈ m'.ownersOf fh ↔
    p ∈ m.ownersOf fh ∨ (fh = key.fh ∧ p = (key.clientId, key.owner))
  rows : ∀ x, m'.rows.get? x =
    if x = st.stateidOther then some (openEntry key st).toRecord else m.rows.get? x

theorem mem_ownersOf_addOwner (m : StateIdManager) (fh : Bytes) (clientId : UInt64) (owner : Bytes)
    (fh' : Bytes) (p : UInt64 × Bytes) :
    p ∈ (m.addOwner fh clientId owner).ownersOf fh' ↔
      p ∈ m.ownersOf fh' ∨ (fh' = fh ∧ p = (clientId, owner)) := by
  rw [addOwner]
  grind

variable {m : StateIdManager} {other : Other}

theorem openFresh_opened (m m₁ : StateIdManager) (key : OpenKey) (access deny : UInt32)
    (verifier : Option UInt64) (hbs : SameOpens m { m₁ with openStateKeys := m.openStateKeys })
    (hks : ∀ x, m₁.openStateKeys.get? x =
      if (m.openStates.get? key).map OpenState.stateidOther = some x ∧
        m.openStateKeys.get? x = some key then none else m.openStateKeys.get? x) :
    (m₁.openFresh key access deny verifier).1 = ⟨1, m.nextOther key.clientId⟩ ∧
      Opened m (m₁.openFresh key access deny verifier).2 key
        ⟨m.nextOther key.clientId, 1, access, deny, verifier⟩ := by
  have hoth : m.nextOther key.clientId = m₁.nextOther key.clientId := by
    unfold nextOther
    rw [← hbs.next, ← hbs.tag]
  cases hbs
  rw [hoth]
  refine ⟨rfl, ?_⟩
  -- the entry is allocated without owner and masks, and stamped at once
  constructor
  all_goals
    simp only [openFresh, allocate, stampOpen, addOwner, persist, get?_insert_self] at *
    grind [openEntry, StateEntry.new]

variable {m' : StateIdManager} {key : OpenKey}

theorem Opened.trans_same {st : OpenState} (h : Opened m m₁ key st) (hsm : SameOpens m₁ m') :
    Opened m m' key st := by
  cases h
  cases hsm
  constructor <;> grind

/-! ### New masks for an open -/

def StateEntry.restamped (master : StateEntry) (owner : Bytes) (e : OpenState) : StateEntry :=
  { master with
    seqid := e.seqid
    stateid := ⟨e.seqid, master.stateid.other⟩
    opened := some ⟨owner, e.shareAccess, e.shareDeny⟩ }

/-- The open at the key has become `e`, with the stateid it had; its state entry and row follow. -/
structure Restamped (m m' : StateIdManager) (key : OpenKey) (e : OpenState) : Prop where
  next : m'.nextStateid = m.nextStateid
  tag : m'.stateidTag = m.stateidTag
  states : ∀ x, m'.states.get? x =
    if x = e.stateidOther then (m.states.get? x).map fun master => master.restamped key.owner e
    else m.states.get? x
  statesOf : ∀ c, m'.statesOf c = m.statesOf c
  opens : ∀ k, m'.openStates.get? k = if k = key then some e else m.openStates.get? k
  keys : ∀ x, m'.openStateKeys.get? x = m.openStateKeys.get? x
  owners : ∀ fh, m'.ownersOf fh = m.ownersOf fh
  rows : ∀ x, m'.rows.get? x =
    match m.states.get? e.stateidOther with
    | some master => if x = master.stateid.other then some (master.restamped key.owner e).toRecord
      else m.rows.get? x
    | none => m.rows.get? x

theorem restamp_restamped (m : StateIdManager) (key : OpenKey) (e : OpenState) :
    Restamped m (({ m with openStates := m.openStates.insert key e } : StateIdManager).restamp
      key.owner e) key e := by
  unfold restamp
  constructor <;> grind [StateEntry.restamped]

theorem Restamped.same_trans {e : OpenState} (hsm : SameOpens m m₁) (h : Restamped m₁ m' key e) :
    Restamped m m' key e := by
  cases hsm
  cases h
  constructor <;> grind

/-- An OPEN brings an open up to the requested masks, or makes a new one. -/
inductive OpenChange (m : StateIdManager) (key : OpenKey) (access deny : UInt32)
    (verifier : Option UInt64) : StateId → StateIdManager → Prop
  | merged {m' : StateIdManager} (cur : OpenState) (hcur : m.openStates.get? key = some cur)
      (hliv : m.masterAlive cur.stateidOther)
      (hrst : Restamped m m' key { cur with
        seqid := cur.seqid + 1
        shareAccess := cur.shareAccess ||| access
        shareDeny := cur.shareDeny ||| deny }) :
      OpenChange m key access deny verifier ⟨cur.seqid + 1, cur.stateidOther⟩ m'
  | made {m' : StateIdManager}
      (hdd : ∀ cur, m.openStates.get? key = some cur → m.masterAlive cur.stateidOther = false)
      (hopd : Opened m m' key ⟨m.nextOther key.clientId, 1, access, deny, verifier⟩) :
      OpenChange m key access deny verifier ⟨1, m.nextOther key.clientId⟩ m'

theorem recordOpen_change (m : StateIdManager) (key : OpenKey) (access deny : UInt32)
    (verifier : Option UInt64) (ident : Option Ident) :
    ∃ sid m', m.recordOpen key.clientId key.owner key.fh access deny verifier ident = (sid, m') ∧
      OpenChange m key access deny verifier sid m' := by
  refine ⟨_, _, mk.eta.symm, ?_⟩
  have hsm := indexIdent_same m key.fh ident
  have hliv : ∀ x, (m.indexIdent key.fh ident).masterAlive x = m.masterAlive x := by
    intro x
    unfold masterAlive
    rw [hsm.states]
  unfold recordOpen
  dsimp only
  rw [hsm.opens]
  cases hcur : m.openStates.get? key with
  | none =>
    obtain ⟨hsid, hopd⟩ := openFresh_opened m (m.indexIdent key.fh ident) key access deny
      verifier ⟨hsm.next, hsm.tag, hsm.states, hsm.statesOf, hsm.opens, fun _ => rfl,
        hsm.owners, hsm.rows⟩ fun x => by rw [hsm.keys, hcur]; simp
    dsimp only
    rw [hsid]
    refine .made ?_ (hopd.trans_same (indexIdent_same _ _ _))
    intro cur hcur'
    rw [hcur] at hcur'
    cases hcur'
  | some cur =>
    dsimp only
    rw [hliv]
    by_cases hmaster : m.masterAlive cur.stateidOther
    · rw [if_pos hmaster]
      exact .merged cur hcur hmaster (.same_trans hsm (restamp_restamped _ key _))
    · rw [if_neg hmaster]
      obtain ⟨hsid, hopd⟩ := openFresh_opened m { m.indexIdent key.fh ident with
          openStateKeys := (m.indexIdent key.fh ident).openStateKeys.removeIf cur.stateidOther
            fun k => k = key } key access deny verifier
        ⟨hsm.next, hsm.tag, hsm.states, hsm.statesOf, hsm.opens, fun _ => rfl,
          hsm.owners, hsm.rows⟩ fun x => by
          rw [get?_removeIf_eq, hsm.keys, hsm.keys]
          grind
      rw [hsid]
      refine .made ?_ (hopd.trans_same (indexIdent_same _ _ _))
      intro cur' hcur'
      obtain rfl : cur = cur' := mem_unique hcur hcur'
      exact Bool.eq_false_iff.mpr hmaster

theorem downgradeOpen_cases (m : StateIdManager) (stateid : StateId) (access deny : UInt32) :
    ((m.downgradeOpen stateid access deny).2 = m ∧
      ∀ sid, (m.downgradeOpen stateid access deny).1 ≠ .ok sid) ∨
    ∃ key st, m.keyOfOther stateid.other = some key ∧ m.openStates.get? key = some st ∧
      access ≠ 0 ∧ access &&& ~~~st.shareAccess = 0 ∧ deny &&& ~~~st.shareDeny = 0 ∧
      (m.downgradeOpen stateid access deny).1 = .ok ⟨st.seqid + 1, st.stateidOther⟩ ∧
      Restamped m (m.downgradeOpen stateid access deny).2 key
        { st with seqid := st.seqid + 1, shareAccess := access, shareDeny := deny } := by
  unfold downgradeOpen
  cases hkey : m.keyOfOther stateid.other with
  | none => exact .inl ⟨rfl, fun sid h => by cases h⟩
  | some key =>
    dsimp only
    cases hst : m.openStates.get? key with
    | none => exact .inl ⟨rfl, fun sid h => by cases h⟩
    | some st =>
      dsimp only
      split
      · exact .inl ⟨rfl, fun sid h => by cases h⟩
      · next hmsk =>
        simp only [not_or, not_not] at hmsk
        obtain ⟨hacs, hsub, hsub'⟩ := hmsk
        exact .inr ⟨key, st, rfl, hst, hacs, hsub, hsub', rfl, restamp_restamped m key _⟩

/-! ### A closed open -/

structure Unlisted (m m' : StateIdManager) (key : OpenKey) : Prop where
  next : m'.nextStateid = m.nextStateid
  states : ∀ x, m'.states.get? x = m.states.get? x
  statesOf : ∀ c, m'.statesOf c = m.statesOf c
  opens : ∀ k, m'.openStates.get? k = if k = key then none else m.openStates.get? k
  keys : ∀ x, m'.openStateKeys.get? x = m.openStateKeys.get? x
  owners : ∀ fh p, p ∈ m'.ownersOf fh ↔
    p ∈ m.ownersOf fh ∧ ¬(fh = key.fh ∧ p = (key.clientId, key.owner))
  rows : ∀ x, m'.rows.get? x = m.rows.get? x

structure Retired (m m' : StateIdManager) (other : Other) : Prop where
  next : m'.nextStateid = m.nextStateid
  states : ∀ x, m'.states.get? x = if x = other then none else m.states.get? x
  statesOf : ∀ c, m'.statesOf c =
    if (m.states.get? other).map StateEntry.clientId = some c then (m.statesOf c).filter (· ≠ other)
    else m.statesOf c
  opens : ∀ k, m'.openStates.get? k = m.openStates.get? k
  keys : ∀ x, m'.openStateKeys.get? x = m.openStateKeys.get? x ∨
    x = other ∧ m'.openStateKeys.get? x = none
  owners : ∀ fh, m'.ownersOf fh = m.ownersOf fh
  rows : ∀ x, m'.rows.get? x =
    if x = other ∧ m.states.get? other ≠ none then none else m.rows.get? x

structure Closed (m m' : StateIdManager) (key : OpenKey) (other : Other) : Prop where
  next : m'.nextStateid = m.nextStateid
  states : ∀ x, m'.states.get? x = if x = other then none else m.states.get? x
  statesOf : ∀ c, m'.statesOf c =
    if (m.states.get? other).map StateEntry.clientId = some c then (m.statesOf c).filter (· ≠ other)
    else m.statesOf c
  opens : ∀ k, m'.openStates.get? k = if k = key then none else m.openStates.get? k
  keys : ∀ x, m'.openStateKeys.get? x =
    if x = other ∧ m.openStateKeys.get? x = some key then none else m.openStateKeys.get? x
  owners : ∀ fh p, p ∈ m'.ownersOf fh ↔
    p ∈ m.ownersOf fh ∧ ¬(fh = key.fh ∧ p = (key.clientId, key.owner))
  rows : ∀ x, m'.rows.get? x =
    if x = other ∧ m.states.get? other ≠ none then none else m.rows.get? x

variable {pred : OpenState → Bool}

theorem removeOpenUnderEntry_none (h : m.removeOpenUnderEntry key pred = (none, m')) : m' = m := by
  unfold removeOpenUnderEntry at h
  grind

theorem removeOpenUnderEntry_some {nowEmpty : Bool}
    (h : m.removeOpenUnderEntry key pred = (some nowEmpty, m')) :
    ∃ st, m.openStates.get? key = some st ∧ pred st ∧ Unlisted m m' key ∧
      m'.fhsByIdent = m.fhsByIdent ∧ m'.identsByFh = m.identsByFh := by
  unfold removeOpenUnderEntry at h
  have hunl : Unlisted m m' key := by constructor <;> grind
  grind

theorem removeMaster_openStateKeys (m : StateIdManager) (other : Other) :
    (m.removeMaster other).openStateKeys = m.openStateKeys := by
  unfold removeMaster
  split <;> rfl

theorem removeMaster_retired (m : StateIdManager) (other : Other) :
    Retired m (m.removeMaster other) other := by
  unfold removeMaster
  cases hent : m.states.get? other with
  | none => constructor <;> grind
  | some entry =>
    constructor
    case statesOf =>
      intro c
      cases hli : m.clientStates.get? c <;> grind
    all_goals grind

theorem finishClose_closed (h : Unlisted m m₁ key) (other : Other) (nowEmpty : Bool) :
    Closed m (m₁.finishClose other key nowEmpty) key other := by
  -- the steps before the last leave the opens, but for the key of the stateid
  have hs : ∃ m₂, m₁.finishClose other key nowEmpty = m₂.removeMaster other ∧
      SameOpens { m₁ with openStateKeys := m₁.openStateKeys.removeIf other fun k => k = key }
        m₂ := by
    unfold finishClose
    dsimp only
    have htb := pushTombstone_same m₁ other
    have hbs : SameOpens
        { m₁ with openStateKeys := m₁.openStateKeys.removeIf other fun k => k = key }
        { m₁.pushTombstone other with
          openStateKeys := (m₁.pushTombstone other).openStateKeys.removeIf other
            fun k => k = key } := by
      refine ⟨htb.next, htb.tag, htb.states, htb.statesOf, htb.opens, fun x => ?_,
        htb.owners, htb.rows⟩
      dsimp only
      rw [get?_removeIf, get?_removeIf, htb.keys, htb.keys]
    cases nowEmpty with
    | false => exact ⟨_, rfl, hbs⟩
    | true => exact ⟨_, rfl, hbs.trans (dropFhIfUnopened_same _ key.fh)⟩
  obtain ⟨m₂, heq, hsm⟩ := hs
  rw [heq]
  have hks : ∀ x, (m₂.removeMaster other).openStateKeys.get? x =
      if x = other ∧ m₁.openStateKeys.get? other = some key then none
        else m₁.openStateKeys.get? x := by
    intro x
    rw [removeMaster_openStateKeys, hsm.keys]
    exact get?_removeIf_eq ..
  have hret := removeMaster_retired m₂ other
  cases h
  cases hsm
  cases hret
  constructor <;> grind

theorem Closed.same_trans (hsm : SameOpens m m₁) (h : Closed m₁ m' key other) :
    Closed m m' key other := by
  cases hsm
  cases h
  constructor <;> grind

inductive CloseChange (m : StateIdManager) (stateid : StateId) :
    CloseOutcome → StateIdManager → Prop
  | kept {outcome : CloseOutcome} {m' : StateIdManager} (houtc : outcome ≠ .closed)
      (hsm : SameOpens m m')
      (hnot : ∀ key st, m.openStateKeys.get? stateid.other = some key →
        m.openStates.get? key = some st → isCurrent stateid st = false) :
      CloseChange m stateid outcome m'
  | closed {m' : StateIdManager} (key : OpenKey) (st : OpenState)
      (hkey : m.openStateKeys.get? stateid.other = some key)
      (hst : m.openStates.get? key = some st) (hcurr : isCurrent stateid st)
      (hcls : Closed m m' key stateid.other) : CloseChange m stateid .closed m'

theorem removeOpenUnderEntry_none_not (h : m.removeOpenUnderEntry key pred = (none, m'))
    (st : OpenState) (hst : m.openStates.get? key = some st) : pred st = false := by
  unfold removeOpenUnderEntry at h
  grind

theorem closeOpen_change (m : StateIdManager) (stateid : StateId) :
    ∃ outcome m', m.closeOpen stateid = (outcome, m') ∧ CloseChange m stateid outcome m' := by
  refine ⟨_, _, mk.eta.symm, ?_⟩
  unfold closeOpen
  cases hkey : m.openStateKeys.get? stateid.other with
  | none =>
    have hnot : ∀ key st, m.openStateKeys.get? stateid.other = some key →
        m.openStates.get? key = some st → isCurrent stateid st = false := by
      intro key st hkey'
      cases hkey.symm.trans hkey'
    dsimp only
    split
    · exact .kept nofun (.refl m) hnot
    · split
      · exact .kept nofun (.refl m) hnot
      · exact .kept nofun (.refl m) hnot
  | some key =>
    have htb := pushTombstone_same m stateid.other
    dsimp only
    split
    · next nowEmpty m₁ hrem =>
      obtain ⟨st, hst, hcurr, hunl, -⟩ := removeOpenUnderEntry_some hrem
      rw [htb.opens] at hst
      exact .closed key st hkey hst hcurr
        (.same_trans htb (finishClose_closed hunl stateid.other nowEmpty))
    · next m₁ hrem =>
      obtain rfl := removeOpenUnderEntry_none hrem
      have hnot : ∀ key' st, m.openStateKeys.get? stateid.other = some key' →
          m.openStates.get? key' = some st → isCurrent stateid st = false := by
        intro key' st hkey' hst
        obtain rfl : key = key' := mem_unique hkey hkey'
        exact removeOpenUnderEntry_none_not hrem st ((htb.opens key).trans hst)
      split
      · exact .kept nofun htb hnot
      · split
        · exact .kept nofun htb hnot
        · exact .kept nofun htb hnot

theorem Retired.of_same {m₂ : StateIdManager} (m₁ : StateIdManager)
    (hsm : SameOpens m { m₁ with openStateKeys := m.openStateKeys })
    (hks : ∀ x, m₁.openStateKeys.get? x = m.openStateKeys.get? x ∨
      x = other ∧ m₁.openStateKeys.get? x = none)
    (h : Retired m₁ m₂ other) (haft : SameOpens m₂ m') : Retired m m' other := by
  cases hsm
  cases h
  cases haft
  constructor <;> grind

theorem closeOpenState_cases (m : StateIdManager) (other : Other) :
    (∃ key st, m.openStateKeys.get? other = some key ∧ m.openStates.get? key = some st ∧
      st.stateidOther = other ∧ Closed m (m.closeOpenState other) key other) ∨
    (∀ key st, m.openStateKeys.get? other = some key → m.openStates.get? key = some st →
      st.stateidOther ≠ other) ∧ Retired m (m.closeOpenState other) other := by
  have htb := pushTombstone_same m other
  unfold closeOpenState
  dsimp only
  rw [htb.keys]
  cases hkey : m.openStateKeys.get? other with
  | none =>
    right
    refine ⟨nofun, ?_⟩
    exact Retired.of_same _ ⟨htb.next, htb.tag, htb.states, htb.statesOf,
      htb.opens, fun _ => rfl, htb.owners, htb.rows⟩ (fun x => .inl (htb.keys x))
      (removeMaster_retired _ other) (pushTombstone_same _ other)
  | some key =>
    dsimp only
    split
    · next nowEmpty m₁ hrem =>
      obtain ⟨st, hst, hoth, hunl, -⟩ := removeOpenUnderEntry_some hrem
      rw [htb.opens] at hst
      exact .inl ⟨key, st, rfl, hst, of_decide_eq_true hoth,
        .same_trans htb (finishClose_closed hunl other nowEmpty)⟩
    · next m₁ hrem =>
      obtain rfl := removeOpenUnderEntry_none hrem
      right
      refine ⟨?_, ?_⟩
      · intro key' st hkey' hst
        obtain rfl : key = key' := some.inj hkey'
        exact of_decide_eq_false (removeOpenUnderEntry_none_not hrem st ((htb.opens key).trans hst))
      · refine Retired.of_same
          { m.pushTombstone other with
            openStateKeys := (m.pushTombstone other).openStateKeys.removeIf other fun k => k = key }
          ⟨htb.next, htb.tag, htb.states, htb.statesOf,
          htb.opens, fun _ => rfl, htb.owners, htb.rows⟩ ?_ (removeMaster_retired _ other)
          (pushTombstone_same _ other)
        intro x
        dsimp only
        rw [get?_removeIf_eq, htb.keys, htb.keys]
        grind

structure RevokedAt (m m' : StateIdManager) (other : Other) : Prop where
  next : m'.nextStateid = m.nextStateid
  states : ∀ x, m'.states.get? x =
    if x = other then (m.states.get? x).map fun e => { e with revoked := true }
    else m.states.get? x
  statesOf : ∀ c, m'.statesOf c = m.statesOf c
  opens : ∀ k, m'.openStates.get? k = m.openStates.get? k
  keys : ∀ x, m'.openStateKeys.get? x = m.openStateKeys.get? x
  owners : ∀ fh, m'.ownersOf fh = m.ownersOf fh
  rows : ∀ x, m'.rows.get? x =
    match m.states.get? other with
    | some e => if x = e.stateid.other then some { e with revoked := true }.toRecord
      else m.rows.get? x
    | none => m.rows.get? x

theorem revoke_revokedAt (m : StateIdManager) (stateid : StateId) :
    RevokedAt m (m.revoke stateid).2 stateid.other := by
  unfold revoke
  constructor <;> grind

/-! ### A client that goes -/

structure Dropped (m m' : StateIdManager) (ks : List OpenKey) : Prop where
  next : m'.nextStateid = m.nextStateid
  states : ∀ x, m'.states.get? x = m.states.get? x
  statesOf : ∀ c, m'.statesOf c = m.statesOf c
  opens : ∀ k, m'.openStates.get? k = if k ∈ ks then none else m.openStates.get? k
  keys : ∀ x, m'.openStateKeys.get? x = m.openStateKeys.get? x
  fewer : ∀ fh p, p ∈ m'.ownersOf fh → p ∈ m.ownersOf fh
  kept : ∀ fh p, p ∈ m.ownersOf fh → (⟨p.1, p.2, fh⟩ : OpenKey) ∉ ks → p ∈ m'.ownersOf fh
  rows : ∀ x, m'.rows.get? x = m.rows.get? x

theorem Dropped.trans {ks ks' : List OpenKey} (h : Dropped m m₁ ks) (h' : Dropped m₁ m' ks') :
    Dropped m m' (ks ++ ks') := by
  cases h
  cases h'
  constructor <;> grind

theorem Unlisted.dropped (h : Unlisted m m₁ key) (hsm : SameOpens m₁ m') : Dropped m m' [key] := by
  cases key
  cases h
  cases hsm
  constructor <;> grind

theorem removeClientOpen_dropped (m : StateIdManager) (key : OpenKey) :
    Dropped m (m.removeClientOpen key) [key] := by
  unfold removeClientOpen
  split
  · next m₁ hrem =>
    obtain ⟨-, -, -, hunl, -⟩ := removeOpenUnderEntry_some hrem
    exact hunl.dropped (dropFhIfUnopened_same m₁ key.fh)
  · next answer m₁ _ hrem =>
    cases answer with
    | some nowEmpty =>
      obtain ⟨-, -, -, hunl, -⟩ := removeOpenUnderEntry_some hrem
      exact hunl.dropped (.refl m₁)
    | none =>
      -- there was no open at the key
      obtain rfl := removeOpenUnderEntry_none hrem
      refine ⟨rfl, fun _ => rfl, fun _ => rfl, ?_, fun _ => rfl, fun _ _ hp => hp,
        fun _ _ hp _ => hp, fun _ => rfl⟩
      intro k
      split
      · next hk =>
        obtain rfl := mem_singleton.mp hk
        cases hst : m₁.openStates.get? k with
        | none => rfl
        | some st => cases removeOpenUnderEntry_none_not hrem st hst
      · rfl

theorem foldl_removeClientOpen_dropped (keys : List OpenKey) (m : StateIdManager) :
    Dropped m (keys.foldl removeClientOpen m) keys := by
  induction keys generalizing m with
  | nil =>
    exact ⟨rfl, fun _ => rfl, fun _ => rfl, fun _ => rfl, fun _ => rfl, fun _ _ hp => hp,
      fun _ _ hp _ => hp, fun _ => rfl⟩
  | cons key keys ih => exact (removeClientOpen_dropped m key).trans (ih _)

/-- Nothing that is listed for the client is left, and none of its opens. -/
structure Purged (m m' : StateIdManager) (clientId : UInt64) : Prop where
  next : m'.nextStateid = m.nextStateid
  states : ∀ x, m'.states.get? x =
    if x ∈ m.statesOf clientId then none else m.states.get? x
  statesOf : ∀ c, m'.statesOf c = if c = clientId then [] else m.statesOf c
  opens : ∀ k, m'.openStates.get? k = if k.clientId = clientId then none else m.openStates.get? k
  keys : ∀ x, m'.openStateKeys.get? x = m.openStateKeys.get? x
  fewer : ∀ fh p, p ∈ m'.ownersOf fh → p ∈ m.ownersOf fh
  kept : ∀ fh p, p ∈ m.ownersOf fh → p.1 ≠ clientId → p ∈ m'.ownersOf fh
  rows : ∀ x, m'.rows.get? x = if x ∈ m.statesOf clientId then none else m.rows.get? x

theorem foldl_removeClientState (l : List Other) (m : StateIdManager) :
    ∃ states rows, l.foldl removeClientState m = { m with states, rows } ∧
      (∀ x, states.get? x = if x ∈ l then none else m.states.get? x) ∧
      ∀ x, rows.get? x = if x ∈ l then none else m.rows.get? x := by
  induction l generalizing m with
  | nil => exact ⟨m.states, m.rows, rfl, fun _ => rfl, fun _ => rfl⟩
  | cons other l ih =>
    obtain ⟨states, rows, heq, hstts, hrw⟩ := ih (m.removeClientState other)
    refine ⟨states, rows, heq, fun x => ?_, fun x => ?_⟩
    · rw [hstts]
      grind [removeClientState]
    · rw [hrw]
      grind [removeClientState]

theorem removeClientStateids_purged (m : StateIdManager) (clientId : UInt64) :
    Purged m (m.removeClientStateids clientId) clientId := by
  -- first the state entries, then the opens
  have hents : ∃ m₁ : StateIdManager, m.removeClientStateids clientId =
        ((m₁.openStates.toList.map fst).filter fun key => key.clientId = clientId).foldl
          removeClientOpen m₁ ∧
      (∀ x, m₁.states.get? x = if x ∈ m.statesOf clientId then none else m.states.get? x) ∧
      (∀ x, m₁.rows.get? x = if x ∈ m.statesOf clientId then none else m.rows.get? x) ∧
      (∀ c, m₁.statesOf c = if c = clientId then [] else m.statesOf c) ∧
      m₁.nextStateid = m.nextStateid ∧ m₁.openStates = m.openStates ∧
      m₁.openStateKeys = m.openStateKeys ∧ m₁.opensByFh = m.opensByFh := by
    unfold removeClientStateids
    dsimp only
    cases hli : m.clientStates.get? clientId with
    | none =>
      have hnil : m.statesOf clientId = [] := by rw [statesOf, hli, getD_none]
      exact ⟨m, rfl, by grind, by grind, by grind, rfl, rfl, rfl, rfl⟩
    | some l =>
      have hl : m.statesOf clientId = l := by rw [statesOf, hli, getD_some]
      obtain ⟨states, rows, heq, hstts, hrw⟩ := foldl_removeClientState l m
      dsimp only
      rw [heq, hl]
      refine ⟨_, rfl, hstts, hrw, ?_, rfl, rfl, rfl, rfl⟩
      intro c
      change ((m.clientStates.erase clientId).get? c).getD [] = _
      rw [get?_erase]
      split
      · rfl
      · rfl
  obtain ⟨m₁, heq, hstts, hrw, hstatesOf, hnx, hops, hks, hows⟩ := hents
  rw [heq]
  have hdr := foldl_removeClientOpen_dropped
    ((m₁.openStates.toList.map fst).filter fun key => key.clientId = clientId) m₁
  refine ⟨hdr.next.trans hnx, ?_, ?_, ?_, ?_, ?_, ?_, ?_⟩
  · intro x
    rw [hdr.states, hstts]
  · intro c
    rw [hdr.statesOf, hstatesOf]
  · intro k
    rw [hdr.opens, hops]
    simp only [mem_filter, decide_eq_true_eq]
    by_cases hk : k.clientId = clientId
    · rw [if_pos hk]
      split
      · rfl
      · next hout =>
        -- an open of the client would have been among the keys
        cases hst : m.openStates.get? k with
        | none => rfl
        | some st => exact absurd ⟨mem_map.mpr ⟨(k, st), mem_toList.mpr hst, rfl⟩, hk⟩ hout
    · rw [if_neg hk, if_neg fun h => hk h.2]
  · intro x
    rw [hdr.keys, hks]
  · intro fh p hp
    have hp' := hdr.fewer fh p hp
    rwa [ownersOf, hows] at hp'
  · intro fh p hp hne
    refine hdr.kept fh p ?_ ?_
    · rwa [ownersOf, hows]
    · rw [mem_filter]
      exact fun h => hne (of_decide_eq_true h.2)
  · intro x
    rw [hdr.rows, hrw]

end Flint.StateIds
