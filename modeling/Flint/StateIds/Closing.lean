import Flint.StateIds.Calls

/-!
# A stale CLOSE

An OPEN on an open that is there already gives out the next sequence id, so that a CLOSE with an
earlier one is found to be old and closes nothing. `closeOpen` takes a stateid for current when its
sequence id is that of the open, or 0.

So a stateid that was followed by another OPEN closes the open all the same in two cases: when it
was given out with sequence id 0, and when the number of stateids given out for the open since is a
multiple of 2 ^ 32 (`Tallied.spares_iff`).
-/

namespace Flint.StateIds

open StateIdManager Outcome List Option

structure Issue where
  key : OpenKey
  stateid : StateId
  byOpen : Bool
deriving DecidableEq

structure Logged where
  manager : StateIdManager
  issued : List Issue

def StateIdManager.issues (m : StateIdManager) : Call → List Issue
  | .recordOpen key access deny verifier ident =>
    [⟨key, (m.recordOpen key.clientId key.owner key.fh access deny verifier ident).1, true⟩]
  | .downgradeOpen stateid access deny =>
    match m.keyOfOther stateid.other, (m.downgradeOpen stateid access deny).1 with
    | some key, .ok stateid => [⟨key, stateid, false⟩]
    | _, _ => []
  | _ => []

namespace Logged

def start (tag : Option UInt32) : Logged := ⟨new tag .empty, []⟩

def step (n : Logged) (call : Call) : Logged :=
  ⟨n.manager.apply call, n.issued ++ n.manager.issues call⟩

end Logged

def Call.OnOpens : Call → Prop
  | .recordOpen _ _ _ _ _ | .downgradeOpen _ _ _ | .closeOpen _ => True
  | _ => False

def tally (other : Other) (issued : List Issue) : ℕ :=
  issued.countP fun e => e.stateid.other = other

theorem tally_append (other : Other) (l l' : List Issue) :
    tally other (l ++ l') = tally other l + tally other l' := countP_append

theorem tally_cons_self (e : Issue) (l : List Issue) :
    tally e.stateid.other (e :: l) = tally e.stateid.other l + 1 :=
  countP_cons_of_pos (decide_eq_true rfl)

theorem tally_concat (other : Other) (l : List Issue) (a : Issue) :
    tally other (l ++ [a]) = if a.stateid.other = other then tally other l + 1
      else tally other l := by
  rw [tally, countP_append, countP_singleton]
  grind [tally]

/-- What a call does to the opens and which stateid it gives out: none, the next one of an open that
is there, or the first one of a new open. -/
inductive Issuing (m m' : StateIdManager) : List Issue → Prop
  | nothing (hnx : m'.nextStateid = m.nextStateid)
      (hops : ∀ k s, m'.openStates.get? k = some s → m.openStates.get? k = some s) :
      Issuing m m' []
  | following (key : OpenKey) (cur st : OpenState) (byOpen : Bool)
      (hcur : m.openStates.get? key = some cur) (hnx : m'.nextStateid = m.nextStateid)
      (hops : ∀ k, m'.openStates.get? k = if k = key then some st else m.openStates.get? k)
      (hoth : st.stateidOther = cur.stateidOther) (hseq : st.seqid = cur.seqid + 1) :
      Issuing m m' [⟨key, ⟨cur.seqid + 1, cur.stateidOther⟩, byOpen⟩]
  | first (key : OpenKey) (st : OpenState) (hnx : m'.nextStateid = m.nextStateid + 1)
      (hops : ∀ k, m'.openStates.get? k = if k = key then some st else m.openStates.get? k)
      (hoth : st.stateidOther = m.nextOther key.clientId) (hseq : st.seqid = 1) :
      Issuing m m' [⟨key, ⟨1, m.nextOther key.clientId⟩, true⟩]

theorem issuing_apply (m : StateIdManager) {call : Call} (hca : call.OnOpens) :
    Issuing m (m.apply call) (m.issues call) := by
  cases call with
  | recordOpen key access deny verifier ident =>
    obtain ⟨sid, m', heq, hch⟩ := recordOpen_change m key access deny verifier ident
    rw [apply, issues, heq]
    cases hch with
    | merged cur hcur _ hrst => exact .following key cur _ true hcur hrst.next hrst.opens rfl rfl
    | made _ hopd => exact .first key _ hopd.next hopd.opens rfl rfl
  | downgradeOpen stateid access deny =>
    change Issuing m (m.downgradeOpen stateid access deny).2
      (match m.keyOfOther stateid.other, (m.downgradeOpen stateid access deny).1 with
        | some key, .ok stateid => [⟨key, stateid, false⟩]
        | _, _ => [])
    rcases downgradeOpen_cases m stateid access deny with
      ⟨heq, hnot⟩ | ⟨key, st, hkey, hst, -, -, -, hok, hrst⟩
    · rw [heq]
      split
      · next key sid hkey hok => exact absurd hok (hnot sid)
      · exact .nothing rfl fun _ _ hs => hs
    · rw [hkey, hok]
      exact .following key st _ false hst hrst.next hrst.opens rfl rfl
  | closeOpen stateid =>
    obtain ⟨outcome, m', heq, hch⟩ := closeOpen_change m stateid
    rw [apply, heq]
    change Issuing m m' []
    cases hch with
    | kept _ hsm _ => exact .nothing hsm.next fun k s hs => hsm.opens k ▸ hs
    | closed key st _ _ _ hcls =>
      refine .nothing hcls.next ?_
      intro k s hs
      rw [hcls.opens] at hs
      split at hs
      · cases hs
      · exact hs
  | closeOpenState _ | revoke _ | removeClientStateids _ | restart _ _ => exact hca.elim

/-! ### The count of the stateids -/

variable {a : Issue}

theorem concat_eq_append_cons {l l₁ l₂ : List Issue} {b : Issue} (h : l ++ [a] = l₁ ++ b :: l₂) :
    (l₁ = l ∧ b = a ∧ l₂ = []) ∨ ∃ l₂', l₂ = l₂' ++ [a] ∧ l = l₁ ++ b :: l₂' := by
  rcases eq_nil_or_concat l₂ with rfl | ⟨l₂', c, rfl⟩
  · obtain ⟨rfl, hb⟩ := append_inj' h rfl
    exact .inl ⟨rfl, (singleton_inj.mp hb).symm, rfl⟩
  · rw [concat_eq_append, ← cons_append, ← append_assoc] at h
    obtain ⟨rfl, hc⟩ := append_inj' h rfl
    exact .inr ⟨l₂', by rw [concat_eq_append, singleton_inj.mp hc], rfl⟩

structure Tallied (n : Logged) : Prop where
  sound : Sound n.manager
  known : ∀ e ∈ n.issued, e.stateid.other.counter < n.manager.nextStateid
  /-- The n-th stateid for an open has sequence id n. -/
  seqids : ∀ l₁ e l₂, n.issued = l₁ ++ e :: l₂ →
    e.stateid.seqid = UInt32.ofNat (tally e.stateid.other l₁ + 1)
  current : ∀ key st, n.manager.openStates.get? key = some st →
    st.seqid = UInt32.ofNat (tally st.stateidOther n.issued)
  own : ∀ key st, n.manager.openStates.get? key = some st →
    ∀ e ∈ n.issued, e.stateid.other = st.stateidOther → e.key = key
  /-- From the first stateid of an open on, every one for its key is one of it. -/
  since : ∀ key st, n.manager.openStates.get? key = some st →
    ∀ l₁ e l₂, n.issued = l₁ ++ e :: l₂ → e.stateid.other = st.stateidOther →
      ∀ e' ∈ l₂, e'.key = key → e'.stateid.other = st.stateidOther

theorem tallied_start (tag : Option UInt32) : Tallied (.start tag) where
  sound := sound_new tag
  known := nofun
  seqids l₁ e l₂ h := absurd h.symm (append_ne_nil_of_right_ne_nil _ (cons_ne_nil _ _))
  current key st hst := by cases (show (none : Option OpenState) = some st from hst)
  own key st hst := by cases (show (none : Option OpenState) = some st from hst)
  since key st hst := by cases (show (none : Option OpenState) = some st from hst)

theorem ofNat_succ (k : ℕ) : UInt32.ofNat k + 1 = UInt32.ofNat (k + 1) := by
  rw [UInt32.ofNat_add]
  rfl

variable {n : Logged}

theorem Tallied.tally_next (h : Tallied n) (c : UInt64) :
    tally (n.manager.nextOther c) n.issued = 0 := by
  apply countP_eq_zero.mpr
  intro e he
  rw [decide_eq_true_eq]
  intro hoth
  have hlt := h.known e he
  rw [hoth] at hlt
  exact lt_irrefl n.manager.nextStateid hlt

variable {st : OpenState}

theorem Tallied.issue (h : Tallied n) {m' : StateIdManager} (hsnd : Sound m')
    (hnx : n.manager.nextStateid ≤ m'.nextStateid)
    (hkn : a.stateid.other.counter < m'.nextStateid) (hops : ∀ k, m'.openStates.get? k =
      if k = a.key then some st else n.manager.openStates.get? k)
    (hst : st.stateidOther = a.stateid.other ∧ st.seqid = a.stateid.seqid)
    (hseq : a.stateid.seqid = UInt32.ofNat (tally a.stateid.other n.issued + 1))
    (hap : ∀ k s, n.manager.openStates.get? k = some s → k ≠ a.key →
      a.stateid.other ≠ s.stateidOther)
    (hown : ∀ e ∈ n.issued, e.stateid.other = a.stateid.other → e.key = a.key)
    (hsin : ∀ l₁ e l₂, n.issued = l₁ ++ e :: l₂ → e.stateid.other = a.stateid.other →
      ∀ e' ∈ l₂, e'.key = a.key → e'.stateid.other = a.stateid.other) :
    Tallied ⟨m', n.issued ++ [a]⟩ := by
  obtain ⟨-, known, seqids, current, own, since⟩ := h
  refine ⟨hsnd, ?_, ?_, ?_, ?_, ?_⟩
  · grind
  · intro l₁ e l₂ heq
    rcases concat_eq_append_cons heq with ⟨rfl, rfl, rfl⟩ | ⟨l₂', -, hbef⟩
    · exact hseq
    · exact seqids l₁ e l₂' hbef
  · grind [tally_concat]
  · grind
  · intro k s hs l₁ e l₂ heq
    rcases concat_eq_append_cons heq with ⟨-, -, rfl⟩ | ⟨l₂', rfl, hbef⟩
    · grind
    · have := hsin l₁ e l₂' hbef
      have := fun s hs => since k s hs l₁ e l₂' hbef
      grind

theorem Tallied.step (h : Tallied n) {call : Call} (hca : call.OnOpens) :
    Tallied (n.step call) := by
  have hsnd := h.sound.apply call
  have hissuing := issuing_apply n.manager hca
  unfold Logged.step
  generalize n.manager.apply call = m', n.manager.issues call = new at hissuing hsnd ⊢
  cases hissuing with
  | nothing hnx hops =>
    rw [append_nil]
    refine ⟨hsnd, ?_, h.seqids, ?_, ?_, ?_⟩
    · exact fun e he => hnx ▸ h.known e he
    · exact fun k s hs => h.current k s (hops k s hs)
    · exact fun k s hs => h.own k s (hops k s hs)
    · exact fun k s hs => h.since k s (hops k s hs)
  | following key cur st byOpen hcur hnx hops hoth hseq =>
    refine h.issue hsnd hnx.ge ?_ hops ⟨hoth, hseq⟩ ?_ ?_ (h.own key cur hcur)
      (h.since key cur hcur)
    · rw [hnx]
      exact h.sound.freshOpen key cur hcur
    · change cur.seqid + 1 = UInt32.ofNat (tally cur.stateidOther n.issued + 1)
      rw [h.current key cur hcur, ofNat_succ]
    · -- an open with another key has another stateid
      intro k s hs hk hx
      have hlnk := h.sound.linked k s hs
      rw [← hx, h.sound.linked key cur hcur] at hlnk
      exact hk (some.inj hlnk).symm
  | first key st hnx hops hoth hseq =>
    have hno := h.tally_next key.clientId
    -- no stateid given out before has the new `other`
    have hnew : ∀ e ∈ n.issued, e.stateid.other ≠ n.manager.nextOther key.clientId := by
      intro e he hx
      exact countP_eq_zero.mp hno e he (decide_eq_true hx)
    refine h.issue hsnd (hnx ▸ Nat.le_succ _) (hnx ▸ Nat.lt_succ_self _) hops
      ⟨hoth, hseq⟩ ?_ ?_ ?_ ?_
    · change 1 = UInt32.ofNat (tally (n.manager.nextOther key.clientId) n.issued + 1)
      rw [hno]
      rfl
    · exact fun k s hs _ => ((h.sound.next_unused key.clientId).2 k s hs).symm
    · exact fun e he hx => absurd hx (hnew e he)
    · intro l₁ e l₂ heq hx
      exact absurd hx (hnew e (heq ▸ mem_append_right l₁ (.head _)))

theorem Tallied.run (tag : Option UInt32) {calls : List Call} (hcs : ∀ call ∈ calls, call.OnOpens) :
    Tallied (run Logged.step (.start tag) calls) := by
  induction calls using reverseRecOn with
  | nil => exact tallied_start tag
  | append_singleton calls call ih =>
    rw [run_append]
    exact (ih fun c hc => hcs c (mem_append_left _ hc)).step
      (hcs call (mem_append_right _ (mem_singleton_self call)))

/-! ### Closing with a stateid that was given out -/

def Spares (m : StateIdManager) (stateid : StateId) : Prop :=
  (m.closeOpen stateid).1 ≠ .closed ∧
    ∀ key, (m.closeOpen stateid).2.openStates.get? key = m.openStates.get? key

variable {stateid : StateId}

theorem other_of_isCurrent (h : isCurrent stateid st) : st.stateidOther = stateid.other := by
  rw [isCurrent, Bool.and_eq_true, decide_eq_true_eq] at h
  exact h.1

variable {m : StateIdManager} {key : OpenKey}

theorem Sound.closeOpen_of_current (h : Sound m)
    (hst : m.openStates.get? key = some st) (hcurr : isCurrent stateid st) :
    (m.closeOpen stateid).1 = .closed ∧ (m.closeOpen stateid).2.openStates.get? key = none := by
  obtain ⟨outcome, m', heq, hch⟩ := closeOpen_change m stateid
  have hkey := h.linked key st hst
  rw [other_of_isCurrent hcurr] at hkey
  rw [heq]
  cases hch with
  | kept _ _ hnot =>
    rw [hnot key st hkey hst] at hcurr
    cases hcurr
  | closed key' st' hkey' _ _ hcls =>
    obtain rfl : key = key' := mem_unique hkey hkey'
    exact ⟨rfl, by rw [hcls.opens, if_pos rfl]⟩

theorem Sound.spares_iff (h : Sound m) (stateid : StateId) :
    Spares m stateid ↔ ¬∃ key st, m.openStates.get? key = some st ∧ isCurrent stateid st := by
  constructor
  · rintro hspares ⟨key, st, hst, hcurr⟩
    exact hspares.1 (h.closeOpen_of_current hst hcurr).1
  · intro hno
    obtain ⟨outcome, m', heq, hch⟩ := closeOpen_change m stateid
    rw [Spares, heq]
    cases hch with
    | kept hout hsm _ => exact ⟨hout, hsm.opens⟩
    | closed key st _ hst hcurr _ => exact absurd ⟨key, st, hst, hcurr⟩ hno

theorem ofNat_eq_ofNat_iff {a b : ℕ} : UInt32.ofNat a = UInt32.ofNat (a + b) ↔ 2 ^ 32 ∣ b := by
  rw [← UInt32.toNat_inj, UInt32.toNat_ofNat', UInt32.toNat_ofNat']
  have hmod := Nat.modEq_iff_dvd' (n := 2 ^ 32) (Nat.le_add_right a b)
  rwa [Nat.add_sub_cancel_left] at hmod

theorem Tallied.spares_iff (h : Tallied n) {before after : List Issue} {byOpen : Bool}
    (hiss : n.issued = before ++ ⟨key, stateid, byOpen⟩ :: after)
    (hlat : ∃ e ∈ after, e.key = key ∧ e.byOpen) :
    Spares n.manager stateid ↔
      ¬∃ st, n.manager.openStates.get? key = some st ∧ st.stateidOther = stateid.other ∧
        (stateid.seqid = 0 ∨ 0 < tally stateid.other after ∧
          2 ^ 32 ∣ tally stateid.other after) := by
  rw [h.sound.spares_iff]
  refine not_congr ?_
  have hmem : (⟨key, stateid, byOpen⟩ : Issue) ∈ n.issued := by
    rw [hiss]
    exact mem_append_right before (.head _)
  -- an open with this stateid is at the key, and has the sequence id of its last stateid
  have hplc : ∀ k st, n.manager.openStates.get? k = some st → st.stateidOther = stateid.other →
      k = key ∧ (stateid.seqid = st.seqid ↔ 2 ^ 32 ∣ tally stateid.other after) := by
    intro k st hst hoth
    refine ⟨(h.own k st hst _ hmem hoth.symm).symm, ?_⟩
    have hseq := h.seqids before _ after hiss
    rw [show stateid.seqid = _ from hseq, h.current k st hst, hoth, hiss, tally_append,
      tally_cons_self ⟨key, stateid, byOpen⟩, ← Nat.add_assoc, Nat.add_right_comm]
    exact ofNat_eq_ofNat_iff
  constructor
  · rintro ⟨k, st, hst, hcurr⟩
    rw [isCurrent, Bool.and_eq_true, Bool.or_eq_true, decide_eq_true_eq, decide_eq_true_eq,
      decide_eq_true_eq] at hcurr
    obtain ⟨hoth, hseq⟩ := hcurr
    obtain ⟨rfl, hdvd⟩ := hplc k st hst hoth
    refine ⟨st, hst, hoth, hseq.imp_right fun heq => ⟨?_, hdvd.mp heq⟩⟩
    -- the OPEN that came after was one of the same open
    obtain ⟨e, he, hkey, -⟩ := hlat
    apply countP_pos_iff.mpr
    refine ⟨e, he, decide_eq_true ?_⟩
    rw [h.since k st hst before _ after hiss hoth.symm e he hkey, hoth]
  · rintro ⟨st, hst, hoth, hseq⟩
    refine ⟨key, st, hst, ?_⟩
    rw [isCurrent, Bool.and_eq_true, Bool.or_eq_true, decide_eq_true_eq, decide_eq_true_eq,
      decide_eq_true_eq]
    exact ⟨hoth, hseq.imp_right fun hdvd => (hplc key st hst hoth).2.mpr hdvd.2⟩

/-- A CLOSE with a stateid that an OPEN of its key came after, and whose sequence id is not 0,
closes nothing, unless the open is still the one it was given out for and a multiple of 2 ^ 32
stateids were given out for it since. -/
theorem stale_close_spares_iff (tag : Option UInt32) (calls : List Call)
    (hcs : ∀ call ∈ calls, call.OnOpens) (before after : List Issue) (key : OpenKey)
    (stateid : StateId) (byOpen : Bool)
    (hiss : (run Logged.step (.start tag) calls).issued = before ++ ⟨key, stateid, byOpen⟩ :: after)
    (hlat : ∃ e ∈ after, e.key = key ∧ e.byOpen) (hseq : stateid.seqid ≠ 0) :
    Spares (run Logged.step (.start tag) calls).manager stateid ↔
      ¬∃ st, (run Logged.step (.start tag) calls).manager.openStates.get? key = some st ∧
        st.stateidOther = stateid.other ∧
        0 < tally stateid.other after ∧ 2 ^ 32 ∣ tally stateid.other after := by
  rw [(Tallied.run tag hcs).spares_iff hiss hlat]
  simp only [hseq, false_or]

/-- Two OPENs of one key and an OPEN of another; the key is closed with its first stateid. -/
theorem close_with_first_stateid_spares :
    Spares (run Logged.step (.start none)
      [.recordOpen ⟨1, [1], [7]⟩ 1 0 none none, .recordOpen ⟨2, [2], [7]⟩ 1 0 none none,
        .recordOpen ⟨1, [1], [7]⟩ 3 0 none none]).manager ⟨1, ⟨1, 1⟩⟩ := by
  refine (stale_close_spares_iff none _ ?_ [] [⟨⟨2, [2], [7]⟩, ⟨1, ⟨2, 2⟩⟩, true⟩,
    ⟨⟨1, [1], [7]⟩, ⟨2, ⟨1, 1⟩⟩, true⟩] ⟨1, [1], [7]⟩ ⟨1, ⟨1, 1⟩⟩ true (by decide) ?_
    (by decide)).mpr ?_
  · intro call hca
    simp only [mem_cons, not_mem_nil, or_false] at hca
    rcases hca with rfl | rfl | rfl
    all_goals trivial
  · exact ⟨⟨⟨1, [1], [7]⟩, ⟨2, ⟨1, 1⟩⟩, true⟩, by decide, rfl, rfl⟩
  · rintro ⟨st, -, -, -, hdvd⟩
    exact absurd hdvd (by decide)

/-! ### An open that is opened again and again -/

theorem recordOpen_of_none (h : m.openStates.get? key = none) (access deny : UInt32)
    (verifier : Option UInt64) (ident : Option Ident) :
    let result := m.recordOpen key.clientId key.owner key.fh access deny verifier ident
    result.1 = ⟨1, m.nextOther key.clientId⟩ ∧
      (∃ st, result.2.openStates.get? key = some st ∧
        st.stateidOther = m.nextOther key.clientId ∧ st.seqid = 1) ∧
      result.2.masterAlive (m.nextOther key.clientId) := by
  obtain ⟨sid, m', heq, hch⟩ := recordOpen_change m key access deny verifier ident
  simp only [heq]
  cases hch with
  | merged cur hcur => cases h.symm.trans hcur
  | made _ hopd =>
    refine ⟨rfl, ⟨_, (hopd.opens key).trans (if_pos rfl), rfl, rfl⟩, ?_⟩
    rw [masterAlive, hopd.states, if_pos rfl]
    rfl

theorem recordOpen_of_alive {cur : OpenState} (h : m.openStates.get? key = some cur)
    (hliv : m.masterAlive cur.stateidOther) (access deny : UInt32)
    (verifier : Option UInt64) (ident : Option Ident) :
    let result := m.recordOpen key.clientId key.owner key.fh access deny verifier ident
    result.1 = ⟨cur.seqid + 1, cur.stateidOther⟩ ∧
      (∃ st, result.2.openStates.get? key = some st ∧
        st.stateidOther = cur.stateidOther ∧ st.seqid = cur.seqid + 1) ∧
      result.2.masterAlive cur.stateidOther := by
  obtain ⟨sid, m', heq, hch⟩ := recordOpen_change m key access deny verifier ident
  simp only [heq]
  cases hch with
  | merged cur' hcur _ hrst =>
    obtain rfl : cur = cur' := mem_unique h hcur
    refine ⟨rfl, ⟨_, (hrst.opens key).trans (if_pos rfl), rfl, rfl⟩, ?_⟩
    -- the new masks do not touch the mark of revocation
    rw [masterAlive, hrst.states, if_pos rfl, Option.any_map]
    exact hliv
  | made hdd _ =>
    rw [hdd cur h] at hliv
    cases hliv

theorem run_replicate_recordOpen (key : OpenKey) (access deny : UInt32) (k : ℕ)
    (hn : n = run Logged.step (.start none)
      (replicate (k + 1) (.recordOpen key access deny none none))) :
    (∃ st, n.manager.openStates.get? key = some st ∧
      st.stateidOther = ⟨1, key.clientId.toUInt32⟩ ∧ st.seqid = UInt32.ofNat (k + 1)) ∧
    n.manager.masterAlive ⟨1, key.clientId.toUInt32⟩ ∧
    n.issued = (range (k + 1)).map fun i =>
      ⟨key, ⟨UInt32.ofNat (i + 1), ⟨1, key.clientId.toUInt32⟩⟩, true⟩ := by
  induction k generalizing n with
  | zero =>
    obtain ⟨hsid, hop, hliv⟩ := recordOpen_of_none
      (show (new none .empty).openStates.get? key = none from rfl) access deny none none
    subst hn
    refine ⟨hop, hliv, ?_⟩
    change [] ++ [Issue.mk key ((new none .empty).recordOpen key.clientId key.owner key.fh access
      deny none none).1 true] = _
    rw [hsid]
    rfl
  | succ k ih =>
    obtain ⟨⟨cur, hcur, hoth, hseq⟩, hliv, hiss⟩ := ih rfl
    rw [replicate_succ', run_append] at hn
    generalize run Logged.step (.start none)
      (replicate (k + 1) (.recordOpen key access deny none none)) = n₀ at *
    subst hn
    rw [← hoth] at hliv
    obtain ⟨hsid, ⟨st, hst, hoth', hseq'⟩, hliv'⟩ :=
      recordOpen_of_alive hcur hliv access deny none none
    refine ⟨⟨st, hst, hoth'.trans hoth, ?_⟩, hoth ▸ hliv', ?_⟩
    · rw [hseq', hseq, ofNat_succ]
    · change n₀.issued ++ [Issue.mk key (n₀.manager.recordOpen key.clientId key.owner key.fh access
        deny none none).1 true] = _
      rw [hsid, hiss, hseq, hoth, ofNat_succ, range_succ (n := k + 1), map_append]
      rfl

def reopenings : List Call := replicate (2 ^ 32 + 1) (.recordOpen ⟨1, [1], [7]⟩ 1 0 none none)

theorem reopenings_onOpens : ∀ call ∈ reopenings, call.OnOpens := by
  intro call hca
  rw [eq_of_mem_replicate hca]
  trivial

theorem reopenings_issued (hn : n = run Logged.step (.start none) reopenings) {i : ℕ}
    (hi : i < 2 ^ 32 + 1) :
    n.issued[i]? = some ⟨⟨1, [1], [7]⟩, ⟨UInt32.ofNat (i + 1), ⟨1, 1⟩⟩, true⟩ := by
  obtain ⟨-, -, hiss⟩ := run_replicate_recordOpen ⟨1, [1], [7]⟩ 1 0 (2 ^ 32) hn
  rw [hiss, getElem?_map, getElem?_range hi, map_some]
  rfl

theorem reopenings_close (hn : n = run Logged.step (.start none) reopenings)
    {seqid : UInt32} (hseq : seqid = 0 ∨ seqid = 1) :
    (n.manager.closeOpen ⟨seqid, ⟨1, 1⟩⟩).1 = .closed ∧
      (n.manager.closeOpen ⟨seqid, ⟨1, 1⟩⟩).2.openStates.get? ⟨1, [1], [7]⟩ = none := by
  have h : Tallied n := hn ▸ Tallied.run none reopenings_onOpens
  obtain ⟨⟨st, hst, hoth, hcur⟩, -, -⟩ :=
    run_replicate_recordOpen ⟨1, [1], [7]⟩ 1 0 (2 ^ 32) hn
  have hone : st.seqid = 1 := hcur.trans (by decide)
  apply h.sound.closeOpen_of_current hst
  rw [isCurrent, hoth, hone, Bool.and_eq_true, Bool.or_eq_true, decide_eq_true_eq,
    decide_eq_true_eq, decide_eq_true_eq]
  exact ⟨rfl, hseq⟩

/-- The last OPEN gives out the stateid of the first again. A CLOSE with it, sent between the two,
closes the open. -/
theorem first_stateid_current_again :
    (run Logged.step (.start none) reopenings).issued[0]? =
        some ⟨⟨1, [1], [7]⟩, ⟨1, ⟨1, 1⟩⟩, true⟩ ∧
      (run Logged.step (.start none) reopenings).issued[2 ^ 32]? =
        some ⟨⟨1, [1], [7]⟩, ⟨1, ⟨1, 1⟩⟩, true⟩ ∧
      ((run Logged.step (.start none) reopenings).manager.closeOpen ⟨1, ⟨1, 1⟩⟩).1 = .closed ∧
      ((run Logged.step (.start none) reopenings).manager.closeOpen
        ⟨1, ⟨1, 1⟩⟩).2.openStates.get? ⟨1, [1], [7]⟩ = none := by
  generalize hn : run Logged.step (.start none) reopenings = n
  have hla : UInt32.ofNat (2 ^ 32 + 1) = 1 := by decide
  refine ⟨reopenings_issued hn.symm (by omega), ?_, reopenings_close hn.symm (.inr rfl)⟩
  rw [reopenings_issued hn.symm (by omega), hla]

end Flint.StateIds
