import Flint.StateIds.Effects

/-!
# A restart

A new manager takes the rows of the backend in, in any order. What it has then is known from the
rows: a state entry for each, and for the row of an open that is not revoked its open, its key and
its owner (`Loaded.opens`).
-/

namespace Flint.StateIds

open StateIdManager StateIdRecord Dict List

def StateIdRecord.openOf (r : StateIdRecord) : Option (OpenKey × OpenState) :=
  match r.stateType, r.revoked, r.opened, r.filehandle with
  | .openFile, false, some o, some fh =>
    some (⟨r.clientId, o.owner, fh⟩, ⟨r.other, r.seqid, o.shareAccess, o.shareDeny, none⟩)
  | _, _, _, _ => none

variable {r : StateIdRecord}

theorem StateIdRecord.openOf_eq_some {key : OpenKey} {st : OpenState}
    (h : r.openOf = some (key, st)) :
    r.stateType = .openFile ∧ r.revoked = false ∧ r.clientId = key.clientId ∧
      r.filehandle = some key.fh ∧ r.opened = some ⟨key.owner, st.shareAccess, st.shareDeny⟩ ∧
      st.stateidOther = r.other ∧ st.seqid = r.seqid := by
  unfold openOf at h
  split at h
  · next o fh hty hrev hopd hfh =>
    cases h
    exact ⟨hty, hrev, rfl, hfh, hopd, rfl, rfl⟩
  · cases h

theorem StateIdRecord.openOf_of (r : StateIdRecord) (key : OpenKey) {access deny : UInt32}
    (hty : r.stateType = .openFile) (hrev : r.revoked = false) (hcl : r.clientId = key.clientId)
    (hfh : r.filehandle = some key.fh) (hopd : r.opened = some ⟨key.owner, access, deny⟩) :
    r.openOf = some (key, ⟨r.other, r.seqid, access, deny, none⟩) := by
  rw [openOf, hty, hrev, hopd, hfh, hcl]

theorem loadOpen_of_some {key : OpenKey} {st : OpenState} (h : r.openOf = some (key, st))
    (m : StateIdManager) :
    m.loadOpen r = ({ m with
      openStateKeys := m.openStateKeys.insert r.other key
      openStates := m.openStates.insert key st } : StateIdManager).addOwner
        key.fh key.clientId key.owner := by
  unfold openOf at h
  split at h
  · next o fh hty hrev hopd hfh =>
    cases h
    rw [loadOpen, hty, hrev, hopd, hfh]
  · cases h

theorem loadOpen_of_none (h : r.openOf = none) (m : StateIdManager) : m.loadOpen r = m := by
  unfold loadOpen
  split
  · next o fh hty hrev hopd hfh =>
    rw [openOf, hty, hrev, hopd, hfh] at h
    cases h
  · rfl

structure Distinct (records : List StateIdRecord) : Prop where
  others : records.Pairwise fun r r' => r.other ≠ r'.other
  keys : records.Pairwise fun r r' =>
    ∀ key st st', r.openOf = some (key, st) → r'.openOf ≠ some (key, st')

structure Loaded (records : List StateIdRecord) (m : StateIdManager) : Prop where
  states : ∀ x e, m.states.get? x = some e ↔
    ∃ r ∈ records, r.stateType ≠ .delegation ∧ r.other = x ∧ e = .fromRecord r
  statesOf : ∀ c, m.statesOf c = (records.filter fun r =>
    r.stateType ≠ .delegation && r.clientId = c).map other
  opens : ∀ key st, m.openStates.get? key = some st ↔ ∃ r ∈ records, r.openOf = some (key, st)
  keys : ∀ x key, m.openStateKeys.get? x = some key ↔
    ∃ r ∈ records, r.other = x ∧ ∃ st, r.openOf = some (key, st)
  owners : ∀ fh p, p ∈ m.ownersOf fh ↔ ∃ r ∈ records, ∃ st, r.openOf = some (⟨p.1, p.2, fh⟩, st)
  idents : m.identsByFh = .empty
  fhs : m.fhsByIdent = .empty

theorem loaded_new (tag : Option UInt32) (rows : Dict Other StateIdRecord) :
    Loaded [] (.new tag rows) where
  states x e := by
    change (empty : Dict Other StateEntry).get? x = some e ↔ _
    simp
  statesOf _ := rfl
  opens key st := by
    change (empty : Dict OpenKey OpenState).get? key = some st ↔ _
    simp
  keys x key := by
    change (empty : Dict Other OpenKey).get? x = some key ↔ _
    simp
  owners fh p := by
    change p ∈ ((empty : Dict Bytes (List (UInt64 × Bytes))).get? fh).getD [] ↔ _
    simp
  idents := rfl
  fhs := rfl

variable {l : List StateIdRecord}

theorem exists_mem_concat {P : StateIdRecord → Prop} :
    (∃ r' ∈ l ++ [r], P r') ↔ (∃ r' ∈ l, P r') ∨ P r := by
  simp [or_and_right, exists_or]

theorem Loaded.loadOpen {m : StateIdManager} (h : Loaded l m) (hdis : Distinct (l ++ [r])) :
    (∀ key st, (m.loadOpen r).openStates.get? key = some st ↔
      ∃ r' ∈ l ++ [r], r'.openOf = some (key, st)) ∧
    (∀ x key, (m.loadOpen r).openStateKeys.get? x = some key ↔
      ∃ r' ∈ l ++ [r], r'.other = x ∧ ∃ st, r'.openOf = some (key, st)) ∧
    ∀ fh p, p ∈ (m.loadOpen r).ownersOf fh ↔
      ∃ r' ∈ l ++ [r], ∃ st, r'.openOf = some (⟨p.1, p.2, fh⟩, st) := by
  obtain ⟨-, -, hoths⟩ := pairwise_append.mp hdis.others
  obtain ⟨-, -, hks⟩ := pairwise_append.mp hdis.keys
  simp only [exists_mem_concat]
  cases hop : r.openOf with
  | none =>
    rw [loadOpen_of_none hop]
    cases h
    grind
  | some keyed =>
    obtain ⟨key, st⟩ := keyed
    rw [loadOpen_of_some hop]
    refine ⟨?_, ?_, ?_⟩
    · intro key' st'
      change (m.openStates.insert key st).get? key' = some st' ↔ _
      -- the key is on one row only
      rw [get?_insert, ← h.opens]
      have := h.opens key
      grind
    · intro x key'
      change (m.openStateKeys.insert r.other key).get? x = some key' ↔ _
      rw [get?_insert, ← h.keys]
      have := h.keys r.other
      grind
    · intro fh p
      rw [mem_ownersOf_addOwner]
      refine or_congr (h.owners fh p) ?_
      constructor
      · rintro ⟨rfl, rfl⟩
        exact ⟨st, rfl⟩
      · rintro ⟨st', hkey⟩
        obtain rfl := (Prod.mk.inj (Option.some.inj hkey)).1
        exact ⟨rfl, rfl⟩

theorem loadOpen_frame (m : StateIdManager) (r : StateIdRecord) :
    (m.loadOpen r).nextStateid = m.nextStateid ∧ (m.loadOpen r).stateidTag = m.stateidTag ∧
      (m.loadOpen r).states = m.states ∧ (m.loadOpen r).clientStates = m.clientStates ∧
      (m.loadOpen r).identsByFh = m.identsByFh ∧ (m.loadOpen r).fhsByIdent = m.fhsByIdent ∧
      (m.loadOpen r).rows = m.rows := by
  unfold StateIdManager.loadOpen
  split
  · exact ⟨rfl, rfl, rfl, rfl, rfl, rfl, rfl⟩
  · exact ⟨rfl, rfl, rfl, rfl, rfl, rfl, rfl⟩

theorem Loaded.loadRecord {m : StateIdManager} (h : Loaded l m) (hdis : Distinct (l ++ [r])) :
    Loaded (l ++ [r]) (m.loadRecord r) := by
  obtain ⟨-, -, hoths⟩ := pairwise_append.mp hdis.others
  unfold StateIdManager.loadRecord
  by_cases hty : r.stateType = .delegation
  · -- the row of a delegation is passed over: it stands for no entry and no open
    have hop : ∀ key st, r.openOf ≠ some (key, st) := by
      intro key st hst
      have := (openOf_eq_some hst).1
      rw [hty] at this
      cases this
    rw [if_pos hty]
    obtain ⟨hstts, hstatesOf, hops, hks, hows, hidents, hfhs⟩ := h
    refine ⟨?_, by simp [hstatesOf, hty], ?_, ?_, ?_, hidents, hfhs⟩
    all_goals
      simp only [exists_mem_concat]
      grind
  · rw [if_neg hty]
    obtain ⟨hops, hks, hows⟩ := h.loadOpen hdis
    obtain ⟨-, -, hstts, hcls, hidents, hfhs, -⟩ := loadOpen_frame m r
    refine ⟨?_, ?_, hops, hks, hows, hidents.trans h.idents, hfhs.trans h.fhs⟩
    · intro x e
      change ((m.loadOpen r).states.insert r.other _).get? x = some e ↔ _
      have hstts' := h.states x e
      rw [get?_insert, hstts, exists_mem_concat]
      grind
    · intro c
      change (((m.loadOpen r).clientStates.insert r.clientId
        ((m.loadOpen r).statesOf r.clientId ++ [r.other])).get? c).getD [] = _
      rw [get?_insert, filter_append, map_append, ← h.statesOf]
      grind [StateIdManager.statesOf]

theorem loadRecord_frame (m : StateIdManager) (r : StateIdRecord) :
    (m.loadRecord r).nextStateid = m.nextStateid ∧ (m.loadRecord r).stateidTag = m.stateidTag ∧
      (m.loadRecord r).rows = m.rows := by
  obtain ⟨hnx, htag, -, -, -, -, hrw⟩ := loadOpen_frame m r
  unfold loadRecord
  split
  · exact ⟨rfl, rfl, rfl⟩
  · exact ⟨hnx, htag, hrw⟩

theorem foldl_loadRecord (tag : Option UInt32) (rows : Dict Other StateIdRecord)
    {records : List StateIdRecord} (hdis : Distinct records) :
    Loaded records (records.foldl loadRecord (.new tag rows)) ∧
      (records.foldl loadRecord (.new tag rows)).rows = rows := by
  -- the last row is taken in on top of those before it
  induction records using reverseRecOn with
  | nil => exact ⟨loaded_new tag rows, rfl⟩
  | append_singleton l r ih =>
    have hbef : Distinct l :=
      ⟨(pairwise_append.mp hdis.others).1, (pairwise_append.mp hdis.keys).1⟩
    obtain ⟨hld, hrw⟩ := ih hbef
    rw [foldl_append, foldl_cons, foldl_nil]
    exact ⟨hld.loadRecord hdis, (loadRecord_frame _ r).2.2.trans hrw⟩

theorem le_foldl_max (l : List StateIdRecord) (k : ℕ) :
    k ≤ l.foldl (fun k r => max k r.other.counter) k ∧
      ∀ r ∈ l, r.other.counter ≤ l.foldl (fun k r => max k r.other.counter) k := by
  induction l generalizing k with
  | nil => exact ⟨le_refl k, nofun⟩
  | cons r l ih =>
    obtain ⟨hk, hl⟩ := ih (max k r.other.counter)
    refine ⟨(le_max_left k _).trans hk, ?_⟩
    intro r' hr'
    rcases mem_cons.mp hr' with rfl | hr'
    · exact (le_max_right k _).trans hk
    · exact hl r' hr'

theorem loadRecords_loaded (tag : Option UInt32) (rows : Dict Other StateIdRecord)
    {records : List StateIdRecord} (hdis : Distinct records) :
    Loaded records ((new tag rows).loadRecords records) ∧
      ((new tag rows).loadRecords records).rows = rows ∧
      ∀ r ∈ records, r.stateType ≠ .delegation →
        r.other.counter < ((new tag rows).loadRecords records).nextStateid := by
  obtain ⟨hld, hrw⟩ := foldl_loadRecord tag rows hdis
  have hmax := (le_foldl_max (records.filter fun r => r.stateType ≠ .delegation) 0).2
  have hctr : ∀ r ∈ records, r.stateType ≠ .delegation → r.other.counter ≤
      (records.filter fun r => r.stateType ≠ .delegation).foldl
        (fun k r => max k r.other.counter) 0 := by
    intro r hr hty
    exact hmax r (mem_filter.mpr ⟨hr, decide_eq_true hty⟩)
  unfold loadRecords
  dsimp only
  split
  · next hle =>
    -- the counter is moved, and everything else reads as before
    refine ⟨⟨hld.states, hld.statesOf, hld.opens, hld.keys, hld.owners,
      hld.idents, hld.fhs⟩, hrw, ?_⟩
    intro r hr hty
    exact Nat.lt_succ_of_le (hctr r hr hty)
  · next hlt =>
    refine ⟨hld, hrw, ?_⟩
    intro r hr hty
    exact (hctr r hr hty).trans_lt (not_le.mp hlt)

end Flint.StateIds
