import Flint.StateIds.Calls

/-!
# Stateids over the lives of a server

A stateid is made from a counter in memory. A restart goes on one above the highest that a row has,
and the rows are those of the stateids still in use. When the stateid made last still has its row at
every restart (`Retained`), no stateid is made twice. One that is closed before a restart is made
again.
-/

namespace Flint.StateIds

open StateIdManager Outcome List Nat

/-- A call, or the start of the next life, which reads the rows in some order. -/
inductive LifeCall
  | allocate (stateType : StateType) (clientId : UInt64) (filehandle : Option Bytes)
  | recordOpen (key : OpenKey) (access deny : UInt32) (verifier : Option UInt64)
      (ident : Option Ident)
  | closeOpen (stateid : StateId)
  | remove (stateid : StateId)
  | removeClientStateids (clientId : UInt64)
  | restart (records : List StateIdRecord)

def Other.bytes (other : Other) : UInt64 × UInt32 := (UInt64.ofNat other.counter, other.low)

structure Lives where
  manager : StateIdManager
  /-- The stateids made so far, the last one first, each with the client it was made for. -/
  issued : List (UInt64 × UInt64 × UInt32)

namespace Lives

def new (tag : Option UInt32) : Lives := ⟨.new tag .empty, []⟩

def apply (s : Lives) : LifeCall → Lives
  | .allocate stateType clientId filehandle =>
    let (stateid, m) := s.manager.allocate stateType clientId filehandle
    ⟨m, (clientId, stateid.other.bytes) :: s.issued⟩
  | .recordOpen key access deny verifier ident =>
    let (stateid, m) :=
      s.manager.recordOpen key.clientId key.owner key.fh access deny verifier ident
    -- an OPEN of a key that is open already goes on with the stateid of that open
    if m.nextStateid = s.manager.nextStateid then ⟨m, s.issued⟩
    else ⟨m, (key.clientId, stateid.other.bytes) :: s.issued⟩
  | .closeOpen stateid => { s with manager := (s.manager.closeOpen stateid).2 }
  | .remove stateid => { s with manager := s.manager.remove stateid }
  | .removeClientStateids clientId => { s with manager := s.manager.removeClientStateids clientId }
  | .restart records =>
    if records.Perm s.manager.records then
      { s with manager :=
          (StateIdManager.new s.manager.stateidTag s.manager.rows).loadRecords records }
    else
      s

/-- The counter has not been used up, and at a restart the stateid made last has a row that the
restart reads. -/
def Retained (s : Lives) : LifeCall → Prop
  | .allocate _ _ _ | .recordOpen _ _ _ _ _ => s.manager.nextStateid < 2 ^ 64
  | .restart _ => s.manager.nextStateid = 1 ∨
      ∃ r ∈ s.manager.records, r.stateType ≠ .delegation ∧
        r.other.counter + 1 = s.manager.nextStateid
  | _ => True

instance (s : Lives) (call : LifeCall) : Decidable (s.Retained call) := by
  unfold Retained
  split <;> infer_instance

end Lives

/-! ### The counter -/

section Counter

variable (m : StateIdManager)

theorem closeOpen_next (stateid : StateId) :
    (m.closeOpen stateid).2.nextStateid = m.nextStateid := by
  obtain ⟨outcome, m', heq, hch⟩ := closeOpen_change m stateid
  rw [heq]
  cases hch with
  | kept _ hsm _ => exact hsm.next
  | closed _ _ _ _ _ hcls => exact hcls.next

theorem foldl_loadRecord_next (records : List StateIdRecord) :
    (records.foldl loadRecord m).nextStateid = m.nextStateid := by
  induction records generalizing m with
  | nil => rfl
  | cons r records ih => exact (ih (m.loadRecord r)).trans (loadRecord_frame m r).1

theorem lt_loadRecords_next {records : List StateIdRecord} {r : StateIdRecord} (hr : r ∈ records)
    (hty : r.stateType ≠ .delegation) :
    r.other.counter < (m.loadRecords records).nextStateid := by
  have hmax := (le_foldl_max (records.filter fun r => r.stateType ≠ .delegation) 0).2 r
    (mem_filter.mpr ⟨hr, decide_eq_true hty⟩)
  unfold loadRecords
  dsimp only
  split
  · exact lt_succ_of_le hmax
  · next hlt => exact hmax.trans_lt (not_le.mp hlt)

theorem next_le_loadRecords_next (records : List StateIdRecord) :
    m.nextStateid ≤ (m.loadRecords records).nextStateid := by
  have hnx := foldl_loadRecord_next m records
  unfold loadRecords
  dsimp only
  split
  · next hle => exact (hnx ▸ hle).trans (le_succ _)
  · exact hnx.ge

end Counter

/-! ### Runs -/

/-- Every stateid was made from a counter below the present one, and none was made twice. -/
structure Lives.Fresh (s : Lives) : Prop where
  below : ∀ p ∈ s.issued, ∃ n < s.manager.nextStateid, p.2.1 = UInt64.ofNat n ∧ n < 2 ^ 64
  nodup : s.issued.Nodup

namespace Lives

theorem Fresh.keep {s : Lives} (h : s.Fresh) {m : StateIdManager}
    (hle : s.manager.nextStateid ≤ m.nextStateid) : Fresh { s with manager := m } where
  below p hp :=
    let ⟨n, hn, hp, hlt⟩ := h.below p hp
    ⟨n, hn.trans_le hle, hp, hlt⟩
  nodup := h.nodup

theorem Fresh.issue {s : Lives} (h : s.Fresh) (hlt : s.manager.nextStateid < 2 ^ 64)
    {m : StateIdManager} (hnx : m.nextStateid = s.manager.nextStateid + 1) (clientId : UInt64)
    {other : Other} (hoth : other.counter = s.manager.nextStateid) :
    Fresh ⟨m, (clientId, other.bytes) :: s.issued⟩ where
  below p hp := by
    rcases mem_cons.mp hp with rfl | hp
    · exact ⟨s.manager.nextStateid, by rw [hnx]; exact lt_succ_self _,
        congrArg UInt64.ofNat hoth, hlt⟩
    · obtain ⟨n, hn, hp, hlt⟩ := h.below p hp
      exact ⟨n, by rw [hnx]; exact hn.trans (lt_succ_self _), hp, hlt⟩
  nodup := by
    refine nodup_cons.mpr ⟨fun hmem => ?_, h.nodup⟩
    obtain ⟨n, hn, heq, hnlt⟩ := h.below _ hmem
    -- both counters fit in 64 bits, so the bytes tell them apart
    have hctr : (UInt64.ofNat other.counter).toNat = (UInt64.ofNat n).toNat :=
      congrArg UInt64.toNat heq
    rw [UInt64.toNat_ofNat', UInt64.toNat_ofNat', mod_eq_of_lt (hoth ▸ hlt),
      mod_eq_of_lt hnlt, hoth] at hctr
    exact hn.ne' hctr

theorem Fresh.apply {s : Lives} (h : s.Fresh) (call : LifeCall) (hretd : s.Retained call) :
    (s.apply call).Fresh := by
  cases call with
  | allocate stateType clientId filehandle => exact h.issue hretd rfl clientId rfl
  | recordOpen key access deny verifier ident =>
    obtain ⟨sid, m', heq, hch⟩ := recordOpen_change s.manager key access deny verifier ident
    simp only [Lives.apply, heq]
    cases hch with
    | merged cur _ _ hrst =>
      rw [if_pos hrst.next]
      exact h.keep hrst.next.ge
    | made _ hopd =>
      rw [if_neg (hopd.next ▸ succ_ne_self _)]
      exact h.issue hretd hopd.next key.clientId rfl
  | closeOpen stateid => exact h.keep (closeOpen_next s.manager stateid).ge
  | remove stateid => exact h.keep (removeMaster_retired s.manager stateid.other).next.ge
  | removeClientStateids clientId =>
    exact h.keep (removeClientStateids_purged s.manager clientId).next.ge
  | restart records =>
    unfold Lives.apply
    dsimp only
    split
    · next hpm =>
      refine h.keep ?_
      rcases hretd with hone | ⟨r, hr, hty, hctr⟩
      · rw [hone]
        exact next_le_loadRecords_next (.new s.manager.stateidTag s.manager.rows) records
      · rw [← hctr]
        exact lt_loadRecords_next _ (hpm.mem_iff.mpr hr) hty
    · exact h

/-- No stateid is made twice for a client, in one life or in several, when the counter is not used
up and the stateid made last has its row at every restart. -/
theorem never_issued_twice (tag : Option UInt32) (calls : List LifeCall)
    (h : Steps apply Retained (new tag) calls) :
    (run apply (new tag) calls).issued.Nodup := by
  have hnew : (new tag).Fresh := ⟨nofun, nodup_nil⟩
  exact (run_invariant_of_steps (fun _ call hs => hs.apply call) hnew h).nodup

def openAcrossRestart : List LifeCall :=
  [.recordOpen ⟨1, [1], [7]⟩ 3 0 none none, .recordOpen ⟨1, [1], [8]⟩ 3 0 none none,
    .closeOpen ⟨1, ⟨1, 5⟩⟩,
    .restart [⟨⟨2, 5⟩, 1, .openFile, 1, some [8], false, some ⟨[1], 3, 0⟩⟩],
    .recordOpen ⟨1, [1], [9]⟩ 3 0 none none]

theorem open_across_restart_not_issued_twice :
    (run apply (new (some 5)) openAcrossRestart).issued = [(1, 3, 5), (1, 2, 5), (1, 1, 5)] ∧
      (run apply (new (some 5)) openAcrossRestart).issued.Nodup :=
  ⟨by decide +kernel, never_issued_twice (some 5) openAcrossRestart (by decide +kernel)⟩

/-- The only open is closed before the restart, so that no row is left to recover the counter from.
-/
def closeBeforeRestart : List LifeCall :=
  [.recordOpen ⟨1, [1], [7]⟩ 3 0 none none, .closeOpen ⟨1, ⟨1, 5⟩⟩, .restart [],
    .recordOpen ⟨1, [1], [9]⟩ 3 0 none none]

/-- The client gets the stateid that it closed, for another file. -/
theorem closed_stateid_issued_again :
    (run apply (new (some 5)) closeBeforeRestart).issued = [(1, 1, 5), (1, 1, 5)] ∧
      ¬(run apply (new (some 5)) closeBeforeRestart).issued.Nodup := by
  decide +kernel

end Lives

end Flint.StateIds
