import Flint.Locking.Indexed

/-!
# Requests to the lock manager

`Req` lists what can happen to a lock manager, with a restart of the server, which reads the
persisted rows back in the order in which the database lists them.
-/

namespace Flint.Locking

open LockManager KeyedTable Lock LockUOp List

variable {m m' : LockManager}

/-! ### Operations that add no lock -/

theorem registerOwnerStateid_indexed (other : Other) (clientId : UInt64) (owner fh : Bytes)
    (h : Indexed m) : Indexed (m.registerOwnerStateid other clientId owner fh) := by
  refine ⟨h.index, h.minted, ?_⟩
  intro r hr e hre
  rcases mem_put.mp hr with rfl | ⟨hr, -⟩
  · rw [fromRecord_registration rfl] at hre
    cases hre
  · exact h.persisted r hr e hre

variable {clientId : UInt64} {owner fh : Bytes}

theorem registerOwnerStateid_rowsBelow {other : Other} (h : m.RowsBelow)
    (hrm : ∀ n, mintedEntryCounter other = some n → n.toNat + 1 < 2 ^ 64) :
    (m.registerOwnerStateid other clientId owner fh).RowsBelow := by
  intro r hr n hn
  rcases mem_put.mp hr with rfl | ⟨hr, -⟩
  · exact hrm n hn
  · exact h r hr n hn

theorem Indexed.of_fewer_rows {owners : KeyedTable OwnerRow.key} {rows : KeyedTable LockRecord.key}
    (h : Indexed m) (hrw : ∀ r ∈ rows, r ∈ m.rows) :
    Indexed { m with stateidOwners := owners, rows } :=
  ⟨h.index, h.minted, fun r hr => h.persisted r (hrw r hr)⟩

theorem releaseOwnerStateid_cases (m : LockManager) (other : Other) :
    (m.releaseOwnerStateid other).1 = m ∨
      (m.releaseOwnerStateid other).1 =
        { m with
          stateidOwners := m.stateidOwners.deleteKey other.toNat
          rows := m.rows.deleteKey other.toNat } := by
  unfold releaseOwnerStateid
  split
  · exact .inl rfl
  · split
    · exact .inl rfl
    · dsimp only
      split
      · exact .inl rfl
      · exact .inr rfl

theorem releaseOwnerStateid_locks (m : LockManager) (other : Other) :
    (m.releaseOwnerStateid other).1.locks = m.locks := by
  cases releaseOwnerStateid_cases m other with
  | inl heq | inr heq => rw [heq]

theorem releaseOwnerStateid_indexed (h : Indexed m) (other : Other) :
    Indexed (m.releaseOwnerStateid other).1 := by
  cases releaseOwnerStateid_cases m other with
  | inl heq =>
    rw [heq]
    exact h
  | inr heq =>
    rw [heq]
    exact h.of_fewer_rows fun r hr => (mem_deleteKey.mp hr).1

theorem releaseOwnerStateid_rowsBelow (h : m.RowsBelow) (other : Other) :
    (m.releaseOwnerStateid other).1.RowsBelow := by
  cases releaseOwnerStateid_cases m other with
  | inl heq =>
    rw [heq]
    exact h
  | inr heq =>
    rw [heq]
    exact fun r hr => h r (mem_deleteKey.mp hr).1

theorem foldl_removeLock_spec (ks : List Other) (h : Indexed m) :
    Indexed (ks.foldl removeLock m) ∧
      (∀ e ∈ (ks.foldl removeLock m).locks, e ∈ m.locks ∧ e.stateid.other ∉ ks) ∧
      ∀ r ∈ (ks.foldl removeLock m).rows, r ∈ m.rows := by
  induction ks generalizing m with
  | nil => exact ⟨h, fun e he => ⟨he, not_mem_nil⟩, fun r hr => hr⟩
  | cons k ks ih =>
    obtain ⟨hidx, hsub, hrw⟩ := ih (removeLock_indexed h k)
    refine ⟨hidx, fun e he => ?_, fun r hr => removeLock_rows (hrw r hr)⟩
    obtain ⟨he, hks⟩ := hsub e he
    obtain ⟨he, hk⟩ := removeLock_mem.mp he
    exact ⟨he, not_mem_cons_of_ne_of_not_mem hk hks⟩

variable {r : LockRecord}

theorem mem_foldl_deleteKey {ks : List Other} {t : KeyedTable LockRecord.key} :
    r ∈ ks.foldl (fun t k => t.deleteKey k.toNat) t ↔ r ∈ t ∧ r.other ∉ ks := by
  induction ks generalizing t with
  | nil => simp
  | cons k ks ih =>
    rw [foldl_cons, ih, mem_deleteKey, mem_cons, not_or, and_assoc]
    exact and_congr_right fun _ => and_congr_left fun _ => not_congr Other.toNat_inj

theorem removeClientLocks_spec (h : Indexed m) (clientId : UInt64) :
    Indexed (m.removeClientLocks clientId) ∧
      (∀ e ∈ (m.removeClientLocks clientId).locks, e ∈ m.locks) ∧
      ∀ r ∈ (m.removeClientLocks clientId).rows, r ∈ m.rows := by
  obtain ⟨hidx, hsub, hrw⟩ := foldl_removeLock_spec
    ((m.locks.select fun l => l.clientId = clientId).map fun l => l.stateid.other) h
  exact ⟨hidx.of_fewer_rows fun r hr => (mem_foldl_deleteKey.mp hr).1, fun e he => (hsub e he).1,
    fun r hr => hrw r (mem_foldl_deleteKey.mp hr).1⟩

/-! ### Restart -/

structure Loaded (records : List LockRecord) (m m' : LockManager) : Prop where
  index : m'.IndexExact
  mem : ∀ e, e ∈ m'.locks ↔ e ∈ m.locks ∨ ∃ r ∈ records, fromRecord r = some e
  counter : m'.entryKeyCounter = m.entryKeyCounter
  rows : m'.rows = m.rows

theorem loadRecord_spec (h : m.IndexExact) (hfr : ∀ e ∈ m.locks, e.stateid.other ≠ r.other) :
    Loaded [r] m (m.loadRecord r) := by
  have hno : fromRecord r = none →
      ∀ e, e ∈ m.locks ↔ e ∈ m.locks ∨ ∃ r' ∈ [r], fromRecord r' = some e := by
    intro hr e
    refine ⟨.inl, fun he => he.resolve_right ?_⟩
    rintro ⟨r', hr', hso⟩
    rw [mem_singleton.mp hr', hr] at hso
    cases hso
  unfold loadRecord
  split
  · next hreg => exact ⟨h, hno (fromRecord_registration hreg), rfl, rfl⟩
  · split
    · next lock hlock =>
      have hnew : ∀ e ∈ m.locks, e.stateid.other ≠ lock.stateid.other := by
        rw [fromRecord_eq_some hlock]
        exact hfr
      refine ⟨insertInMemory_index h hnew, fun e => ?_, rfl, rfl⟩
      rw [insertInMemory_mem hnew, or_comm]
      refine or_congr_right ⟨?_, ?_⟩
      · rintro rfl
        exact ⟨r, mem_singleton_self r, hlock⟩
      · rintro ⟨r', hr', hso⟩
        rw [mem_singleton.mp hr', hlock] at hso
        exact (Option.some.inj hso).symm
    · next hlock => exact ⟨h, hno hlock, rfl, rfl⟩

variable {records : List LockRecord}

theorem loadAll_spec (h : m.IndexExact) (hke : records.Pairwise fun a b => a.other ≠ b.other)
    (hfr : ∀ e ∈ m.locks, ∀ r ∈ records, e.stateid.other ≠ r.other) :
    Loaded records m (records.foldl loadRecord m) := by
  induction records generalizing m with
  | nil =>
    refine ⟨h, fun e => ⟨.inl, fun he => he.resolve_right ?_⟩, rfl, rfl⟩
    rintro ⟨r, hr, -⟩
    exact not_mem_nil hr
  | cons r records ih =>
    obtain ⟨hhd, htl⟩ := pairwise_cons.mp hke
    have hone := loadRecord_spec h fun e he => hfr e he r (.head _)
    -- the entry of this record has a key that no later record has
    have hrs := ih hone.index htl fun e he r' hr' => by
      rcases (hone.mem e).mp he with he | ⟨r₀, hr₀, hso⟩
      · exact hfr e he r' (.tail r hr')
      · rw [fromRecord_eq_some hso, mem_singleton.mp hr₀]
        exact hhd r' hr'
    rw [foldl_cons]
    refine ⟨hrs.index, fun e => ?_, hrs.counter.trans hone.counter, hrs.rows.trans hone.rows⟩
    have hsingle : (∃ r' ∈ [r], fromRecord r' = some e) ↔ fromRecord r = some e := by simp
    rw [hrs.mem, hone.mem, or_assoc, hsingle]
    simp only [mem_cons, or_and_right, exists_or, exists_eq_left]

theorem le_foldl_maxMinted (records : List LockRecord) (n : UInt64) :
    n.toNat ≤ (records.foldl maxMinted n).toNat := by
  induction records generalizing n with
  | nil => exact Nat.le_refl _
  | cons r records ih =>
    refine Nat.le_trans ?_ (ih (maxMinted n r))
    unfold maxMinted
    split
    · split
      · next hlt => exact Nat.le_of_lt (UInt64.lt_iff_toNat_lt.mp hlt)
      · exact Nat.le_refl _
    · exact Nat.le_refl _

theorem le_foldl_maxMinted_of_mem (hr : r ∈ records) {c : UInt64}
    (hc : mintedEntryCounter r.other = some c) (n : UInt64) :
    c.toNat ≤ (records.foldl maxMinted n).toNat := by
  induction records generalizing n with
  | nil => cases hr
  | cons r' records ih =>
    rcases mem_cons.mp hr with rfl | hr
    · refine Nat.le_trans ?_ (le_foldl_maxMinted records (maxMinted n r))
      unfold maxMinted
      rw [hc]
      dsimp only
      split
      · exact Nat.le_refl _
      · next hlt => exact Nat.not_lt.mp fun h => hlt (UInt64.lt_iff_toNat_lt.mpr h)
    · exact ih hr (maxMinted n r')

theorem foldl_maxMinted_eq (records : List LockRecord) (n : UInt64) :
    records.foldl maxMinted n = n ∨
      ∃ r ∈ records, mintedEntryCounter r.other = some (records.foldl maxMinted n) := by
  induction records generalizing n with
  | nil => exact .inl rfl
  | cons r records ih =>
    rw [foldl_cons]
    rcases ih (maxMinted n r) with heq | ⟨r', hr', hmem⟩
    · rw [heq]
      unfold maxMinted
      split
      · next c hc =>
        split
        · exact .inr ⟨r, .head _, hc⟩
        · exact .inl rfl
      · exact .inl rfl
    · exact .inr ⟨r', .tail r hr', hmem⟩

theorem loadRecords_same (m : LockManager) (records : List LockRecord) :
    (m.loadRecords records).locks = (records.foldl loadRecord m).locks ∧
      (m.loadRecords records).locksByFh = (records.foldl loadRecord m).locksByFh ∧
      (m.loadRecords records).rows = (records.foldl loadRecord m).rows := by
  unfold loadRecords
  dsimp only
  split <;> exact ⟨rfl, rfl, rfl⟩

theorem lt_loadRecords_counter (hst : 0 < (records.foldl loadRecord m).entryKeyCounter.toNat)
    (hmax : (records.foldl maxMinted 0).toNat + 1 < 2 ^ 64) :
    (records.foldl maxMinted 0).toNat < (m.loadRecords records).entryKeyCounter.toNat := by
  have hsucc : (records.foldl maxMinted 0 + 1).toNat = (records.foldl maxMinted 0).toNat + 1 := by
    rw [UInt64.toNat_add]
    exact Nat.mod_eq_of_lt hmax
  unfold loadRecords
  dsimp only
  split
  · change _ < (if _ < _ then _ else _ : UInt64).toNat
    split
    · rw [hsucc]
      exact Nat.lt_succ_self _
    · next hlt =>
      rw [UInt64.lt_iff_toNat_lt, hsucc] at hlt
      exact Nat.lt_of_succ_le (Nat.not_lt.mp hlt)
  · next hpos =>
    have hz : (records.foldl maxMinted 0).toNat = 0 :=
      Nat.eq_zero_of_not_pos fun h => hpos (UInt64.lt_iff_toNat_lt.mpr h)
    rw [hz]
    exact hst

theorem pairwise_other (hpm : records.Perm m.rows.rows) :
    records.Pairwise fun a b => a.other ≠ b.other := by
  refine hpm.symm.pairwise ?_ fun h => Ne.symm h
  refine m.rows.sorted.imp fun {a b} hab heq => ?_
  exact absurd hab (by unfold LockRecord.key; rw [heq]; exact Nat.lt_irrefl _)

/-- **After a restart the entries are those that were persisted.** -/
theorem restart_spec (h : Indexed m) (hbel : m.RowsBelow) (hpm : records.Perm m.rows.rows) :
    Indexed (m.restart records) ∧ (∀ e ∈ (m.restart records).locks, e ∈ m.locks) ∧
      (m.restart records).rows = m.rows ∧
      ∀ e, e ∈ (m.restart records).locks ↔ ∃ r ∈ m.rows, fromRecord r = some e := by
  have hke := pairwise_other hpm
  have hemp : (withBackend m.rows).IndexExact := fun fh k =>
    ⟨nofun, fun ⟨e, he, _⟩ => absurd he (not_mem_empty e)⟩
  have hld := loadAll_spec hemp hke fun e he => absurd he (not_mem_empty e)
  have hrcd : ∀ e, e ∈ (records.foldl loadRecord (withBackend m.rows)).locks ↔
      ∃ r ∈ m.rows, fromRecord r = some e := by
    intro e
    rw [hld.mem]
    refine ⟨fun he => ?_, fun ⟨r, hr, hso⟩ => .inr ⟨r, hpm.mem_iff.mpr hr, hso⟩⟩
    obtain ⟨r, hr, hso⟩ := he.resolve_left (not_mem_empty e)
    exact ⟨r, hpm.mem_iff.mp hr, hso⟩
  -- the largest counter of a minted key among the records
  have hmax : (records.foldl maxMinted 0).toNat + 1 < 2 ^ 64 := by
    rcases foldl_maxMinted_eq records 0 with heq | ⟨r, hr, hn⟩
    · rw [heq]
      decide
    · exact hbel r (hpm.mem_iff.mp hr) _ hn
  have hctr : (records.foldl maxMinted 0).toNat < (m.restart records).entryKeyCounter.toNat :=
    lt_loadRecords_counter (by rw [hld.counter]; exact Nat.one_pos) hmax
  obtain ⟨hlks, hli, hrw⟩ := loadRecords_same (withBackend m.rows) records
  have hmem : ∀ e, e ∈ (m.restart records).locks ↔ ∃ r ∈ m.rows, fromRecord r = some e := by
    intro e
    rw [← hrcd, ← hlks]
    rfl
  have hsub : ∀ e ∈ (m.restart records).locks, e ∈ m.locks := by
    intro e he
    obtain ⟨r, hr, hso⟩ := (hmem e).mp he
    exact h.persisted r hr e hso
  have hsm : (m.restart records).rows = m.rows := hrw.trans hld.rows
  refine ⟨⟨fun fh k => ?_, fun e he => ?_, fun r hr e hso => ?_⟩, hsub, hsm, hmem⟩
  · unfold restart
    rw [hli, hld.index, hlks]
  · obtain ⟨htag, -⟩ := h.minted e (hsub e he)
    obtain ⟨r, hr, hso⟩ := (hmem e).mp he
    have hminted : mintedEntryCounter r.other = some e.stateid.other.lo := by
      rw [← fromRecord_eq_some hso]
      exact if_pos htag
    exact ⟨htag, Nat.lt_of_le_of_lt (le_foldl_maxMinted_of_mem (hpm.mem_iff.mpr hr) hminted 0) hctr⟩
  · rw [hsm] at hr
    exact (hmem e).mpr ⟨r, hr, hso⟩

/-! ### Handlers -/

inductive LockOutcome (m : LockManager) (env : Env) (op : LockOp) : LockManager × LockRes → Prop
  | refused (res : LockRes) (hstat : res.status ≠ .ok) : LockOutcome m env op (m, res)
  | reclaimed (res : LockRes) (hrec : op.reclaim) : LockOutcome m env op (m, res)
  | registered (res : LockRes) (clientId : UInt64) (owner fh : Bytes)
      (hrec : op.reclaim) (hstat : res.status = .ok) :
      LockOutcome m env op (m.registerOwnerStateid env.allocated.other clientId owner fh, res)
  | granted (clientId : UInt64) (owner fh : Bytes) (hfh : env.currentFh = some fh)
      (hcl : env.sessionClient = some clientId) (hval : op.range.Valid)
      (hown : op.actsFor m clientId = some owner)
      (hfre : m.checkConflicts fh op.range op.locktype (some (clientId, owner)) = none) :
      LockOutcome m env op (grantLock m env clientId owner fh op)

variable {env : Env} {op : LockOp}

theorem grantLock_status : (grantLock m env clientId owner fh op).2.status = .ok := by
  unfold grantLock
  split <;> rfl

theorem answerReclaim_outcome {existing : Lock} (hrec : op.reclaim) :
    LockOutcome m env op (answerReclaim m env clientId fh op existing) := by
  unfold answerReclaim
  split
  · exact .reclaimed _ hrec
  · split
    · exact .reclaimed _ hrec
    · exact .registered _ _ _ _ hrec rfl

theorem lockGate_outcome {answer : LockManager × LockRes}
    (h : lockGate m env clientId fh op = some answer) : LockOutcome m env op answer := by
  unfold lockGate at h
  split at h
  · next hrec =>
    split at h
    · cases h
      exact .refused _ (by decide)
    · obtain ⟨existing, -, rfl⟩ := Option.map_eq_some_iff.mp h
      exact answerReclaim_outcome hrec
  · split at h
    · cases h
      exact .refused _ (by decide)
    · split at h
      · cases h
        exact .refused _ (by decide)
      · cases h

theorem lockOutcome (m : LockManager) (env : Env) (op : LockOp) :
    LockOutcome m env op (handleLock m env op) := by
  unfold handleLock
  split
  · exact .refused _ (by decide)
  · next fh hfh =>
    split
    · exact .refused _ (by decide)
    · split
      · next status hinv =>
        refine .refused _ ?_
        unfold validateLockRange at hinv
        split_ifs at hinv <;> exact (Except.error.inj hinv) ▸ (by decide)
      · next hval =>
        split
        · exact .refused _ (by decide)
        · next clientId hcl =>
          split
          · exact .refused _ (by decide)
          · unfold lockChecked
            split
            · next hgate => exact lockGate_outcome hgate
            · split
              · exact .refused _ (by decide)
              · next owner hown =>
                split
                · exact .refused _ (by simp)
                · next hfre =>
                  exact .granted clientId owner fh hfh hcl
                    (LockRange.validateLockRange_ok.mp hval) hown hfre

inductive LockuOutcome (m : LockManager) (env : Env) (op : LockUOp) : LockManager × LockURes → Prop
  | refused (res : LockURes) (hstat : res.status ≠ .ok) : LockuOutcome m env op (m, res)
  | carved (res : LockURes) (clientId : UInt64) (owner fh : Bytes) (hstat : res.status = .ok)
      (hfh : env.currentFh = some fh) (hcl : env.sessionClient = some clientId)
      (hval : op.range.Valid) (hown : op.actsFor m clientId = some (clientId, owner)) :
      LockuOutcome m env op (m.trimOwnerRange clientId owner fh op.range, res)

theorem LockUOp.actsFor_client {op : LockUOp} {sessionClient : UInt64}
    (h : op.actsFor m sessionClient = some (clientId, owner)) : clientId = sessionClient := by
  unfold actsFor at h
  split at h
  · split at h
    · cases h
    · next hsm =>
      cases h
      exact not_not.mp hsm
  · cases h

theorem lockuOutcome (m : LockManager) (env : Env) (op : LockUOp) :
    LockuOutcome m env op (handleLocku m env op) := by
  unfold handleLocku
  split
  · exact .refused _ (by decide)
  · next fh hfh =>
    split
    · exact .refused _ (by decide)
    · split
      · exact .refused _ (by decide)
      · next sessionClient hcl =>
        split
        · exact .refused _ (by decide)
        · next clientId owner hown =>
          obtain rfl := actsFor_client hown
          split
          · next status hinv =>
            refine .refused _ ?_
            unfold validateLockRange at hinv
            split_ifs at hinv <;> exact (Except.error.inj hinv) ▸ (by decide)
          · next hval =>
            exact .carved _ clientId owner fh rfl hfh hcl
              (LockRange.validateLockRange_ok.mp hval) hown

/-! ### Runs -/

inductive Req
  | lock (env : Env) (op : LockOp)
  | locku (env : Env) (op : LockUOp)
  | releaseOwner (other : Other)
  | removeClient (clientId : UInt64)
  | restart (records : List LockRecord)

def Req.step (m : LockManager) : Req → LockManager
  | .lock env op => (handleLock m env op).1
  | .locku env op => (handleLocku m env op).1
  | .releaseOwner other => (m.releaseOwnerStateid other).1
  | .removeClient clientId => m.removeClientLocks clientId
  | .restart records => if records.Perm m.rows.rows then m.restart records else m

def lockManagerAfter (reqs : List Req) : LockManager := Outcome.run Req.step .new reqs

def Env.Room (env : Env) (m : LockManager) : Prop :=
  ∀ fh ∈ env.currentFh, m.entryKeyCounter.toNat + 2 * (m.locksByFh fh).length + 1 < 2 ^ 64

/-- The stateid that a LOCK may register is not the last of the minted keys. -/
def Env.BelowTop (env : Env) : Prop :=
  ∀ n ∈ mintedEntryCounter env.allocated.other, n.toNat + 1 < 2 ^ 64

instance (env : Env) (m : LockManager) : Decidable (env.Room m) :=
  inferInstanceAs (Decidable (∀ fh ∈ env.currentFh, _))

instance (env : Env) : Decidable env.BelowTop :=
  -- of the one counter there is: the finitely many numbers of 64 bits are not run through
  Option.decidableForallMem (mintedEntryCounter env.allocated.other)

def LockOp.holder (op : LockOp) (m : LockManager) (env : Env) : Option Holder := do
  let fh ← env.currentFh
  let clientId ← env.sessionClient
  let owner ← op.actsFor m clientId
  pure ⟨clientId, owner, fh⟩

def LockUOp.holder (op : LockUOp) (m : LockManager) (env : Env) : Option Holder := do
  let fh ← env.currentFh
  let sessionClient ← env.sessionClient
  let (clientId, owner) ← op.actsFor m sessionClient
  pure ⟨clientId, owner, fh⟩

theorem LockOp.holder_eq (hfh : env.currentFh = some fh)
    (hcl : env.sessionClient = some clientId) (hown : op.actsFor m clientId = some owner) :
    op.holder m env = some ⟨clientId, owner, fh⟩ := by
  unfold LockOp.holder
  rw [hfh, hcl]
  change (op.actsFor m clientId >>= _) = _
  rw [hown]
  rfl

theorem LockUOp.holder_eq {op : LockUOp} (hfh : env.currentFh = some fh)
    (hcl : env.sessionClient = some clientId)
    (hown : op.actsFor m clientId = some (clientId, owner)) :
    op.holder m env = some ⟨clientId, owner, fh⟩ := by
  unfold holder
  rw [hfh, hcl]
  change (op.actsFor m clientId >>= _) = _
  rw [hown]
  rfl

theorem addMinted_holds {t : LockType} {range : LockRange} (h : Indexed m) (w : Holder)
    (t' : LockType) (r : LockRange) :
    Holds (m.addMinted clientId owner fh t range) w t' r ↔
      (w = ⟨clientId, owner, fh⟩ ∧ t' = t ∧ r = range) ∨ Holds m w t' r := by
  unfold Holds
  simp only [addMinted_mem h]
  constructor
  · rintro ⟨e, rfl | he, hfor⟩
    · exact .inl ⟨hfor.holder.symm, hfor.type.symm, hfor.range.symm⟩
    · exact .inr ⟨e, he, hfor⟩
  · rintro (⟨rfl, rfl, rfl⟩ | ⟨e, he, hfor⟩)
    · exact ⟨_, .inl rfl, rfl, rfl, rfl⟩
    · exact ⟨e, .inr he, hfor⟩

theorem trimOwnerRange_holds (clientId : UInt64) (owner : Bytes) (cut : LockRange) (h : Indexed m)
    (hrm : m.entryKeyCounter.toNat + 2 * (m.locksByFh fh).length + 1 < 2 ^ 64) :
    Indexed (m.trimOwnerRange clientId owner fh cut) ∧
      (m.RowsBelow → (m.trimOwnerRange clientId owner fh cut).RowsBelow) ∧
      (m.trimOwnerRange clientId owner fh cut).entryKeyCounter.toNat + 1 < 2 ^ 64 ∧
      ∀ w t r, Holds (m.trimOwnerRange clientId owner fh cut) w t r ↔
        ∃ r', Holds m w t r' ∧ r ∈ rangesLeft ⟨clientId, owner, fh⟩ cut w r' := by
  have hrm' : m.entryKeyCounter.toNat + 2 * (m.locksByFh fh).length < 2 ^ 64 := by omega
  have htrim := trimOwnerRange_spec clientId owner cut h hrm'
  have hcnt := htrim.counter_ge
  exact ⟨htrim.indexed, htrim.rowsBelow, by omega, htrim.holds h⟩

def clientEnv (clientId n : UInt64) : Env where
  currentFh := some [1]
  stateidValid := true
  sessionClient := some clientId
  fenceDelays := false
  inGracePeriod := false
  maxLocksPerClient := 1000
  allocated := ⟨1, ⟨0, n⟩⟩
  updateSeqid _ := none

def newWriteLock (owner : UInt8) (offset length : UInt64) : LockOp :=
  ⟨.write, false, offset, length, ⟨0, ⟨0, 0⟩⟩, [owner], true⟩

end Flint.Locking
