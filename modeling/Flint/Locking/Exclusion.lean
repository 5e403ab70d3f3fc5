import Flint.Locking.Requests

/-!
# Mutual exclusion of locks

Two entries of different owners on one file, not both for reading, should share no byte. LOCK looks
for conflicts before it adds an entry, but the entries that a cut leaves behind are added unchecked,
and there the end of a cut to the end of the file comes out one byte below its start. The piece that
is taken for the rest of a range can then reach into that of another owner
(`unlock_takes_bytes_of_another_owner`). `Req.Tame` rules this out.
-/

namespace Flint.Locking

open LockManager LockRange KeyedTable Outcome List

variable {m m' : LockManager}

/-! ### The invariant -/

def LockType.Excludes (t t' : LockType) : Prop := ¬(t = .read ∧ t' = .read)

structure Exclusive (m : LockManager) : Prop where
  indexed : Indexed m
  rowsBelow : m.RowsBelow
  proper : ∀ w t r, Holds m w t r → r.Proper
  apart : ∀ w w' t t' r r', Holds m w t r → Holds m w' t' r' → w.filehandle = w'.filehandle →
    w ≠ w' → t.Excludes t' → ∀ b, ¬(r.Covers b ∧ r'.Covers b)

theorem Exclusive.new : Exclusive LockManager.new where
  indexed := .new
  rowsBelow r hr := absurd hr (not_mem_empty r)
  proper _ _ _ := fun ⟨e, he, _⟩ => absurd he (not_mem_empty e)
  apart _ _ _ _ _ _ := fun ⟨e, he, _⟩ => absurd he (not_mem_empty e)

theorem Exclusive.of_parts (h : Exclusive m) (hidx : Indexed m') (hbel : m'.RowsBelow)
    (hpart : ∀ w t r, Holds m' w t r →
      r.Proper ∧ ∃ r₀, Holds m w t r₀ ∧ ∀ b, r.Covers b → r₀.Covers b) : Exclusive m' := by
  refine ⟨hidx, hbel, fun w t r hr => (hpart w t r hr).1, ?_⟩
  intro w w' t t' r r' hr hr' hfi hne hex b hb
  obtain ⟨-, r₀, hr₀, hsub⟩ := hpart w t r hr
  obtain ⟨-, r₀', hr₀', hsub'⟩ := hpart w' t' r' hr'
  exact h.apart w w' t t' r₀ r₀' hr₀ hr₀' hfi hne hex b ⟨hsub b hb.1, hsub' b hb.2⟩

theorem Exclusive.of_subset (h : Exclusive m) (hidx : Indexed m') (hbel : m'.RowsBelow)
    (hsub : ∀ e ∈ m'.locks, e ∈ m.locks) : Exclusive m' := by
  refine h.of_parts hidx hbel ?_
  rintro w t r ⟨e, he, hfor⟩
  have hr : Holds m w t r := ⟨e, hsub e he, hfor⟩
  exact ⟨h.proper w t r hr, r, hr, fun b hb => hb⟩

theorem Exclusive.add {w₀ : Holder} {t₀ : LockType} {r₀ : LockRange} (h : Exclusive m)
    (hidx : Indexed m') (hbel : m'.RowsBelow) (hprop : r₀.Proper)
    (hhol : ∀ w t r, Holds m' w t r ↔ (w = w₀ ∧ t = t₀ ∧ r = r₀) ∨ Holds m w t r)
    (hfr : ∀ w t r, Holds m w t r → w.filehandle = w₀.filehandle → w ≠ w₀ → t₀.Excludes t →
      r₀.overlaps r = false) : Exclusive m' := by
  -- the new range against an old one
  have hnew : ∀ w t r, Holds m w t r → w.filehandle = w₀.filehandle → w ≠ w₀ → t₀.Excludes t →
      ∀ b, ¬(r₀.Covers b ∧ r.Covers b) := by
    intro w t r hr hfi hne hex
    exact not_covers_of_not_overlaps hprop (h.proper w t r hr) (hfr w t r hr hfi hne hex)
  refine ⟨hidx, hbel, ?_, ?_⟩
  · intro w t r hr
    cases (hhol w t r).mp hr with
    | inl heq =>
      obtain ⟨rfl, rfl, rfl⟩ := heq
      exact hprop
    | inr hr => exact h.proper w t r hr
  · intro w w' t t' r r' hr hr' hfi hne hex b hb
    cases (hhol w t r).mp hr with
    | inl heq =>
      obtain ⟨rfl, rfl, rfl⟩ := heq
      cases (hhol w' t' r').mp hr' with
      | inl heq' => exact hne heq'.1.symm
      | inr hr' => exact hnew w' t' r' hr' hfi.symm hne.symm hex b hb
    | inr hr =>
      cases (hhol w' t' r').mp hr' with
      | inl heq' =>
        obtain ⟨rfl, rfl, rfl⟩ := heq'
        exact hnew w t r hr hfi hne (fun hrd => hex hrd.symm) b hb.symm
      | inr hr' => exact h.apart w w' t t' r r' hr hr' hfi hne hex b hb

/-! ### The conflict check -/

theorem conflictsWith_eq_false {r q : LockRange} {t t' : LockType}
    (h : r.conflictsWith q t t' = false) (hex : t.Excludes t') : r.overlaps q = false := by
  unfold conflictsWith at h
  by_contra hov
  rw [Bool.not_eq_false] at hov
  rw [hov, if_neg (by decide), if_neg hex] at h
  exact Bool.noConfusion h

variable {fh owner : Bytes} {clientId : UInt64}

/-- **What the conflict check promises**: no range of another holder excludes the new one. -/
theorem checkConflicts_eq_none {range : LockRange} {t : LockType} (h : Indexed m)
    (hno : m.checkConflicts fh range t (some (clientId, owner)) = none) (w : Holder) (t' : LockType)
    (r : LockRange) (hr : Holds m w t' r) (hfi : w.filehandle = fh)
    (hne : w ≠ ⟨clientId, owner, fh⟩) (hex : t.Excludes t') : range.overlaps r = false := by
  obtain ⟨e, he, rfl, rfl, rfl⟩ := hr
  unfold checkConflicts at hno
  rw [findSome?_eq_none_iff] at hno
  have hkey := hno e.stateid.other ((h.mem_list he).mpr hfi)
  rw [lookup_eq_some.mpr ⟨he, rfl⟩] at hkey
  -- the entry is not the owner's own, so the test was made
  have hoth : ¬some (clientId, owner) = some (e.clientId, e.owner) := by
    intro heq
    cases heq
    apply hne
    rw [← hfi]
    rfl
  simp only [hoth, if_false] at hkey
  refine conflictsWith_eq_false ?_ hex
  by_contra hcf
  rw [Bool.not_eq_false] at hcf
  rw [hcf, if_pos rfl] at hkey
  cases hkey

/-! ### One request -/

def SafeCut (m : LockManager) (w : Holder) (cut : LockRange) : Prop :=
  ∀ e ∈ m.locks, e.holder = w → e.range.overlaps cut → ¬Overshoots cut e.range

instance (m : LockManager) (w : Holder) (cut : LockRange) : Decidable (SafeCut m w cut) := by
  unfold SafeCut
  infer_instance

/-- The requests that keep exclusion: no LOCK is granted at the last offset, no cut overshoots a
range it overlaps, and the keys do not run out. -/
def Req.Tame (m : LockManager) : Req → Prop
  | .lock env op => (handleLock m env op).2.status = .ok →
      env.Room m ∧ env.BelowTop ∧ op.offset ≠ toEof ∧
        (op.newLockOwner = false → ∀ w ∈ op.holder m env, SafeCut m w op.range)
  | .locku env op => (handleLocku m env op).2.status = .ok →
      env.Room m ∧ ∀ w ∈ op.holder m env, SafeCut m w op.range
  | _ => True

instance (m : LockManager) (req : Req) : Decidable (req.Tame m) := by
  unfold Req.Tame
  split <;> infer_instance

theorem rangesLeft_part {w w' : Holder} {cut r r' : LockRange} {t : LockType} (h : Exclusive m)
    (hcut : cut.Valid) (hsafe : SafeCut m w' cut) (hr' : Holds m w t r')
    (hr : r ∈ rangesLeft w' cut w r') : r.Proper ∧ ∀ b, r.Covers b → r'.Covers b := by
  have hprop := h.proper w t r' hr'
  have hsm : r = r' → r.Proper ∧ ∀ b, r.Covers b → r'.Covers b := by
    rintro rfl
    exact ⟨hprop, fun b hb => hb⟩
  unfold rangesLeft remains at hr
  by_cases hw : w = w'
  · rw [if_pos hw] at hr
    by_cases hov : r'.overlaps cut
    · rw [if_pos hov] at hr
      obtain ⟨e, he, hhold, -, rfl⟩ := hr'
      exact survivors_subset hprop hcut hov (hsafe e he (hhold.trans hw) hov) hr
    · rw [if_neg hov] at hr
      exact hsm (mem_singleton.mp hr)
  · rw [if_neg hw] at hr
    exact hsm (mem_singleton.mp hr)

theorem Exclusive.carve {cut : LockRange} (h : Exclusive m) (hcut : cut.Valid)
    (hsafe : SafeCut m ⟨clientId, owner, fh⟩ cut)
    (hrm : m.entryKeyCounter.toNat + 2 * (m.locksByFh fh).length + 1 < 2 ^ 64) :
    Exclusive (m.trimOwnerRange clientId owner fh cut) := by
  obtain ⟨hidx, hbel, -, hhol⟩ := trimOwnerRange_holds clientId owner cut h.indexed hrm
  refine h.of_parts hidx (hbel h.rowsBelow) ?_
  intro w t r hr
  obtain ⟨r', hr', hlf⟩ := (hhol w t r).mp hr
  have hpart := rangesLeft_part h hcut hsafe hr' hlf
  exact ⟨hpart.1, r', hr', hpart.2⟩

variable {env : Env}

theorem Exclusive.locku {op : LockUOp} (h : Exclusive m) (htame : (Req.locku env op).Tame m) :
    Exclusive (handleLocku m env op).1 := by
  have hout := lockuOutcome m env op
  change (handleLocku m env op).2.status = .ok → _ at htame
  generalize handleLocku m env op = answer at hout htame ⊢
  cases hout with
  | refused res hstat => exact h
  | carved res clientId owner fh hstat hfh hcl hval howne =>
    obtain ⟨hrm, hsafe⟩ := htame hstat
    exact h.carve hval (hsafe _ (LockUOp.holder_eq hfh hcl howne)) (hrm fh hfh)

theorem Exclusive.grant {op : LockOp} (h : Exclusive m) (hval : op.range.Valid)
    (hoffset : op.offset ≠ toEof)
    (hrm : m.entryKeyCounter.toNat + 2 * (m.locksByFh fh).length + 1 < 2 ^ 64) (htop : env.BelowTop)
    (hsafe : op.newLockOwner = false → SafeCut m ⟨clientId, owner, fh⟩ op.range)
    (hno : m.checkConflicts fh op.range op.locktype (some (clientId, owner)) = none) :
    Exclusive (grantLock m env clientId owner fh op).1 := by
  have hprop : op.range.Proper := ⟨hval, hoffset⟩
  have hfr := checkConflicts_eq_none h.indexed hno
  unfold grantLock
  split
  · -- the registration adds no entry
    have hone : m.entryKeyCounter.toNat + 1 < 2 ^ 64 := by omega
    have hreg := registerOwnerStateid_indexed env.allocated.other clientId owner fh h.indexed
    have hbel : (m.registerOwnerStateid env.allocated.other clientId owner fh).RowsBelow :=
      registerOwnerStateid_rowsBelow h.rowsBelow htop
    refine (h.of_subset hreg hbel fun e he => he).add ?_ (addMinted_rowsBelow hbel hone) hprop
      (addMinted_holds hreg) hfr
    exact addMinted_indexed clientId owner fh op.locktype op.range hreg hone
  · next hnew =>
    have hcarved := h.carve hval (hsafe (Bool.eq_false_of_not_eq_true hnew)) hrm
    obtain ⟨hidx, -, hcnt, hhol⟩ :=
      trimOwnerRange_holds clientId owner op.range h.indexed hrm
    have hadded := addMinted_indexed clientId owner fh op.locktype op.range hidx hcnt
    refine hcarved.add hadded (addMinted_rowsBelow hcarved.rowsBelow hcnt) hprop
      (addMinted_holds hidx) ?_
    intro w t r hr hfi hne hex
    -- another holder's range was there before the cut
    obtain ⟨r', hr', hlf⟩ := (hhol w t r).mp hr
    unfold rangesLeft at hlf
    rw [if_neg hne, mem_singleton] at hlf
    rw [hlf]
    exact hfr w t r' hr' hfi hne hex

theorem Exclusive.lock {op : LockOp} (h : Exclusive m) (htame : (Req.lock env op).Tame m) :
    Exclusive (handleLock m env op).1 := by
  have hout := lockOutcome m env op
  change (handleLock m env op).2.status = .ok → _ at htame
  generalize handleLock m env op = answer at hout htame ⊢
  cases hout with
  | refused res hstat | reclaimed res hrec => exact h
  | registered res clientId owner fh hrec hstat =>
    obtain ⟨-, htop, -⟩ := htame hstat
    exact h.of_subset (registerOwnerStateid_indexed _ clientId owner fh h.indexed)
      (registerOwnerStateid_rowsBelow h.rowsBelow htop) fun e he => he
  | granted clientId owner fh hfh hcl hval howne hfr =>
    have hstat : (grantLock m env clientId owner fh op).2.status = .ok := grantLock_status
    obtain ⟨hrm, htop, hoffset, hsafe⟩ := htame hstat
    exact h.grant hval hoffset (hrm fh hfh) htop
      (fun hnew => hsafe hnew _ (LockOp.holder_eq hfh hcl howne)) hfr

theorem Exclusive.step {req : Req} (h : Exclusive m) (htame : req.Tame m) :
    Exclusive (req.step m) := by
  cases req with
  | lock env op => exact h.lock htame
  | locku env op => exact h.locku htame
  | releaseOwner other =>
    refine h.of_subset (releaseOwnerStateid_indexed h.indexed other)
      (releaseOwnerStateid_rowsBelow h.rowsBelow other) ?_
    intro e he
    unfold Req.step at he
    rwa [releaseOwnerStateid_locks] at he
  | removeClient clientId =>
    obtain ⟨hidx, hsub, hrw⟩ := removeClientLocks_spec h.indexed clientId
    exact h.of_subset hidx (fun r hr => h.rowsBelow r (hrw r hr)) hsub
  | restart records =>
    unfold Req.step
    dsimp only
    split
    · next hpm =>
      obtain ⟨hidx, hsub, hrw, -⟩ := restart_spec h.indexed h.rowsBelow hpm
      refine h.of_subset hidx (fun r hr => h.rowsBelow r ?_) hsub
      exact hrw ▸ hr
    · exact h

theorem exclusive_run {reqs : List Req} (h : Steps Req.step (fun m req => req.Tame m) .new reqs) :
    Exclusive (lockManagerAfter reqs) :=
  run_invariant_of_steps (fun _ _ hex htame => hex.step htame) Exclusive.new h

/-- **Mutual exclusion.** After tame requests, two entries of different owners on one file that are
not both for reading share no byte. -/
theorem locks_exclude_each_other (reqs : List Req)
    (h : Steps Req.step (fun m req => req.Tame m) .new reqs) (e e' : Lock)
    (he : e ∈ (lockManagerAfter reqs).locks) (he' : e' ∈ (lockManagerAfter reqs).locks)
    (hfi : e.filehandle = e'.filehandle) (howne : (e.clientId, e.owner) ≠ (e'.clientId, e'.owner))
    (hwrite : e.lockType ≠ .read ∨ e'.lockType ≠ .read) (b : ℕ) :
    ¬(e.range.Covers b ∧ e'.range.Covers b) := by
  have hex := exclusive_run h
  refine hex.apart e.holder e'.holder e.lockType e'.lockType e.range e'.range
    ⟨e, he, rfl, rfl, rfl⟩ ⟨e', he', rfl, rfl, rfl⟩ hfi ?_ ?_ b
  · intro heq
    obtain ⟨hcl, hown, -⟩ := Holder.mk.inj heq
    exact howne (Prod.ext hcl hown)
  · rintro ⟨hrd, hrd'⟩
    exact hwrite.elim (fun hne => hne hrd) fun hne => hne hrd'

/-- Client 1 locks the bytes from 100 to 199 and client 2 those from 60 to 79; then client 1 unlocks
everything from 50 up. -/
def overshootingUnlock : List Req :=
  [.lock (clientEnv 1 1) (newWriteLock 10 100 100), .lock (clientEnv 2 2) (newWriteLock 11 60 20),
    .locku (clientEnv 1 0) ⟨⟨1, ⟨0, 1⟩⟩, 50, toEof⟩]

/-- After the unlock client 1 holds the bytes from 49 to 199, those of client 2 among them. -/
theorem unlock_takes_bytes_of_another_owner :
    ∃ e ∈ (lockManagerAfter overshootingUnlock).locks,
      ∃ e' ∈ (lockManagerAfter overshootingUnlock).locks,
        e.filehandle = e'.filehandle ∧ (e.clientId, e.owner) ≠ (e'.clientId, e'.owner) ∧
          e.lockType = .write ∧ e'.lockType = .write ∧ e.range.Covers 60 ∧ e'.range.Covers 60 := by
  decide

/-- Client 1 locks the bytes up to 99 and client 2 those from 100 to 149; then client 1 unlocks the
bytes from 10 to 29. -/
def tameUnlock : List Req :=
  [.lock (clientEnv 1 1) (newWriteLock 10 0 100), .lock (clientEnv 2 2) (newWriteLock 11 100 50),
    .locku (clientEnv 1 0) ⟨⟨1, ⟨0, 1⟩⟩, 10, 20⟩]

/-- What is left of client 1's range after its unlock, next to client 2's range. -/
theorem tame_unlock_keeps_owners_apart :
    ¬((⟨30, 70⟩ : LockRange).Covers 100 ∧ (⟨100, 50⟩ : LockRange).Covers 100) :=
  locks_exclude_each_other tameUnlock ⟨by decide, by decide, by decide, trivial⟩
    ⟨⟨1, ⟨mintedTag, 4⟩⟩, 1, [10], [1], .write, ⟨30, 70⟩⟩
    ⟨⟨1, ⟨mintedTag, 2⟩⟩, 2, [11], [1], .write, ⟨100, 50⟩⟩
    (by decide) (by decide) rfl (by decide) (by decide) 100

/-! ### Testing for a lock -/

def ConflictOn (m : LockManager) (fh : Bytes) (range : LockRange) (t : LockType)
    (asked : UInt64 × Bytes → Prop) : Prop :=
  ∃ key ∈ m.locksByFh fh, ∃ e, m.locks.lookup key.toNat = some e ∧ asked (e.clientId, e.owner) ∧
    range.conflictsWith e.range t e.lockType

theorem checkConflicts_isSome {range : LockRange} {t : LockType}
    (exclude : Option (UInt64 × Bytes)) :
    (m.checkConflicts fh range t exclude).isSome ↔
      ConflictOn m fh range t fun who => exclude ≠ some who := by
  unfold checkConflicts ConflictOn
  rw [findSome?_isSome_iff]
  refine exists_congr fun key => and_congr_right fun _ => ?_
  cases m.locks.lookup key.toNat with
  | none => simp
  | some e => simp [apply_ite, and_comm]

/-- A LOCK that is no reclaim gets to the conflict check, for an owner. -/
structure LockOp.Checked (m : LockManager) (env : Env) (op : LockOp) (fh : Bytes)
    (clientId : UInt64) (owner : Bytes) : Prop where
  currentFh : env.currentFh = some fh
  stateid : env.stateidValid
  valid : op.range.Valid
  client : env.sessionClient = some clientId
  fence : env.fenceDelays = false
  reclaim : op.reclaim = false
  gate : lockGate m env clientId fh op = none
  owner : op.actsFor m clientId = some owner

/-- **LOCKT asks about every owner.** A LOCK is denied for a lock of another owner. A LOCKT in the
same state is denied for that, and for a lock of the owner itself. -/
theorem lockt_denied_iff (m : LockManager) (env : Env) (op : LockOp) (fh owner : Bytes)
    (clientId : UInt64) (h : op.Checked m env fh clientId owner) :
    ((handleLock m env op).2.status = .denied ↔
      ConflictOn m fh op.range op.locktype (· ≠ (clientId, owner))) ∧
    ((handleLockt m env ⟨op.locktype, op.offset, op.length, owner⟩).status = .denied ↔
      (handleLock m env op).2.status = .denied ∨
        ConflictOn m fh op.range op.locktype (· = (clientId, owner))) := by
  have hval : validateLockRange op.offset op.length = .ok () :=
    validateLockRange_ok.mpr h.valid
  have hlock : (handleLock m env op).2.status = .denied ↔
      ConflictOn m fh op.range op.locktype fun who => some (clientId, owner) ≠ some who := by
    rw [← checkConflicts_isSome]
    unfold handleLock lockChecked
    simp only [h.currentFh, h.stateid, hval, h.client, h.fence, h.gate, h.owner]
    cases m.checkConflicts fh op.range op.locktype (some (clientId, owner)) with
    | none => simp [grantLock, apply_ite]
    | some l => simp
  have hlockt : (handleLockt m env ⟨op.locktype, op.offset, op.length, owner⟩).status = .denied ↔
      ConflictOn m fh op.range op.locktype fun who => none ≠ some who := by
    rw [← checkConflicts_isSome]
    unfold handleLockt LockOp.range
    simp only [h.currentFh, hval]
    cases m.checkConflicts fh ⟨op.offset, op.length⟩ op.locktype none with
    | none | some l => simp
  simp only [ne_eq, Option.some.injEq, eq_comm (a := (clientId, owner))] at hlock
  refine ⟨hlock, hlockt.trans ?_⟩
  rw [hlock]
  unfold ConflictOn
  grind

/-- LOCKT for the bytes up to 99 is denied to the client that has locked them, and LOCK is not. -/
theorem own_lock_denies_lockt :
    let m := lockManagerAfter [.lock (clientEnv 1 1) (newWriteLock 10 0 100)]
    (handleLockt m (clientEnv 1 2) ⟨.write, 0, 100, [10]⟩).status = .denied ∧
      (handleLock m (clientEnv 1 2) (newWriteLock 10 0 100)).2.status = .ok := by
  decide

theorem lockt_of_another_owner :
    (handleLockt (lockManagerAfter [.lock (clientEnv 1 1) (newWriteLock 10 0 100)]) (clientEnv 2 2)
      ⟨.write, 0, 100, [11]⟩).status = .denied :=
  (lockt_denied_iff _ (clientEnv 2 2) (newWriteLock 11 0 100) [1] [11] 2
    ⟨rfl, rfl, validateLockRange_ok.mp (by decide), rfl, rfl, rfl, by decide, by decide⟩
    ).2.mpr (.inl (by decide))

end Flint.Locking
