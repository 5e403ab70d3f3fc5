import Flint.Locking.Requests

/-!
# The table of locks as a map of bytes

In the POSIX reading a holder has each byte of a file in one mode or not at all: a lock sets every
byte of its range to its type and an unlock clears it. `OwnerMap` is that map, and `Refines` relates
the table to it.

The code keeps the relation only under conditions (`RangeReq.Exact`). A LOCK by a new owner does not
carve the range out of what the owner has, so an entry of another type that shares a byte with it
stays (`downgrade_keeps_write`).
-/

namespace Flint.Locking

open LockManager Outcome LockRange KeyedTable

def OwnerMap : Type := Holder → ℕ → Option LockType

namespace OwnerMap

def empty : OwnerMap := fun _ _ => none

def lock (a : OwnerMap) (w : Holder) (t : LockType) (r : LockRange) : OwnerMap :=
  fun w' b => if w' = w ∧ r.Covers b then some t else a w' b

def unlock (a : OwnerMap) (w : Holder) (r : LockRange) : OwnerMap :=
  fun w' b => if w' = w ∧ r.Covers b then none else a w' b

theorem unlock_lock (a : OwnerMap) (w : Holder) (t : LockType) (r : LockRange) :
    (a.unlock w r).lock w t r = a.lock w t r := by
  funext w' b
  unfold lock unlock
  by_cases h : w' = w ∧ r.Covers b
  · rw [if_pos h, if_pos h]
  · rw [if_neg h, if_neg h, if_neg h]

theorem unlock_covered {a : OwnerMap} {w : Holder} {r : LockRange} {b : ℕ} (hb : r.Covers b) :
    a.unlock w r w b = none := if_pos ⟨rfl, hb⟩

end OwnerMap

/-! ### The relation -/

variable {m m' : LockManager} {a : OwnerMap}

structure Refines (m : LockManager) (a : OwnerMap) : Prop where
  indexed : Indexed m
  valid : ∀ w t r, Holds m w t r → r.Valid
  modes : ∀ w b t, a w b = some t ↔ ∃ r, Holds m w t r ∧ r.Covers b

theorem Refines.new : Refines LockManager.new OwnerMap.empty where
  indexed := .new
  valid _ _ _ := fun ⟨e, he, _⟩ => absurd he (not_mem_empty e)
  modes _ _ _ := by
    constructor
    · intro hno
      cases hno
    · rintro ⟨r, ⟨e, he, -⟩, -⟩
      exact absurd he (not_mem_empty e)

theorem Refines.of_same_locks (h : Refines m a) (hidx : Indexed m') (hlks : m'.locks = m.locks) :
    Refines m' a := by
  have hhold : ∀ w t r, Holds m' w t r ↔ Holds m w t r := by
    intro w t r
    unfold Holds
    rw [hlks]
  refine ⟨hidx, fun w t r hr => h.valid w t r ((hhold w t r).mp hr), ?_⟩
  intro w b t
  simp only [hhold]
  exact h.modes w b t

theorem Refines.add {w₀ : Holder} {t₀ : LockType} {r₀ : LockRange} (h : Refines m a)
    (hidx : Indexed m') (hval : r₀.Valid)
    (hhold : ∀ w t r, Holds m' w t r ↔ (w = w₀ ∧ t = t₀ ∧ r = r₀) ∨ Holds m w t r)
    (hmode : ∀ b t, r₀.Covers b → a w₀ b = some t → t = t₀) : Refines m' (a.lock w₀ t₀ r₀) := by
  refine ⟨hidx, ?_, ?_⟩
  · intro w t r hr
    cases (hhold w t r).mp hr with
    | inl heq => exact heq.2.2 ▸ hval
    | inr hr => exact h.valid w t r hr
  · intro w b t
    have hold := h.modes w b t
    unfold OwnerMap.lock
    simp only [hhold]
    by_cases hset : w = w₀ ∧ r₀.Covers b
    · -- a byte of the new range: an older entry that covers it has the new type
      rw [if_pos hset]
      constructor
      · intro heq
        exact ⟨r₀, .inl ⟨hset.1, (Option.some.inj heq).symm, rfl⟩, hset.2⟩
      · rintro ⟨r, ⟨-, rfl, -⟩ | hr, hb⟩
        · rfl
        · obtain ⟨rfl, hcov⟩ := hset
          rw [hmode b t hcov (hold.mpr ⟨r, hr, hb⟩)]
    · rw [if_neg hset, hold]
      constructor
      · rintro ⟨r, hr, hb⟩
        exact ⟨r, .inr hr, hb⟩
      · rintro ⟨r, ⟨rfl, -, rfl⟩ | hr, hb⟩
        · exact absurd ⟨rfl, hb⟩ hset
        · exact ⟨r, hr, hb⟩

def ExactCut (m : LockManager) (w : Holder) (cut : LockRange) : Prop :=
  ∀ e ∈ m.locks, e.holder = w → e.range.Meets cut → CutsExactly cut e.range

instance (m : LockManager) (w : Holder) (cut : LockRange) : Decidable (ExactCut m w cut) := by
  unfold ExactCut
  infer_instance

theorem covers_rangesLeft {w w' : Holder} {t : LockType} {cut r' : LockRange} (h : Refines m a)
    (hcut : cut.Valid) (hex : ExactCut m w' cut) (hr' : Holds m w t r') :
    (∀ r ∈ rangesLeft w' cut w r', r.Valid) ∧
      ∀ b, (∃ r ∈ rangesLeft w' cut w r', r.Covers b) ↔ r'.Covers b ∧ ¬(w = w' ∧ cut.Covers b) := by
  have hval := h.valid w t r' hr'
  unfold rangesLeft
  by_cases hw : w = w'
  · rw [if_pos hw]
    simp only [hw, true_and]
    obtain ⟨e, he, hhol, -, rfl⟩ := hr'
    exact covers_remains hval hcut (hex e he (hhol.trans hw))
  · rw [if_neg hw]
    refine ⟨fun r hr => List.mem_singleton.mp hr ▸ hval, fun b => ?_⟩
    simp [hw]

theorem Refines.carve {clientId : UInt64} {owner fh : Bytes} {cut : LockRange} (h : Refines m a)
    (hcut : cut.Valid) (hex : ExactCut m ⟨clientId, owner, fh⟩ cut)
    (hrm : m.entryKeyCounter.toNat + 2 * (m.locksByFh fh).length + 1 < 2 ^ 64) :
    Refines (m.trimOwnerRange clientId owner fh cut) (a.unlock ⟨clientId, owner, fh⟩ cut) := by
  obtain ⟨hidx, -, -, hhold⟩ := trimOwnerRange_holds clientId owner cut h.indexed hrm
  refine ⟨hidx, ?_, ?_⟩
  · intro w t r hr
    obtain ⟨r', hr', hlf⟩ := (hhold w t r).mp hr
    exact (covers_rangesLeft h hcut hex hr').1 r hlf
  · intro w b t
    have hold := h.modes w b t
    have hpieces : (∃ r, Holds (m.trimOwnerRange clientId owner fh cut) w t r ∧ r.Covers b) ↔
        (∃ r', Holds m w t r' ∧ r'.Covers b) ∧ ¬(w = ⟨clientId, owner, fh⟩ ∧ cut.Covers b) := by
      constructor
      · rintro ⟨r, hr, hb⟩
        obtain ⟨r', hr', hlf⟩ := (hhold w t r).mp hr
        obtain ⟨hb', hout⟩ := ((covers_rangesLeft h hcut hex hr').2 b).mp ⟨r, hlf, hb⟩
        exact ⟨⟨r', hr', hb'⟩, hout⟩
      · rintro ⟨⟨r', hr', hb'⟩, hout⟩
        obtain ⟨r, hlf, hb⟩ := ((covers_rangesLeft h hcut hex hr').2 b).mpr ⟨hb', hout⟩
        exact ⟨r, (hhold w t r).mpr ⟨r', hr', hlf⟩, hb⟩
    rw [hpieces, ← hold]
    unfold OwnerMap.unlock
    by_cases hset : w = ⟨clientId, owner, fh⟩ ∧ cut.Covers b
    · rw [if_pos hset]
      exact ⟨nofun, fun hand => absurd hset hand.2⟩
    · rw [if_neg hset]
      exact ⟨fun heq => ⟨heq, hset⟩, And.left⟩

/-! ### Requests -/

inductive RangeReq
  | lock (env : Env) (op : LockOp) (hfr : op.reclaim = false)
  | locku (env : Env) (op : LockUOp)

/-- The lock manager and the map side by side. A request that is refused does not touch the map. -/
structure Paired where
  manager : LockManager
  owners : OwnerMap

def RangeReq.step (s : Paired) : RangeReq → Paired
  | .lock env op _ =>
    ⟨(handleLock s.manager env op).1,
      if (handleLock s.manager env op).2.status = .ok then
        match op.holder s.manager env with
        | some w => s.owners.lock w op.locktype op.range
        | none => s.owners
      else s.owners⟩
  | .locku env op =>
    ⟨(handleLocku s.manager env op).1,
      if (handleLocku s.manager env op).2.status = .ok then
        match op.holder s.manager env with
        | some w => s.owners.unlock w op.range
        | none => s.owners
      else s.owners⟩

def pairedAfter (reqs : List RangeReq) : Paired := run RangeReq.step ⟨.new, .empty⟩ reqs

def SameType (m : LockManager) (w : Holder) (t : LockType) (r : LockRange) : Prop :=
  ∀ e ∈ m.locks, e.holder = w → e.range.Meets r → e.lockType = t

instance (m : LockManager) (w : Holder) (t : LockType) (r : LockRange) :
    Decidable (SameType m w t r) := by
  unfold SameType
  infer_instance

/-- The requests that the table follows exactly: a LOCK by a new owner meets no entry of that owner
of another type, every cut is exact, and the keys do not run out. -/
def RangeReq.Exact (s : Paired) : RangeReq → Prop
  | .lock env op _ => (handleLock s.manager env op).2.status = .ok →
      env.Room s.manager ∧ ∀ w ∈ op.holder s.manager env,
        if op.newLockOwner then SameType s.manager w op.locktype op.range
        else ExactCut s.manager w op.range
  | .locku env op => (handleLocku s.manager env op).2.status = .ok →
      env.Room s.manager ∧ ∀ w ∈ op.holder s.manager env, ExactCut s.manager w op.range

instance (s : Paired) (req : RangeReq) : Decidable (req.Exact s) := by
  unfold RangeReq.Exact
  split <;> infer_instance

theorem Refines.grant {env : Env} {op : LockOp} {clientId : UInt64} {owner fh : Bytes}
    (h : Refines m a) (hval : op.range.Valid)
    (hrm : m.entryKeyCounter.toNat + 2 * (m.locksByFh fh).length + 1 < 2 ^ 64)
    (hex : if op.newLockOwner then SameType m ⟨clientId, owner, fh⟩ op.locktype op.range
      else ExactCut m ⟨clientId, owner, fh⟩ op.range) :
    Refines (grantLock m env clientId owner fh op).1
      (a.lock ⟨clientId, owner, fh⟩ op.locktype op.range) := by
  unfold grantLock
  split
  · next hnew =>
    rw [if_pos hnew] at hex
    have hreg := registerOwnerStateid_indexed env.allocated.other clientId owner fh h.indexed
    have hidx := addMinted_indexed clientId owner fh op.locktype op.range hreg
      (by change m.entryKeyCounter.toNat + 1 < _; omega)
    refine (h.of_same_locks hreg rfl).add hidx hval (addMinted_holds hreg) ?_
    intro b t hb hmode
    obtain ⟨r, ⟨e, he, hhol, rfl, rfl⟩, hb'⟩ := (h.modes _ b t).mp hmode
    exact hex e he hhol (meets_iff.mpr ⟨b, hb', hb⟩)
  · next hold =>
    rw [if_neg hold] at hex
    obtain ⟨hidx, -, hcnt, -⟩ := trimOwnerRange_holds clientId owner op.range h.indexed hrm
    have hcarved := h.carve hval hex hrm
    rw [← OwnerMap.unlock_lock]
    refine hcarved.add (addMinted_indexed clientId owner fh _ _ hidx hcnt) hval
      (addMinted_holds hidx) ?_
    -- after the cut no byte of the range is held
    intro b t hb hmode
    rw [OwnerMap.unlock_covered hb] at hmode
    cases hmode

theorem Refines.lock {s : Paired} {env : Env} {op : LockOp} {hfr : op.reclaim = false}
    (h : Refines s.manager s.owners) (hex : (RangeReq.lock env op hfr).Exact s) :
    Refines ((RangeReq.lock env op hfr).step s).manager
      ((RangeReq.lock env op hfr).step s).owners := by
  have hout := lockOutcome s.manager env op
  change (handleLock s.manager env op).2.status = .ok → _ at hex
  unfold RangeReq.step
  dsimp only
  generalize handleLock s.manager env op = answer at hout hex ⊢
  cases hout with
  | refused res hstat =>
    rw [if_neg hstat]
    exact h
  | reclaimed res hrec | registered res clientId owner fh hrec hstat =>
    exact absurd hrec (by rw [hfr]; simp)
  | granted clientId owner fh hfh hcl hval hown hre =>
    have hhol := LockOp.holder_eq hfh hcl hown
    obtain ⟨hrm, hcd⟩ := hex grantLock_status
    rw [if_pos grantLock_status, hhol]
    exact h.grant hval (hrm fh hfh) (hcd _ hhol)

theorem Refines.locku {s : Paired} {env : Env} {op : LockUOp} (h : Refines s.manager s.owners)
    (hex : (RangeReq.locku env op).Exact s) :
    Refines ((RangeReq.locku env op).step s).manager ((RangeReq.locku env op).step s).owners := by
  have hout := lockuOutcome s.manager env op
  change (handleLocku s.manager env op).2.status = .ok → _ at hex
  unfold RangeReq.step
  dsimp only
  generalize handleLocku s.manager env op = answer at hout hex ⊢
  cases hout with
  | refused res hstat =>
    rw [if_neg hstat]
    exact h
  | carved res clientId owner fh hstat hfh hcl hval hown =>
    have hhol := LockUOp.holder_eq hfh hcl hown
    obtain ⟨hrm, hcd⟩ := hex hstat
    rw [if_pos hstat, hhol]
    exact h.carve hval (hcd _ hhol) (hrm fh hfh)

theorem refines_run {reqs : List RangeReq}
    (h : Steps RangeReq.step (fun s req => req.Exact s) ⟨.new, .empty⟩ reqs) :
    Refines (pairedAfter reqs).manager (pairedAfter reqs).owners := by
  refine run_invariant_of_steps (P := fun s => Refines s.manager s.owners) ?_ Refines.new h
  intro s req hs hex
  cases req with
  | lock env op hfr => exact hs.lock hex
  | locku env op => exact hs.locku hex

/-- **The table refines the map.** After a run of exact requests a holder has a byte in a mode
exactly when one of the holder's entries of that type covers the byte. -/
theorem table_refines_owner_map (reqs : List RangeReq)
    (h : Steps RangeReq.step (fun s req => req.Exact s) ⟨.new, .empty⟩ reqs)
    (w : Holder) (b : ℕ) (t : LockType) :
    (pairedAfter reqs).owners w b = some t ↔
      ∃ e ∈ (pairedAfter reqs).manager.locks, e.holder = w ∧ e.lockType = t ∧ e.range.Covers b := by
  rw [(refines_run h).modes]
  constructor
  · rintro ⟨r, ⟨e, he, hhol, hty, rfl⟩, hb⟩
    exact ⟨e, he, hhol, hty, hb⟩
  · rintro ⟨e, he, hhol, hty, hb⟩
    exact ⟨e.range, ⟨e, he, hhol, hty, rfl⟩, hb⟩

/-- Client 1 locks the bytes up to 99 for writing, goes down to reading on those from 20 to 49 with
the stateid it got, and unlocks those from 60 to 69. -/
def downgradeByStateid : List RangeReq :=
  [.lock (clientEnv 1 1) (newWriteLock 10 0 100) rfl,
    .lock (clientEnv 1 0) ⟨.read, false, 20, 30, ⟨1, ⟨0, 1⟩⟩, [], false⟩ rfl,
    .locku (clientEnv 1 0) ⟨⟨1, ⟨0, 1⟩⟩, 60, 10⟩]

theorem downgraded_byte_is_read :
    (pairedAfter downgradeByStateid).owners ⟨1, [10], [1]⟩ 25 = some .read ↔
      ∃ e ∈ (pairedAfter downgradeByStateid).manager.locks,
        e.holder = ⟨1, [10], [1]⟩ ∧ e.lockType = .read ∧ e.range.Covers 25 :=
  table_refines_owner_map downgradeByStateid ⟨by decide, by decide, by decide, trivial⟩
    ⟨1, [10], [1]⟩ 25 .read

/-- Client 1 locks the bytes up to 99 for writing and then, as a new owner of the same name, for
reading. -/
def downgradeByNewOwner : List RangeReq :=
  [.lock (clientEnv 1 1) (newWriteLock 10 0 100) rfl,
    .lock (clientEnv 1 2) ⟨.read, false, 0, 100, ⟨0, ⟨0, 0⟩⟩, [10], true⟩ rfl]

/-- The map has byte 0 for reading, and an entry for writing still covers it. -/
theorem downgrade_keeps_write :
    (pairedAfter downgradeByNewOwner).owners ⟨1, [10], [1]⟩ 0 = some .read ∧
      ∃ e ∈ (pairedAfter downgradeByNewOwner).manager.locks,
        e.holder = ⟨1, [10], [1]⟩ ∧ e.lockType = .write ∧ e.range.Covers 0 := by
  decide

end Flint.Locking
