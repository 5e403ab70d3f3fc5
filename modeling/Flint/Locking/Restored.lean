import Flint.Locking.Requests

/-!
# The lock table across restarts

Entries come under minted keys, and only stateids that are no minted keys are registered. `Tidy` is
the invariant: the lists of the files and the counts of the clients are those of the entries, every
entry has its owner on record, and the rows are those of the entries and of the registrations.

Everything needs the counter of the keys not to come round (`key_minted_again`).
-/

namespace Flint.Locking

open LockManager KeyedTable Function OwnerRow Other Outcome List Nat

def Lock.ownerRow (e : Lock) : OwnerRow := ⟨e.stateid.other, e.clientId, e.owner, e.filehandle⟩

def LockRecord.ownerRow (r : LockRecord) : OwnerRow := ⟨r.other, r.clientId, r.owner, r.filehandle⟩

def OwnerRow.toRecord (o : OwnerRow) : LockRecord :=
  ⟨o.other, 0, o.clientId, o.owner, o.filehandle, ownerRegistrationLockType, 0, 0⟩

def locksOf (m : LockManager) (c : UInt64) : ℕ := m.locks.rows.countP fun e => e.clientId = c

structure Neat (m : LockManager) : Prop where
  index : m.IndexExact
  nodup : ∀ fh, (m.locksByFh fh).Nodup
  counts : ∀ c, m.lockCounts c = UInt64.ofNat (locksOf m c)
  owners : ∀ e ∈ m.locks, e.ownerRow ∈ m.stateidOwners

structure Tidy (m : LockManager) : Prop extends Neat m where
  minted : ∀ e ∈ m.locks, e.stateid.other.hi = mintedTag ∧
    e.stateid.other.lo.toNat < m.entryKeyCounter.toNat
  rows : ∀ r, r ∈ m.rows ↔ (∃ e ∈ m.locks, r = e.toRecord) ∨
    ∃ o ∈ m.stateidOwners, mintedEntryCounter o.other = none ∧ r = o.toRecord

variable {m : LockManager} {e : Lock} {k : Other} {clientId : UInt64} {owner fh : Bytes}

theorem Tidy.indexed (h : Tidy m) : Indexed m := by
  refine ⟨h.index, h.minted, fun r hr e hre => ?_⟩
  rcases (h.rows r).mp hr with ⟨e', he', rfl⟩ | ⟨o, -, -, rfl⟩
  · rw [fromRecord_toRecord] at hre
    exact Option.some.inj hre ▸ he'
  · rw [fromRecord_registration rfl] at hre
    cases hre

theorem Tidy.length_le (h : Tidy m) : m.locks.rows.length ≤ m.entryKeyCounter.toNat := by
  have hnd : (m.locks.rows.map fun e => e.stateid.other.lo.toNat).Nodup := by
    refine Nodup.map_on (fun a ha b hb hab => ?_) m.locks.nodup
    refine eq_of_other_eq ha hb ?_
    have hhi := (h.minted a ha).1.trans (h.minted b hb).1.symm
    have hlo := UInt64.toNat_inj.mp hab
    cases hao : a.stateid.other
    cases hbo : b.stateid.other
    simp only [hao, hbo] at hhi hlo
    rw [hhi, hlo]
  have hsub : _ ⊆ range m.entryKeyCounter.toNat := fun n hn => by
    obtain ⟨e, he, rfl⟩ := mem_map.mp hn
    exact mem_range.mpr (h.minted e he).2
  simpa using (subperm_of_subset hnd hsub).length_le

theorem insertInMemory_neat (lock : Lock) (h : Neat m)
    (hfr : ∀ x ∈ m.locks, x.stateid.other ≠ lock.stateid.other) :
    Neat (m.insertInMemory lock) := by
  have hkey : ∀ x ∈ m.locks, x.key ≠ lock.key := fun x hx hk => hfr x hx (toNat_inj.mp hk)
  refine ⟨insertInMemory_index h.index hfr, fun fh => ?_, fun c => ?_, fun e he => ?_⟩
  · change (update m.locksByFh _ _ fh).Nodup
    rw [update_apply]
    split
    · refine nodup_append.mpr ⟨h.nodup _, nodup_singleton _, fun k hk k' hk' => ?_⟩
      obtain ⟨x, hx, rfl, -⟩ := (h.index _ k).mp hk
      exact mem_singleton.mp hk' ▸ hfr x hx
    · exact h.nodup fh
  · have hpm := (put_perm_of_fresh hkey).countP_eq fun x => x.clientId = c
    unfold locksOf insertInMemory
    dsimp only
    rw [hpm, countP_cons, lookup_eq_none.mpr hkey]
    dsimp only
    rw [update_apply]
    by_cases hc : c = lock.clientId
    · subst hc
      simp [h.counts, locksOf, UInt64.ofNat_add]
    · simp [hc, Ne.symm hc, h.counts, locksOf]
  · change e.ownerRow ∈ m.stateidOwners.put lock.ownerRow
    rcases (insertInMemory_mem hfr).mp he with rfl | he
    · exact mem_put.mpr (.inl rfl)
    · exact mem_put.mpr (.inr ⟨h.owners e he, hkey e he⟩)

theorem Tidy.ne_of_unminted (h : Tidy m) (hk : mintedEntryCounter k = none) (he : e ∈ m.locks) :
    k ≠ e.stateid.other := by
  rintro rfl
  rw [mintedEntryCounter, if_pos (h.minted e he).1] at hk
  cases hk

theorem addMinted_tidy {t : LockType} {range : LockRange} (h : Tidy m)
    (hrm : m.entryKeyCounter.toNat + 1 < 2 ^ 64) :
    Tidy (m.addMinted clientId owner fh t range) := by
  have hfr := fun e he => h.indexed.fresh (e := e) he
  have hidx := addMinted_indexed clientId owner fh t range h.indexed hrm
  have hneat := insertInMemory_neat (mintedLock m clientId owner fh t range) h.toNeat hfr
  obtain ⟨index, nodup, counts, owners⟩ := hneat
  refine ⟨⟨index, nodup, counts, owners⟩, hidx.minted, fun r => ?_⟩
  have hmem := @addMinted_mem m clientId owner fh t range h.indexed
  change r ∈ m.rows.put (mintedLock m clientId owner fh t range).toRecord ↔
    (∃ e ∈ (m.addMinted clientId owner fh t range).locks, _) ∨
      ∃ o ∈ m.stateidOwners.put (mintedLock m clientId owner fh t range).ownerRow, _
  grind [mem_put, Tidy.rows, Lock.toRecord, toRecord, LockRecord.key, key,
    Lock.ownerRow, toNat_inj, mintedEntryCounter, mintedLock]

theorem predSat_ofNat {n : ℕ} (hn : n + 1 < 2 ^ 64) :
    predSat (UInt64.ofNat (n + 1)) = UInt64.ofNat n := by
  have hne : UInt64.ofNat (n + 1) ≠ 0 := by
    intro h
    have := congrArg UInt64.toNat h
    rw [UInt64.toNat_ofNat_of_lt' hn] at this
    cases this
  rw [predSat, if_neg hne, UInt64.ofNat_add]
  exact UInt64.add_sub_cancel _ _

theorem removeLock_tidy (h : Tidy m) (k : Other) : Tidy (m.removeLock k) := by
  cases hl : m.locks.lookup k.toNat with
  | none => rwa [removeLock_of_none hl]
  | some l =>
    have hidx := removeLock_indexed h.indexed k
    obtain ⟨hli, hrw⟩ := removeLock_of_some hl
    obtain ⟨hlmem, rfl⟩ := Flint.Locking.lookup_eq_some.mp hl
    have hows : (m.removeLock l.stateid.other).stateidOwners = m.stateidOwners := by
      unfold removeLock
      rw [hl]
    refine ⟨⟨hidx.index, fun fh => ?_, fun c => ?_, fun e he => ?_⟩, hidx.minted, fun r => ?_⟩
    · rw [hli, update_apply]
      split
      · exact (h.nodup _).filter _
      · exact h.nodup fh
    · have hpm := (perm_cons_deleteKey hlmem).countP_eq fun x => x.clientId = c
      have hle := le_trans (countP_le_length (p := fun x => x.clientId = c)) h.length_le
      have hlt := m.entryKeyCounter.toNat_lt
      rw [countP_cons] at hpm
      unfold locksOf removeLock
      rw [hl]
      dsimp only
      rw [update_apply, h.counts, h.counts, locksOf, locksOf]
      split
      · next hc =>
        subst hc
        rw [hpm, if_pos (decide_eq_true rfl)] at hle ⊢
        exact predSat_ofNat (by omega)
      · next hc =>
        rw [hpm, if_neg (by simpa using Ne.symm hc)]
        rfl
    · rw [hows]
      exact h.owners e (removeLock_mem.mp he).1
    · rw [hrw, mem_deleteKey, h.rows, hows]
      have hne := fun o ho => h.ne_of_unminted (k := o) ho hlmem
      grind [removeLock_mem, Lock.toRecord, toRecord, LockRecord.key, toNat_inj]

theorem addAll_tidy {t : LockType} {ranges : List LockRange} (h : Tidy m)
    (hrm : m.entryKeyCounter.toNat + ranges.length < 2 ^ 64) :
    Tidy (ranges.foldl (fun m r => m.addMinted clientId owner fh t r) m) := by
  induction ranges generalizing m with
  | nil => exact h
  | cons r ranges ih =>
    rw [length_cons] at hrm
    have hone : m.entryKeyCounter.toNat + 1 < 2 ^ 64 := by omega
    refine ih (addMinted_tidy h hone) ?_
    rw [addMinted_counter clientId owner fh t r hone]
    omega

theorem trimLoop_tidy {cut : LockRange} {ks : List Other} (h : Tidy m)
    (hrm : m.entryKeyCounter.toNat + 2 * ks.length < 2 ^ 64) :
    Tidy (ks.foldl (trimEntry clientId owner fh cut) m) := by
  induction ks generalizing m with
  | nil => exact h
  | cons k ks ih =>
    rw [length_cons] at hrm
    have hcnt := (trimEntry_spec clientId owner fh cut h.indexed k (by omega)).counter_ge
    rw [length_singleton] at hcnt
    refine ih ?_ (by omega)
    unfold trimEntry
    split
    · exact h
    · next e _ =>
      split
      · have hlen := length_survivors_le e.range cut
        exact addAll_tidy (removeLock_tidy h k) (by rw [removeLock_counter]; omega)
      · exact h

theorem registerOwnerStateid_tidy (h : Tidy m) (hk : mintedEntryCounter k = none) :
    Tidy (m.registerOwnerStateid k clientId owner fh) := by
  have hne := fun {e} he => mt toNat_inj.mp (h.ne_of_unminted (e := e) hk he).symm
  refine ⟨⟨h.index, h.nodup, h.counts, fun e he => mem_put.mpr (.inr ⟨h.owners e he, hne he⟩)⟩,
    h.minted, fun r => ?_⟩
  change r ∈ m.rows.put _ ↔ (∃ e ∈ m.locks, _) ∨ ∃ o ∈ m.stateidOwners.put _, _
  have hrw := h.rows
  have hnew : ⟨k, clientId, owner, fh⟩ ∈ m.stateidOwners.put ⟨k, clientId, owner, fh⟩ :=
    mem_put.mpr (.inl rfl)
  grind [mem_put, Lock.toRecord, toRecord, LockRecord.key, key]

/-- Registrations go, and none of them is the owner of an entry. -/
theorem Tidy.release (h : Tidy m) (gone : Other → Prop) {owners : KeyedTable key}
    {rows : KeyedTable LockRecord.key} (hlks : ∀ e ∈ m.locks, ¬gone e.stateid.other)
    (hows : ∀ o, o ∈ owners ↔ o ∈ m.stateidOwners ∧ ¬gone o.other)
    (hrw : ∀ r, r ∈ rows ↔ r ∈ m.rows ∧ ¬gone r.other) :
    Tidy { m with stateidOwners := owners, rows } := by
  refine ⟨⟨h.index, h.nodup, h.counts, fun e he => ?_⟩, h.minted, fun r => ?_⟩
  · exact (hows _).mpr ⟨h.owners e he, hlks e he⟩
  · rw [hrw, h.rows]
    grind [Lock.toRecord, toRecord]

theorem releaseOwnerStateid_tidy (h : Tidy m) (other : Other) :
    Tidy (m.releaseOwnerStateid other).1 := by
  unfold releaseOwnerStateid
  split
  · exact h
  next hno =>
  split
  · exact h
  dsimp only
  split
  · exact h
  · refine h.release (· = other) (fun e he hk => hno ?_) (fun o => ?_) fun r => ?_
    · rw [Flint.Locking.lookup_eq_some.mpr ⟨he, hk⟩]
      rfl
    · rw [mem_deleteKey]
      exact and_congr_right fun _ => not_congr toNat_inj
    · rw [mem_deleteKey]
      exact and_congr_right fun _ => not_congr toNat_inj

theorem foldl_removeLock_tidy (h : Tidy m) (ks : List Other) : Tidy (ks.foldl removeLock m) := by
  induction ks generalizing m with
  | nil => exact h
  | cons k ks ih => exact ih (removeLock_tidy h k)

theorem removeClientLocks_tidy (h : Tidy m) (clientId : UInt64) :
    Tidy (m.removeClientLocks clientId) := by
  have htidy := foldl_removeLock_tidy h
    ((m.locks.select fun l => l.clientId = clientId).map fun l => l.stateid.other)
  have hsub := (foldl_removeLock_spec
    ((m.locks.select fun l => l.clientId = clientId).map fun l => l.stateid.other) h.indexed).2.1
  unfold removeClientLocks
  dsimp only
  generalize foldl removeLock m _ = m' at htidy hsub ⊢
  have hoth : ∀ o ∈ m'.stateidOwners, o.other ∈
      (m'.stateidOwners.select fun o => o.clientId = clientId).map other ↔
        o.clientId = clientId := by
    intro o ho
    rw [mem_map]
    constructor
    · rintro ⟨o', ho', heq⟩
      obtain ⟨ho', hcl⟩ := mem_select.mp ho'
      rw [← eq_of_key_eq ho' ho (toNat_inj.mpr heq)]
      simpa using hcl
    · exact fun hcl => ⟨o, mem_select.mpr ⟨ho, decide_eq_true hcl⟩, rfl⟩
  refine htidy.release (· ∈ map other _) (fun e he hgo => ?_) (fun o => ?_)
    fun r => mem_foldl_deleteKey
  · have hcl := (hoth _ (htidy.owners e he)).mp hgo
    obtain ⟨he, hnot⟩ := hsub e he
    exact hnot (mem_map.mpr ⟨e, mem_select.mpr ⟨he, decide_eq_true hcl⟩, rfl⟩)
  · rw [mem_delete, decide_eq_false_iff_not]
    exact and_congr_right fun ho => not_congr (hoth o ho).symm

/-! ### Restart -/

theorem loadAll_neat (rows : KeyedTable LockRecord.key) (records : List LockRecord)
    (hks : records.Pairwise fun a b => a.other ≠ b.other)
    (hkn : ∀ r ∈ records, r.lockType = ownerRegistrationLockType ∨
      ∃ e, Lock.fromRecord r = some e) :
    Neat (records.foldl loadRecord (withBackend rows)) ∧
      ∀ o, o ∈ (records.foldl loadRecord (withBackend rows)).stateidOwners ↔
        ∃ r ∈ records, o = r.ownerRow := by
  induction records using reverseRecOn with
  | nil =>
    refine ⟨⟨fun fh k => ⟨nofun, fun ⟨e, he, _⟩ => absurd he (not_mem_empty e)⟩,
      fun _ => nodup_nil, fun c => rfl, fun e he => absurd he (not_mem_empty e)⟩,
      fun o => ⟨fun ho => absurd ho (not_mem_empty o), nofun⟩⟩
  | append_singleton records r ih =>
    obtain ⟨hinit, -, hla⟩ := pairwise_append.mp hks
    obtain ⟨hneat, hows⟩ := ih hinit fun r hr => hkn r (mem_append_left _ hr)
    rw [foldl_append, foldl_cons, foldl_nil]
    generalize records.foldl loadRecord (withBackend rows) = m at *
    have hla : ∀ r' ∈ records, r'.other ≠ r.other := fun r' hr' =>
      hla r' hr' r (mem_singleton_self r)
    -- every entry has an owner on record, which a record before this one brought
    have hfr : ∀ x ∈ m.locks, x.stateid.other ≠ r.other := by
      intro x hx
      obtain ⟨r', hr', heq⟩ := (hows _).mp (hneat.owners x hx)
      exact (mk.inj heq).1 ▸ hla r' hr'
    have hput : ∀ o, o ∈ m.stateidOwners.put r.ownerRow ↔
        ∃ r' ∈ records ++ [r], o = r'.ownerRow := by
      intro o
      rw [mem_put, hows]
      grind [LockRecord.ownerRow, key, toNat_inj]
    unfold loadRecord
    split
    · exact ⟨⟨hneat.index, hneat.nodup, hneat.counts, fun e he => mem_put.mpr
        (.inr ⟨hneat.owners e he, mt toNat_inj.mp (hfr e he)⟩)⟩, hput⟩
    · next hreg =>
      obtain ⟨lock, hlock⟩ := (hkn r (by simp)).resolve_left hreg
      rw [hlock]
      refine ⟨insertInMemory_neat lock hneat (fromRecord_eq_some hlock ▸ hfr), fun o => ?_⟩
      obtain ⟨t, -, rfl⟩ := Option.map_eq_some_iff.mp hlock
      exact hput o

theorem Tidy.restart (h : Tidy m) {records : List LockRecord} (hpm : records.Perm m.rows.rows) :
    Tidy (m.restart records) ∧ (m.restart records).locks = m.locks ∧
      ∀ o, mintedEntryCounter o.other = none →
        (o ∈ (m.restart records).stateidOwners ↔ o ∈ m.stateidOwners) := by
  have hrow : ∀ r ∈ records, (∃ e ∈ m.locks, r = e.toRecord) ∨
      ∃ o ∈ m.stateidOwners, mintedEntryCounter o.other = none ∧ r = o.toRecord :=
    fun r hr => (h.rows r).mp (hpm.mem_iff.mp hr)
  have hbel : m.RowsBelow := by
    intro r hr n hn
    rcases (h.rows r).mp hr with ⟨e, he, rfl⟩ | ⟨o, -, hun, rfl⟩
    · obtain ⟨hhi, hlt⟩ := h.minted e he
      change mintedEntryCounter e.stateid.other = some n at hn
      rw [mintedEntryCounter, if_pos hhi] at hn
      cases hn
      exact lt_of_le_of_lt hlt m.entryKeyCounter.toNat_lt
    · cases hun.symm.trans hn
  obtain ⟨hidx, hsub, hrw, hmem⟩ := restart_spec h.indexed hbel hpm
  obtain ⟨hneat, hows⟩ : Neat (m.restart records) ∧
      ∀ o, o ∈ (m.restart records).stateidOwners ↔ ∃ r ∈ records, o = r.ownerRow := by
    obtain ⟨hneat, hows⟩ := loadAll_neat m.rows records (pairwise_other hpm) fun r hr => by
      rcases hrow r hr with ⟨e, -, rfl⟩ | ⟨o, -, -, rfl⟩
      · exact .inr ⟨e, fromRecord_toRecord e⟩
      · exact .inl rfl
    unfold LockManager.restart loadRecords
    dsimp only
    split
    · exact ⟨⟨hneat.index, hneat.nodup, hneat.counts, hneat.owners⟩, hows⟩
    · exact ⟨hneat, hows⟩
  have hlks : (m.restart records).locks = m.locks :=
    ext_rows (eq_of_mem_iff (m.restart records).locks.sorted m.locks.sorted fun e => ⟨hsub e,
      fun he => (hmem e).mpr ⟨_, (h.rows _).mpr (.inl ⟨e, he, rfl⟩), fromRecord_toRecord e⟩⟩)
  have hsm : ∀ o, mintedEntryCounter o.other = none →
      (o ∈ (m.restart records).stateidOwners ↔ o ∈ m.stateidOwners) := by
    intro o hun
    rw [hows]
    constructor
    · rintro ⟨r, hr, rfl⟩
      rcases hrow r hr with ⟨e, he, rfl⟩ | ⟨o, ho, -, rfl⟩
      · exact h.owners e he
      · exact ho
    · exact fun ho => ⟨o.toRecord, hpm.mem_iff.mpr ((h.rows _).mpr (.inr ⟨o, ho, hun, rfl⟩)), rfl⟩
  refine ⟨⟨hneat, hidx.minted, fun r => ?_⟩, hlks, hsm⟩
  rw [hrw, hlks, h.rows]
  exact or_congr_right (exists_congr fun o => and_congr_left fun hun => (hsm o hun.1).symm)

/-! ### Runs -/

inductive TableOp
  | addLock (clientId : UInt64) (owner fh : Bytes) (t : LockType) (range : LockRange)
  | trimOwnerRange (clientId : UInt64) (owner fh : Bytes) (cut : LockRange)
  | removeLock (other : Other)
  | registerOwnerStateid (other : Other) (clientId : UInt64) (owner fh : Bytes)
  | releaseOwnerStateid (other : Other)
  | removeClientLocks (clientId : UInt64)
  | restart (records : List LockRecord)

namespace TableOp

/-- A minted key is never registered, and a restart reads all rows. -/
def step (m : LockManager) : TableOp → LockManager
  | .addLock clientId owner fh t range => m.addMinted clientId owner fh t range
  | .trimOwnerRange clientId owner fh cut => m.trimOwnerRange clientId owner fh cut
  | .removeLock other => m.removeLock other
  | .registerOwnerStateid other clientId owner fh =>
    if mintedEntryCounter other = none then m.registerOwnerStateid other clientId owner fh else m
  | .releaseOwnerStateid other => (m.releaseOwnerStateid other).1
  | .removeClientLocks clientId => m.removeClientLocks clientId
  | .restart records => if records.Perm m.rows.rows then m.restart records else m

def Room (m : LockManager) : TableOp → Prop
  | .addLock .. => m.entryKeyCounter.toNat + 1 < 2 ^ 64
  | .trimOwnerRange _ _ fh _ => m.entryKeyCounter.toNat + 2 * (m.locksByFh fh).length < 2 ^ 64
  | _ => True

instance (m : LockManager) (op : TableOp) : Decidable (op.Room m) := by
  unfold Room
  split <;> infer_instance

end TableOp

theorem Tidy.step (h : Tidy m) {op : TableOp} (hrm : op.Room m) : Tidy (op.step m) := by
  unfold TableOp.step
  split
  · exact addMinted_tidy h hrm
  · exact trimLoop_tidy h hrm
  · exact removeLock_tidy h _
  · split
    · next hun => exact registerOwnerStateid_tidy h hun
    · exact h
  · exact releaseOwnerStateid_tidy h _
  · exact removeClientLocks_tidy h _
  · split
    · next hpm => exact (h.restart hpm).1
    · exact h

theorem Tidy.new : Tidy LockManager.new := by
  refine ⟨⟨Indexed.new.index, fun _ => nodup_nil, fun _ => rfl, ?_⟩, Indexed.new.minted, ?_⟩
  · exact fun e he => absurd he (not_mem_empty e)
  · exact fun r => ⟨fun hr => absurd hr (not_mem_empty r), fun hr => hr.elim
      (fun ⟨e, he, _⟩ => absurd he (not_mem_empty e)) fun ⟨o, ho, _⟩ => absurd ho (not_mem_empty o)⟩

/-- The indices are those of the entries, and a restart brings back all that clients know of. -/
structure Faithful (m : LockManager) : Prop where
  index : m.IndexExact ∧ ∀ fh, (m.locksByFh fh).Nodup
  counts : ∀ c, (m.lockCountForClient c).toNat = locksOf m c
  fresh : ∀ e ∈ m.locks, e.stateid.other ≠ m.mintEntryStateid.2.other
  restored : ∀ records : List LockRecord, records.Perm m.rows.rows →
    (m.restart records).locks = m.locks ∧ ∀ o, mintedEntryCounter o.other = none →
      (o ∈ (m.restart records).stateidOwners ↔ o ∈ m.stateidOwners)

/-- **The lock table is faithful** in every run in which the keys do not run out. -/
theorem tables_faithful (ops : List TableOp)
    (h : Steps TableOp.step (fun m op => op.Room m) .new ops) :
    Faithful (run TableOp.step .new ops) := by
  have htidy := run_invariant_of_steps (fun m op h hrm => h.step hrm) Tidy.new h
  refine ⟨⟨htidy.index, htidy.nodup⟩, fun c => ?_, fun e he => htidy.indexed.fresh he,
    fun records hpm => (htidy.restart hpm).2⟩
  have hle := le_trans (countP_le_length (p := fun x : Lock => x.clientId = c))
    htidy.length_le
  rw [lockCountForClient, htidy.counts, UInt64.toNat_ofNat_of_lt']
  exact lt_of_le_of_lt hle (UInt64.toNat_lt _)

theorem cut_restored : Faithful (run TableOp.step .new
    [.registerOwnerStateid ⟨0, 7⟩ 1 [5] [1], .addLock 1 [5] [1] .write ⟨0, 100⟩,
      .addLock 1 [5] [1] .read ⟨200, 10⟩, .trimOwnerRange 1 [5] [1] ⟨20, 10⟩]) :=
  tables_faithful _ (by decide)

/-- One lock stays while `n` others come and go. -/
def keysUsed (n : ℕ) : LockManager :=
  run TableOp.step .new (.addLock 1 [5] [1] .write ⟨0, 100⟩ ::
    (range n).flatMap fun i =>
      [.addLock 1 [5] [2] .write ⟨0, 1⟩, .removeLock ⟨mintedTag, UInt64.ofNat (i + 2)⟩])

theorem keysUsed_spec {n : ℕ} (hn : n < 2 ^ 64) :
    (keysUsed n).entryKeyCounter = UInt64.ofNat (n + 2) ∧
      mintedLock .new 1 [5] [1] .write ⟨0, 100⟩ ∈ (keysUsed n).locks := by
  induction n with
  | zero => exact ⟨rfl, mem_put.mpr (.inl rfl)⟩
  | succ n ih =>
    obtain ⟨hctr, hmem⟩ := ih (by omega)
    have hne : (⟨mintedTag, 1⟩ : Other) ≠ ⟨mintedTag, UInt64.ofNat (n + 2)⟩ := by
      intro heq
      have hlo := congrArg UInt64.toNat (mk.inj heq).2
      rw [UInt64.toNat_ofNat'] at hlo
      change 1 = _ at hlo
      omega
    have hs : keysUsed (n + 1) = ((keysUsed n).addMinted 1 [5] [2] .write ⟨0, 1⟩).removeLock
        ⟨mintedTag, UInt64.ofNat (n + 2)⟩ := by
      rw [keysUsed, range_succ, flatMap_append, ← cons_append, run_append]
      rfl
    rw [hs, removeLock_counter, removeLock_mem]
    refine ⟨?_, mem_put.mpr (.inr ⟨hmem, fun hkey => hne ?_⟩), hne⟩
    · change (keysUsed n).entryKeyCounter + 1 = _
      rw [hctr, add_right_comm, UInt64.ofNat_add (n + 2)]
      rfl
    · exact hctr ▸ toNat_inj.mp hkey

/-- The counter goes round, and the next key is one that is in use. -/
theorem key_minted_again : ¬Faithful (keysUsed (2 ^ 64 - 1)) := by
  intro h
  obtain ⟨hctr, hmem⟩ := keysUsed_spec (n := 2 ^ 64 - 1) (by decide)
  refine h.fresh _ hmem ?_
  unfold mintEntryStateid
  rw [hctr]
  rfl

end Flint.Locking
