import Flint.Locking.Handler

/-!
# The lock table and its indices

`Indexed` is the invariant of the lock manager: the list of a file names the keys of the entries on
the file, the keys are minted ones below the counter, and the rows of the database stand for entries
that are there. Each operation keeps it as long as the counter does not come round.
-/

namespace Flint.Locking

open LockManager KeyedTable Function LockRange Lock Other List Nat

def LockManager.IndexExact (m : LockManager) : Prop :=
  ∀ fh k, k ∈ m.locksByFh fh ↔ ∃ e ∈ m.locks, e.stateid.other = k ∧ e.filehandle = fh

/-- The indices, the keys and the rows of the database agree with the entries. -/
structure Indexed (m : LockManager) : Prop where
  index : m.IndexExact
  minted : ∀ e ∈ m.locks, e.stateid.other.hi = mintedTag ∧
    e.stateid.other.lo.toNat < m.entryKeyCounter.toNat
  /-- A row of the database that holds a lock holds one of the entries. -/
  persisted : ∀ r ∈ m.rows, ∀ e, fromRecord r = some e → e ∈ m.locks

/-- No row has the last minted key, so the counter can move past all of them. -/
def LockManager.RowsBelow (m : LockManager) : Prop :=
  ∀ r ∈ m.rows, ∀ n, mintedEntryCounter r.other = some n → n.toNat + 1 < 2 ^ 64

variable {m m' : LockManager}

theorem Indexed.new : Indexed LockManager.new where
  index _ _ := ⟨nofun,
    fun ⟨e, he, _⟩ => absurd he (not_mem_empty e)⟩
  minted e he := absurd he (not_mem_empty e)
  persisted r hr := absurd hr (not_mem_empty r)

variable {e : Lock}

theorem eq_of_other_eq {e' : Lock} (he : e ∈ m.locks) (he' : e' ∈ m.locks)
    (h : e.stateid.other = e'.stateid.other) : e = e' :=
  eq_of_key_eq he he' (toNat_inj.mpr h)

variable {k : Other}

theorem lookup_eq_some : m.locks.lookup k.toNat = some e ↔ e ∈ m.locks ∧ e.stateid.other = k := by
  rw [KeyedTable.lookup_eq_some]
  exact and_congr_right fun _ => toNat_inj

variable {r : LockRecord}

theorem fromRecord_eq_some (h : fromRecord r = some e) : e.stateid.other = r.other := by
  obtain ⟨t, -, rfl⟩ := Option.map_eq_some_iff.mp h
  rfl

theorem fromRecord_toRecord (e : Lock) : fromRecord e.toRecord = some e := by
  unfold fromRecord toRecord
  rw [LockType.ofCode_code]
  rfl

theorem fromRecord_registration (h : r.lockType = ownerRegistrationLockType) :
    fromRecord r = none := by
  unfold fromRecord
  rw [h]
  rfl

/-! ### Adding and removing -/

section Add

variable {clientId : UInt64} {owner fh : Bytes} {t : LockType} {range : LockRange}

def mintedLock (m : LockManager) (clientId : UInt64) (owner fh : Bytes) (t : LockType)
    (range : LockRange) : Lock :=
  ⟨⟨1, ⟨mintedTag, m.entryKeyCounter⟩⟩, clientId, owner, fh, t, range⟩

theorem Indexed.fresh (h : Indexed m) (he : e ∈ m.locks) :
    e.stateid.other ≠ ⟨mintedTag, m.entryKeyCounter⟩ := by
  intro heq
  have hlt := (h.minted e he).2
  rw [heq] at hlt
  exact absurd hlt (lt_irrefl _)

theorem insertInMemory_mem {lock : Lock}
    (hfr : ∀ x ∈ m.locks, x.stateid.other ≠ lock.stateid.other) :
    e ∈ (m.insertInMemory lock).locks ↔ e = lock ∨ e ∈ m.locks := by
  change e ∈ m.locks.put lock ↔ _
  rw [mem_put]
  refine or_congr_right ⟨And.left, fun he => ⟨he, fun hkey => ?_⟩⟩
  exact hfr e he (toNat_inj.mp hkey)

theorem insertInMemory_index {lock : Lock} (h : m.IndexExact)
    (hfr : ∀ x ∈ m.locks, x.stateid.other ≠ lock.stateid.other) :
    (m.insertInMemory lock).IndexExact := by
  intro fh' k
  change k ∈ update m.locksByFh lock.filehandle
    (m.locksByFh lock.filehandle ++ [lock.stateid.other]) fh' ↔ _
  simp only [insertInMemory_mem hfr]
  by_cases hfh : fh' = lock.filehandle
  · subst hfh
    rw [update_self, mem_append, h, mem_singleton]
    constructor
    · rintro (⟨e, he, hk⟩ | rfl)
      · exact ⟨e, .inr he, hk⟩
      · exact ⟨lock, .inl rfl, rfl, rfl⟩
    · rintro ⟨e, rfl | he, hk⟩
      · exact .inr hk.1.symm
      · exact .inl ⟨e, he, hk⟩
  · rw [update_of_ne hfh, h]
    constructor
    · rintro ⟨e, he, hk⟩
      exact ⟨e, .inr he, hk⟩
    · rintro ⟨e, rfl | he, hk⟩
      · exact absurd hk.2.symm hfh
      · exact ⟨e, he, hk⟩

theorem addMinted_mem (h : Indexed m) {e : Lock} :
    e ∈ (m.addMinted clientId owner fh t range).locks ↔
      e = mintedLock m clientId owner fh t range ∨ e ∈ m.locks :=
  insertInMemory_mem fun _ hx => h.fresh hx

theorem addMinted_counter (clientId : UInt64) (owner fh : Bytes) (t : LockType) (range : LockRange)
    (hrm : m.entryKeyCounter.toNat + 1 < 2 ^ 64) :
    (m.addMinted clientId owner fh t range).entryKeyCounter.toNat =
      m.entryKeyCounter.toNat + 1 := by
  change (m.entryKeyCounter + 1).toNat = _
  rw [UInt64.toNat_add]
  exact mod_eq_of_lt hrm

theorem addMinted_indexed (clientId : UInt64) (owner fh : Bytes) (t : LockType) (range : LockRange)
    (h : Indexed m) (hrm : m.entryKeyCounter.toNat + 1 < 2 ^ 64) :
    Indexed (m.addMinted clientId owner fh t range) := by
  have hmem := @addMinted_mem m clientId owner fh t range h
  refine ⟨insertInMemory_index h.index fun e he => h.fresh he, fun e he => ?_, fun r hr e hre => ?_⟩
  · rw [addMinted_counter clientId owner fh t range hrm]
    rcases hmem.mp he with rfl | he
    · exact ⟨rfl, lt_succ_self _⟩
    · exact ⟨(h.minted e he).1, lt_succ_of_lt (h.minted e he).2⟩
  · change r ∈ m.rows.put (mintedLock m clientId owner fh t range).toRecord at hr
    rcases mem_put.mp hr with rfl | ⟨hr, -⟩
    · rw [fromRecord_toRecord] at hre
      exact hmem.mpr (.inl (Option.some.inj hre).symm)
    · exact hmem.mpr (.inr (h.persisted r hr e hre))

theorem addMinted_rowsBelow (h : m.RowsBelow) (hrm : m.entryKeyCounter.toNat + 1 < 2 ^ 64) :
    (m.addMinted clientId owner fh t range).RowsBelow := by
  intro r hr n hn
  change r ∈ m.rows.put (mintedLock m clientId owner fh t range).toRecord at hr
  rcases mem_put.mp hr with rfl | ⟨hr, -⟩
  · change mintedEntryCounter ⟨mintedTag, m.entryKeyCounter⟩ = some n at hn
    cases hn
    exact hrm
  · exact h r hr n hn

end Add

theorem removeLock_mem : e ∈ (m.removeLock k).locks ↔ e ∈ m.locks ∧ e.stateid.other ≠ k := by
  unfold removeLock
  split
  · next hno =>
    rw [lookup_eq_none] at hno
    exact ⟨fun he => ⟨he, fun hk => hno e he (toNat_inj.mpr hk)⟩, And.left⟩
  · change e ∈ m.locks.deleteKey k.toNat ↔ _
    rw [mem_deleteKey]
    exact and_congr_right fun _ => not_congr toNat_inj

theorem removeLock_counter (k : Other) : (m.removeLock k).entryKeyCounter = m.entryKeyCounter := by
  unfold removeLock
  split <;> rfl

theorem removeLock_of_none (hl : m.locks.lookup k.toNat = none) : m.removeLock k = m := by
  unfold removeLock
  rw [hl]

theorem removeLock_of_some {l : Lock} (hl : m.locks.lookup k.toNat = some l) :
    (m.removeLock k).locksByFh = update m.locksByFh l.filehandle
        ((m.locksByFh l.filehandle).filter (· ≠ k)) ∧
      (m.removeLock k).rows = m.rows.deleteKey k.toNat := by
  unfold removeLock
  rw [hl]
  exact ⟨rfl, rfl⟩

theorem removeLock_index (h : m.IndexExact) (k : Other) : (m.removeLock k).IndexExact := by
  intro fh k'
  cases hl : m.locks.lookup k.toNat with
  | none =>
    rw [removeLock_of_none hl]
    exact h fh k'
  | some l =>
    obtain ⟨hlmem, hlk⟩ := lookup_eq_some.mp hl
    rw [(removeLock_of_some hl).1]
    simp only [removeLock_mem]
    by_cases hfh : fh = l.filehandle
    · subst hfh
      rw [update_self, mem_filter, h, decide_eq_true_eq]
      constructor
      · rintro ⟨⟨e, he, hk, hfh⟩, hne⟩
        exact ⟨e, ⟨he, hk ▸ hne⟩, hk, hfh⟩
      · rintro ⟨e, ⟨he, hne⟩, hk, hfh⟩
        exact ⟨⟨e, he, hk, hfh⟩, hk ▸ hne⟩
    · -- the entry that goes is on another file
      rw [update_of_ne hfh, h]
      constructor
      · rintro ⟨e, he, hk, hefh⟩
        refine ⟨e, ⟨he, fun heq => hfh ?_⟩, hk, hefh⟩
        rw [← hefh, eq_of_other_eq he hlmem (heq.trans hlk.symm)]
      · rintro ⟨e, ⟨he, -⟩, hk⟩
        exact ⟨e, he, hk⟩

theorem removeLock_rows (hr : r ∈ (m.removeLock k).rows) : r ∈ m.rows := by
  cases hl : m.locks.lookup k.toNat with
  | none =>
    rw [removeLock_of_none hl] at hr
    exact hr
  | some l =>
    rw [(removeLock_of_some hl).2] at hr
    exact (mem_deleteKey.mp hr).1

theorem removeLock_indexed (h : Indexed m) (k : Other) : Indexed (m.removeLock k) := by
  refine ⟨removeLock_index h.index k, fun e he => ?_, fun r hr e hre => ?_⟩
  · rw [removeLock_counter]
    exact h.minted e (removeLock_mem.mp he).1
  · have he := h.persisted r (removeLock_rows hr) e hre
    cases hl : m.locks.lookup k.toNat with
    | none =>
      rw [removeLock_of_none hl]
      exact he
    | some l =>
      rw [(removeLock_of_some hl).2, mem_deleteKey] at hr
      refine removeLock_mem.mpr ⟨he, fun heq => hr.2 ?_⟩
      rw [← heq, fromRecord_eq_some hre]
      rfl

theorem removeLock_rowsBelow (h : m.RowsBelow) (k : Other) : (m.removeLock k).RowsBelow :=
  fun r hr => h r (removeLock_rows hr)

/-! ### Trimming -/

structure Holder where
  clientId : UInt64
  owner : Bytes
  filehandle : Bytes
deriving DecidableEq

def Lock.holder (e : Lock) : Holder := ⟨e.clientId, e.owner, e.filehandle⟩

structure Lock.IsFor (e : Lock) (w : Holder) (t : LockType) (range : LockRange) : Prop where
  holder : e.holder = w
  type : e.lockType = t
  range : e.range = range

def Holds (m : LockManager) (w : Holder) (t : LockType) (range : LockRange) : Prop :=
  ∃ e ∈ m.locks, e.IsFor w t range

section Trim

variable {clientId : UInt64} {owner fh : Bytes} {cut : LockRange}

structure AddedAll (clientId : UInt64) (owner fh : Bytes) (t : LockType) (ranges : List LockRange)
    (m m' : LockManager) : Prop where
  indexed : Indexed m'
  rowsBelow : m.RowsBelow → m'.RowsBelow
  counter : m'.entryKeyCounter.toNat = m.entryKeyCounter.toNat + ranges.length
  origin : ∀ e ∈ m'.locks, e ∈ m.locks ∨
    m.entryKeyCounter.toNat ≤ e.stateid.other.lo.toNat ∧
      ∃ r ∈ ranges, e.IsFor ⟨clientId, owner, fh⟩ t r
  kept : ∀ e ∈ m.locks, e ∈ m'.locks
  added : ∀ r ∈ ranges, ∃ e ∈ m'.locks,
    m.entryKeyCounter.toNat ≤ e.stateid.other.lo.toNat ∧ e.IsFor ⟨clientId, owner, fh⟩ t r

theorem addAll_spec (clientId : UInt64) (owner fh : Bytes) (t : LockType) (ranges : List LockRange)
    (h : Indexed m) (hrm : m.entryKeyCounter.toNat + ranges.length < 2 ^ 64) :
    AddedAll clientId owner fh t ranges m
      (ranges.foldl (fun m r => m.addMinted clientId owner fh t r) m) := by
  induction ranges generalizing m with
  | nil => exact ⟨h, fun hb => hb, rfl, fun e he => .inl he, fun e he => he, nofun⟩
  | cons r ranges ih =>
    rw [length_cons] at hrm
    have hone : m.entryKeyCounter.toNat + 1 < 2 ^ 64 := by omega
    have hcnt := addMinted_counter clientId owner fh t r hone
    have hrs := ih (addMinted_indexed clientId owner fh t r h hone) (by omega)
    rw [foldl_cons]
    refine ⟨hrs.indexed, fun hb => hrs.rowsBelow (addMinted_rowsBelow hb hone), ?_,
      fun e he => ?_, fun e he => ?_, fun x hx => ?_⟩
    · rw [hrs.counter, hcnt, length_cons]
      omega
    · rcases hrs.origin e he with he | ⟨hlo, x, hx, hfor⟩
      · rcases (addMinted_mem h).mp he with rfl | he
        · exact .inr ⟨le_refl _, r, .head _, rfl, rfl, rfl⟩
        · exact .inl he
      · exact .inr ⟨by omega, x, .tail r hx, hfor⟩
    · exact hrs.kept e ((addMinted_mem h).mpr (.inr he))
    · rcases mem_cons.mp hx with rfl | hx
      · exact ⟨_, hrs.kept _ ((addMinted_mem h).mpr (.inl rfl)), le_refl _, rfl, rfl, rfl⟩
      · obtain ⟨e, he, hlo, hfor⟩ := hrs.added x hx
        exact ⟨e, he, by omega, hfor⟩

def Lock.IsCut (clientId : UInt64) (owner : Bytes) (cut : LockRange) (e : Lock) : Prop :=
  e.clientId = clientId ∧ e.owner = owner ∧ e.range.overlaps cut

/-- What the loop of `trim_owner_range` does over `ks`: the owner's entries under these keys that
overlap the cut are replaced by their pieces. -/
structure Trimmed (clientId : UInt64) (owner fh : Bytes) (cut : LockRange) (ks : List Other)
    (m m' : LockManager) : Prop where
  indexed : Indexed m'
  rowsBelow : m.RowsBelow → m'.RowsBelow
  counter_le : m.entryKeyCounter.toNat ≤ m'.entryKeyCounter.toNat
  counter_ge : m'.entryKeyCounter.toNat ≤ m.entryKeyCounter.toNat + 2 * ks.length
  origin : ∀ e' ∈ m'.locks,
    e' ∈ m.locks ∧ ¬(e'.IsCut clientId owner cut ∧ e'.stateid.other ∈ ks) ∨
      m.entryKeyCounter.toNat ≤ e'.stateid.other.lo.toNat ∧
        ∃ e ∈ m.locks, e.IsCut clientId owner cut ∧ e.stateid.other ∈ ks ∧
          ∃ r ∈ e.range.survivors cut, e'.IsFor ⟨clientId, owner, fh⟩ e.lockType r
  kept : ∀ e ∈ m.locks, ¬(e.IsCut clientId owner cut ∧ e.stateid.other ∈ ks) → e ∈ m'.locks
  pieces : ∀ e ∈ m.locks, e.IsCut clientId owner cut → e.stateid.other ∈ ks →
    ∀ r ∈ e.range.survivors cut, ∃ e' ∈ m'.locks,
      m.entryKeyCounter.toNat ≤ e'.stateid.other.lo.toNat ∧
        e'.IsFor ⟨clientId, owner, fh⟩ e.lockType r

theorem length_survivors_le (held cut : LockRange) : (held.survivors cut).length ≤ 2 := by
  have hl : (held.leftOf cut).length ≤ 1 := by
    unfold leftOf
    split <;> simp
  have hr : (held.rightOf cut).length ≤ 1 := by
    unfold rightOf
    split_ifs <;> simp
  unfold survivors
  rw [length_append]
  omega

theorem Trimmed.of_not_cut (h : Indexed m)
    (hnot : ∀ e ∈ m.locks, e.stateid.other = k → ¬e.IsCut clientId owner cut) :
    Trimmed clientId owner fh cut [k] m m := by
  have hcut : ∀ e ∈ m.locks, ¬(e.IsCut clientId owner cut ∧ e.stateid.other ∈ [k]) :=
    fun e he hc => hnot e he (mem_singleton.mp hc.2) hc.1
  exact ⟨h, fun hb => hb, le_refl _, le_add_right _ _, fun e he => .inl ⟨he, hcut e he⟩,
    fun e he _ => he, fun e he hc hk => absurd ⟨hc, hk⟩ (hcut e he)⟩

theorem trimEntry_spec (clientId : UInt64) (owner fh : Bytes) (cut : LockRange) (h : Indexed m)
    (k : Other) (hrm : m.entryKeyCounter.toNat + 2 < 2 ^ 64) :
    Trimmed clientId owner fh cut [k] m (trimEntry clientId owner fh cut m k) := by
  unfold trimEntry
  split
  · next hno =>
    rw [lookup_eq_none] at hno
    exact .of_not_cut h fun e he hk => absurd (toNat_inj.mpr hk) (hno e he)
  · next e he =>
    obtain ⟨hemem, hek⟩ := lookup_eq_some.mp he
    split
    · next hcut =>
      have hrmd := removeLock_indexed h k
      have hcnt : (m.removeLock k).entryKeyCounter = m.entryKeyCounter := removeLock_counter k
      have hlen := length_survivors_le e.range cut
      have hadd := addAll_spec clientId owner fh e.lockType (e.range.survivors cut) hrmd
        (by rw [hcnt]; omega)
      -- the entry under the key is the one that was looked up
      have huniq : ∀ x ∈ m.locks, x.stateid.other = k → x = e := fun x hx hxk =>
        eq_of_other_eq hx hemem (hxk.trans hek.symm)
      refine ⟨hadd.indexed, fun hb => hadd.rowsBelow (removeLock_rowsBelow hb k), ?_, ?_,
        fun x hx => ?_, fun x hx hnot => ?_, fun x hx hc hk r hr => ?_⟩
      · rw [hadd.counter, hcnt]
        exact le_add_right _ _
      · rw [hadd.counter, hcnt, length_singleton]
        omega
      · rcases hadd.origin x hx with hx | ⟨hlo, r, hr, hfor⟩
        · obtain ⟨hx, hne⟩ := removeLock_mem.mp hx
          exact .inl ⟨hx, fun hc => hne (mem_singleton.mp hc.2)⟩
        · rw [hcnt] at hlo
          exact .inr ⟨hlo, e, hemem, hcut, mem_singleton.mpr hek, r, hr, hfor⟩
      · refine hadd.kept x (removeLock_mem.mpr ⟨hx, fun hxk => hnot ?_⟩)
        rw [huniq x hx hxk]
        exact ⟨hcut, mem_singleton.mpr hek⟩
      · obtain rfl := huniq x hx (mem_singleton.mp hk)
        obtain ⟨e', he', hlo, hfor⟩ := hadd.added r hr
        rw [hcnt] at hlo
        exact ⟨e', he', hlo, hfor⟩
    · next hcut =>
      refine .of_not_cut h fun x hx hxk => ?_
      rw [eq_of_other_eq hx hemem (hxk.trans hek.symm)]
      exact hcut

theorem Trimmed.trans {ks : List Other} {m₁ : LockManager}
    (h₁ : Trimmed clientId owner fh cut [k] m m₁) (h₂ : Trimmed clientId owner fh cut ks m₁ m')
    (hks : ∀ k' ∈ ks, k'.lo.toNat < m.entryKeyCounter.toNat) :
    Trimmed clientId owner fh cut (k :: ks) m m' := by
  have hge := h₁.counter_le
  have hnew : ∀ e : Lock, m.entryKeyCounter.toNat ≤ e.stateid.other.lo.toNat →
      e.stateid.other ∉ ks :=
    fun e hlo hk => absurd (hks _ hk) (not_lt.mpr hlo)
  refine ⟨h₂.indexed, fun hb => h₂.rowsBelow (h₁.rowsBelow hb), le_trans hge h₂.counter_le, ?_,
    fun e' he' => ?_, fun e he hnot => ?_, fun e he hc hk r hr => ?_⟩
  · have hc₁ := h₁.counter_ge
    have hc₂ := h₂.counter_ge
    rw [length_cons]
    rw [length_singleton] at hc₁
    omega
  · rcases h₂.origin e' he' with ⟨he', hnot⟩ | ⟨hlo, e, he, hc, hk, hpiece⟩
    · rcases h₁.origin e' he' with ⟨he', hnot'⟩ | ⟨hlo, e, he, hc, hk, hpiece⟩
      · refine .inl ⟨he', fun hcut => ?_⟩
        rcases mem_cons.mp hcut.2 with hk | hk
        · exact hnot' ⟨hcut.1, mem_singleton.mpr hk⟩
        · exact hnot ⟨hcut.1, hk⟩
      · exact .inr ⟨hlo, e, he, hc, mem_cons.mpr (.inl (mem_singleton.mp hk)), hpiece⟩
    · rcases h₁.origin e he with ⟨he, -⟩ | ⟨hlo', -⟩
      · exact .inr ⟨le_trans hge hlo, e, he, hc, .tail k hk, hpiece⟩
      · exact absurd hk (hnew e hlo')
  · refine h₂.kept e (h₁.kept e he fun hc => hnot ⟨hc.1, ?_⟩) fun hc => hnot ⟨hc.1, .tail k hc.2⟩
    exact mem_cons.mpr (.inl (mem_singleton.mp hc.2))
  · by_cases hek : e.stateid.other = k
    · obtain ⟨e', he', hlo, hfor⟩ := h₁.pieces e he hc (mem_singleton.mpr hek) r hr
      exact ⟨e', h₂.kept e' he' fun hcut => hnew e' hlo hcut.2, hlo, hfor⟩
    · have he₁ := h₁.kept e he fun hcut => hek (mem_singleton.mp hcut.2)
      have hk' := (mem_cons.mp hk).resolve_left hek
      obtain ⟨e', he', hlo, hfor⟩ := h₂.pieces e he₁ hc hk' r hr
      exact ⟨e', he', le_trans hge hlo, hfor⟩

theorem trimLoop_spec {ks : List Other} (h : Indexed m)
    (hks : ∀ k ∈ ks, k.lo.toNat < m.entryKeyCounter.toNat)
    (hrm : m.entryKeyCounter.toNat + 2 * ks.length < 2 ^ 64) :
    Trimmed clientId owner fh cut ks m (ks.foldl (trimEntry clientId owner fh cut) m) := by
  induction ks generalizing m with
  | nil =>
    exact ⟨h, fun hb => hb, le_refl _, le_refl _,
      fun e he => .inl ⟨he, fun hc => absurd hc.2 not_mem_nil⟩, fun e he _ => he,
      nofun⟩
  | cons k ks ih =>
    rw [length_cons] at hrm
    have hs := trimEntry_spec clientId owner fh cut h k (by omega)
    have hge := hs.counter_le
    have hle := hs.counter_ge
    rw [length_singleton] at hle
    have hks' : ∀ k' ∈ ks, k'.lo.toNat < m.entryKeyCounter.toNat := fun k' hk' =>
      hks k' (.tail k hk')
    rw [foldl_cons]
    exact hs.trans (ih hs.indexed (fun k' hk' => lt_of_lt_of_le (hks' k' hk') hge) (by omega)) hks'

theorem Indexed.mem_list (h : Indexed m) (he : e ∈ m.locks) :
    e.stateid.other ∈ m.locksByFh fh ↔ e.filehandle = fh := by
  rw [h.index]
  constructor
  · rintro ⟨x, hx, hk, hfh⟩
    rw [← eq_of_other_eq hx he hk]
    exact hfh
  · intro hfh
    exact ⟨e, he, rfl, hfh⟩

def rangesLeft (w' : Holder) (cut : LockRange) (w : Holder) (r : LockRange) : List LockRange :=
  if w = w' then r.remains cut else [r]

theorem Trimmed.holds (h : Indexed m) (htrim : Trimmed clientId owner fh cut (m.locksByFh fh) m m')
    (w : Holder) (t : LockType) (r : LockRange) :
    Holds m' w t r ↔ ∃ r', Holds m w t r' ∧ r ∈ rangesLeft ⟨clientId, owner, fh⟩ cut w r' := by
  unfold rangesLeft
  constructor
  · rintro ⟨e', he', hfor⟩
    rcases htrim.origin e' he' with ⟨he, hnot⟩ | ⟨-, e, he, hcut, hk, r', hr', hfor'⟩
    · refine ⟨r, ⟨e', he, hfor⟩, ?_⟩
      split
      · next hw =>
        -- an entry of the owner that the loop left alone does not overlap the cut
        have hhol : e'.holder = ⟨clientId, owner, fh⟩ := hfor.holder.trans hw
        obtain ⟨hc, ho, hf⟩ := Holder.mk.inj hhol
        have hov : ¬r.overlaps cut := fun hov =>
          hnot ⟨⟨hc, ho, hfor.range.symm ▸ hov⟩, (h.mem_list he).mpr hf⟩
        unfold remains
        rw [if_neg hov]
        exact mem_singleton_self r
      · exact mem_singleton_self r
    · have hhol : e.holder = ⟨clientId, owner, fh⟩ := by
        unfold holder
        rw [hcut.1, hcut.2.1, (h.mem_list he).mp hk]
      have hw : w = ⟨clientId, owner, fh⟩ := hfor.holder.symm.trans hfor'.holder
      refine ⟨e.range, ⟨e, he, hhol.trans hw.symm, hfor'.type.symm.trans hfor.type, rfl⟩, ?_⟩
      unfold remains
      rw [if_pos hw, if_pos hcut.2.2, ← hfor.range, hfor'.range]
      exact hr'
  · rintro ⟨r', ⟨e, he, hfor⟩, hr⟩
    by_cases hcut : e.IsCut clientId owner cut ∧ e.stateid.other ∈ m.locksByFh fh
    · have hw : w = ⟨clientId, owner, fh⟩ := by
        rw [← hfor.holder]
        unfold holder
        rw [hcut.1.1, hcut.1.2.1, (h.mem_list he).mp hcut.2]
      have hov : r'.overlaps cut := hfor.range ▸ hcut.1.2.2
      unfold remains at hr
      rw [if_pos hw, if_pos hov, ← hfor.range] at hr
      obtain ⟨e', he', -, hfor'⟩ := htrim.pieces e he hcut.1 hcut.2 r hr
      exact ⟨e', he', hfor'.holder.trans hw.symm, hfor'.type.trans hfor.type, hfor'.range⟩
    · have hsm : r = r' := by
        split at hr
        · next hw =>
          obtain ⟨hc, ho, hf⟩ := Holder.mk.inj (hfor.holder.trans hw)
          have hov : ¬r'.overlaps cut := fun hov =>
            hcut ⟨⟨hc, ho, hfor.range.symm ▸ hov⟩, (h.mem_list he).mpr hf⟩
          unfold remains at hr
          rw [if_neg hov] at hr
          exact mem_singleton.mp hr
        · exact mem_singleton.mp hr
      rw [hsm]
      exact ⟨e, htrim.kept e he hcut, hfor⟩

theorem trimOwnerRange_spec (clientId : UInt64) (owner : Bytes) (cut : LockRange) (h : Indexed m)
    (hrm : m.entryKeyCounter.toNat + 2 * (m.locksByFh fh).length < 2 ^ 64) :
    Trimmed clientId owner fh cut (m.locksByFh fh) m (m.trimOwnerRange clientId owner fh cut) := by
  refine trimLoop_spec h (fun k hk => ?_) hrm
  obtain ⟨e, he, rfl, -⟩ := (h.index fh k).mp hk
  exact (h.minted e he).2

end Trim

end Flint.Locking
