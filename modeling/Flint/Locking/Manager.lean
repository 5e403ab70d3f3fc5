import Flint.Basic.Table
import Flint.Locking.Range

/-!
# The lock manager

`LockManager` keeps one entry per held range, under internal keys minted from a counter; the
stateids that clients see are registered in a map of their own. Two indices go with the entries, and
every change is mirrored into the `locks` table of the state database, whose rows a restart reads
back. Maps are gone through in the order of the keys.
-/

namespace Flint.Locking

open Function

abbrev Bytes := List UInt8

/-- The 12 bytes of a stateid that identify it: the first four and the last eight, big-endian. -/
structure Other where
  hi : UInt32
  lo : UInt64
deriving DecidableEq

def Other.toNat (o : Other) : ℕ := o.hi.toNat * 2 ^ 64 + o.lo.toNat

theorem Other.toNat_inj {a b : Other} : a.toNat = b.toNat ↔ a = b := by
  constructor
  · intro h
    unfold Other.toNat at h
    have ha := a.lo.toNat_lt
    have hb := b.lo.toNat_lt
    have hhi : a.hi = b.hi := UInt32.toNat_inj.mp (by omega)
    have hlo : a.lo = b.lo := UInt64.toNat_inj.mp (by omega)
    cases a
    cases b
    simp only at hhi hlo
    rw [hhi, hlo]
  · rintro rfl
    rfl

structure StateId where
  seqid : UInt32
  other : Other
deriving DecidableEq

structure Lock where
  stateid : StateId
  clientId : UInt64
  owner : Bytes
  filehandle : Bytes
  lockType : LockType
  range : LockRange
deriving DecidableEq

def Lock.key (l : Lock) : ℕ := l.stateid.other.toNat

structure LockRecord where
  other : Other
  seqid : UInt32
  clientId : UInt64
  owner : Bytes
  filehandle : Bytes
  lockType : UInt32
  offset : UInt64
  length : UInt64
deriving DecidableEq

def LockRecord.key (r : LockRecord) : ℕ := r.other.toNat

def Lock.toRecord (l : Lock) : LockRecord :=
  ⟨l.stateid.other, l.stateid.seqid, l.clientId, l.owner, l.filehandle, l.lockType.code,
    l.range.offset, l.range.length⟩

def Lock.fromRecord (r : LockRecord) : Option Lock :=
  (LockType.ofCode r.lockType).map fun t =>
    ⟨⟨r.seqid, r.other⟩, r.clientId, r.owner, r.filehandle, t, ⟨r.offset, r.length⟩⟩

structure OwnerRow where
  other : Other
  clientId : UInt64
  owner : Bytes
  filehandle : Bytes

def OwnerRow.key (o : OwnerRow) : ℕ := o.other.toNat

def ownerRegistrationLockType : UInt32 := 0xFC

/-- The first four bytes of an internal key, `[0xFC, 'l', 'k', 0]`. -/
def mintedTag : UInt32 := 0xFC6C6B00

def mintedEntryCounter (o : Other) : Option UInt64 := if o.hi = mintedTag then some o.lo else none

structure LockManager where
  locks : KeyedTable Lock.key
  stateidOwners : KeyedTable OwnerRow.key
  entryKeyCounter : UInt64
  locksByFh : Bytes → List Other
  lockCounts : UInt64 → UInt64
  restoredClean : Bool
  rows : KeyedTable LockRecord.key

namespace LockManager

def withBackend (rows : KeyedTable LockRecord.key) : LockManager :=
  ⟨.empty, .empty, 1, fun _ => [], fun _ => 0, true, rows⟩

def new : LockManager := withBackend .empty

def predSat (n : UInt64) : UInt64 := if n = 0 then 0 else n - 1

variable (m : LockManager)

def insertInMemory (lock : Lock) : LockManager :=
  let counts := update m.lockCounts lock.clientId (m.lockCounts lock.clientId + 1)
  { m with
    stateidOwners := m.stateidOwners.put
      ⟨lock.stateid.other, lock.clientId, lock.owner, lock.filehandle⟩
    lockCounts :=
      match m.locks.lookup lock.key with
      | some prev => update counts prev.clientId (predSat (counts prev.clientId))
      | none => counts
    locks := m.locks.put lock
    locksByFh := update m.locksByFh lock.filehandle
      (m.locksByFh lock.filehandle ++ [lock.stateid.other]) }

def addLock (lock : Lock) : LockManager :=
  { m.insertInMemory lock with rows := m.rows.put lock.toRecord }

def removeLock (other : Other) : LockManager :=
  match m.locks.lookup other.toNat with
  | none => m
  | some lock =>
    { m with
      locks := m.locks.deleteKey other.toNat
      lockCounts := update m.lockCounts lock.clientId (predSat (m.lockCounts lock.clientId))
      locksByFh := update m.locksByFh lock.filehandle
        ((m.locksByFh lock.filehandle).filter (· ≠ other))
      rows := m.rows.deleteKey other.toNat }

def resolveOwner (stateid : StateId) : Option (UInt64 × Bytes) :=
  match m.stateidOwners.lookup stateid.other.toNat with
  | some o => some (o.clientId, o.owner)
  | none => (m.locks.lookup stateid.other.toNat).map fun l => (l.clientId, l.owner)

def lockCountForClient (clientId : UInt64) : UInt64 := m.lockCounts clientId

def mintEntryStateid : LockManager × StateId :=
  ({ m with entryKeyCounter := m.entryKeyCounter + 1 }, ⟨1, ⟨mintedTag, m.entryKeyCounter⟩⟩)

def addMinted (clientId : UInt64) (owner filehandle : Bytes) (lockType : LockType)
    (range : LockRange) : LockManager :=
  let minted := m.mintEntryStateid
  minted.1.addLock ⟨minted.2, clientId, owner, filehandle, lockType, range⟩

def registerOwnerStateid (other : Other) (clientId : UInt64)
    (owner filehandle : Bytes) : LockManager :=
  { m with
    rows := m.rows.put ⟨other, 0, clientId, owner, filehandle, ownerRegistrationLockType, 0, 0⟩
    stateidOwners := m.stateidOwners.put ⟨other, clientId, owner, filehandle⟩ }

def canonicalForOwner (clientId : UInt64) (owner filehandle : Bytes) : Option Other :=
  (m.stateidOwners.first fun e => mintedEntryCounter e.other = none && e.clientId = clientId &&
    e.owner = owner && e.filehandle = filehandle).map OwnerRow.other

def trimEntry (clientId : UInt64) (owner filehandle : Bytes) (cut : LockRange) (m : LockManager)
    (key : Other) : LockManager :=
  match m.locks.lookup key.toNat with
  | none => m
  | some e =>
    if e.clientId = clientId ∧ e.owner = owner ∧ e.range.overlaps cut then
      (e.range.survivors cut).foldl (fun m r => m.addMinted clientId owner filehandle e.lockType r)
        (m.removeLock key)
    else m

def trimOwnerRange (clientId : UInt64) (owner filehandle : Bytes) (cut : LockRange) : LockManager :=
  (m.locksByFh filehandle).foldl (trimEntry clientId owner filehandle cut) m

def checkConflicts (filehandle : Bytes) (range : LockRange) (lockType : LockType)
    (excludeOwner : Option (UInt64 × Bytes)) : Option Lock :=
  (m.locksByFh filehandle).findSome? fun key =>
    match m.locks.lookup key.toNat with
    | none => none
    | some existing =>
      if excludeOwner = some (existing.clientId, existing.owner) then none
      else if range.conflictsWith existing.range lockType existing.lockType then some existing
      else none

def releaseOwnerStateid (other : Other) : LockManager × Bool :=
  if (m.locks.lookup other.toNat).isSome then (m, false)
  else
    match m.stateidOwners.lookup other.toNat with
    | none => (m, true)
    | some key =>
      let held := (m.locksByFh key.filehandle).any fun k =>
        (m.locks.lookup k.toNat).any fun l => l.clientId = key.clientId && l.owner = key.owner
      if held then (m, false)
      else
        ({ m with
          stateidOwners := m.stateidOwners.deleteKey other.toNat
          rows := m.rows.deleteKey other.toNat }, true)

def findMatching (clientId : UInt64) (owner filehandle : Bytes)
    (lockType : LockType) (range : LockRange) : Option Lock :=
  (m.locksByFh filehandle).findSome? fun key =>
    (m.locks.lookup key.toNat).filter fun l =>
      l.clientId = clientId && l.owner = owner && l.lockType = lockType && l.range = range

def removeClientLocks (clientId : UInt64) : LockManager :=
  let stateids := (m.locks.select fun l => l.clientId = clientId).map fun l => l.stateid.other
  let m := stateids.foldl removeLock m
  let purged := (m.stateidOwners.select fun o => o.clientId = clientId).map OwnerRow.other
  { m with
    stateidOwners := m.stateidOwners.delete fun o => o.clientId = clientId
    rows := purged.foldl (fun t k => t.deleteKey k.toNat) m.rows }

/-! ### Restart -/

/-- One record of `load_records`: a registration, a lock, or a row of an unknown type. -/
def loadRecord (record : LockRecord) : LockManager :=
  if record.lockType = ownerRegistrationLockType then
    { m with
      stateidOwners := m.stateidOwners.put
        ⟨record.other, record.clientId, record.owner, record.filehandle⟩ }
  else
    match Lock.fromRecord record with
    | some lock => m.insertInMemory lock
    | none => m

def maxMinted (n : UInt64) (record : LockRecord) : UInt64 :=
  match mintedEntryCounter record.other with
  | some c => if n < c then c else n
  | none => n

def loadRecords (records : List LockRecord) : LockManager :=
  let loaded := records.foldl loadRecord m
  let max := records.foldl maxMinted 0
  if max > 0 then
    { loaded with
      entryKeyCounter :=
        if loaded.entryKeyCounter < max + 1 then max + 1 else loaded.entryKeyCounter }
  else loaded

/-- `bring_up` after a clean stop: a new manager with the records of the database, in the order
in which `list_locks` returned them. -/
def restart (records : List LockRecord) : LockManager := (withBackend m.rows).loadRecords records

end LockManager

end Flint.Locking
