import Mathlib.Data.UInt
import Flint.Basic.Dict

/-!
# The stateid manager

A stateid names an open, a lock or a delegation of a client. Its `other` half is made once, from a
counter; its sequence id grows with every change. The manager keeps the state entries by `other`,
and for opens a second table by client, owner and filehandle, with the share masks. The indices are
the stateids of a client, the key of an open stateid, the owners with an open on a filehandle, and,
both ways, the inode behind a filehandle.
-/

namespace Flint.StateIds

abbrev Bytes := List UInt8

/-- The `other` half of a stateid: the counter, and the hub tag or the low half of the client id. -/
structure Other where
  counter : ℕ
  low : UInt32
deriving DecidableEq

structure StateId where
  seqid : UInt32
  other : Other
deriving DecidableEq

inductive StateType
  | openFile | lock | delegation
deriving DecidableEq

structure OpenOwnerRecord where
  owner : Bytes
  shareAccess : UInt32
  shareDeny : UInt32
deriving DecidableEq

structure StateEntry where
  stateid : StateId
  stateType : StateType
  clientId : UInt64
  seqid : UInt32
  filehandle : Option Bytes
  revoked : Bool
  opened : Option OpenOwnerRecord

structure StateIdRecord where
  other : Other
  seqid : UInt32
  stateType : StateType
  clientId : UInt64
  filehandle : Option Bytes
  revoked : Bool
  opened : Option OpenOwnerRecord
deriving DecidableEq

def StateEntry.toRecord (e : StateEntry) : StateIdRecord where
  other := e.stateid.other
  seqid := e.seqid
  stateType := e.stateType
  clientId := e.clientId
  filehandle := e.filehandle
  revoked := e.revoked
  opened := e.opened

def StateEntry.fromRecord (r : StateIdRecord) : StateEntry where
  stateid := ⟨r.seqid, r.other⟩
  stateType := r.stateType
  clientId := r.clientId
  seqid := r.seqid
  filehandle := r.filehandle
  revoked := r.revoked
  opened := r.opened

def StateEntry.new (stateid : StateId) (stateType : StateType) (clientId : UInt64)
    (filehandle : Option Bytes) : StateEntry where
  stateid := stateid
  stateType := stateType
  clientId := clientId
  seqid := stateid.seqid
  filehandle := filehandle
  revoked := false
  opened := none

structure OpenKey where
  clientId : UInt64
  owner : Bytes
  fh : Bytes
deriving DecidableEq

structure OpenState where
  stateidOther : Other
  seqid : UInt32
  shareAccess : UInt32
  shareDeny : UInt32
  verifier : Option UInt64

abbrev Ident := UInt64 × UInt64

inductive CloseOutcome
  | closed | oldStateId | revoked | notFound

inductive OpenError
  | badStateId | inval

structure StateIdManager where
  nextStateid : ℕ
  stateidTag : Option UInt32
  states : Dict Other StateEntry
  clientStates : Dict UInt64 (List Other)
  openStates : Dict OpenKey OpenState
  openStateKeys : Dict Other OpenKey
  opensByFh : Dict Bytes (List (UInt64 × Bytes))
  fhsByIdent : Dict Ident (List Bytes)
  identsByFh : Dict Bytes Ident
  closedRecently : List Other
  rows : Dict Other StateIdRecord

def StateIdManager.new (stateidTag : Option UInt32) (rows : Dict Other StateIdRecord) :
    StateIdManager where
  nextStateid := 1
  stateidTag := stateidTag
  states := .empty
  clientStates := .empty
  openStates := .empty
  openStateKeys := .empty
  opensByFh := .empty
  fhsByIdent := .empty
  identsByFh := .empty
  closedRecently := []
  rows := rows

namespace StateIdManager

def closedTombstones : ℕ := 8192

variable (m : StateIdManager)

def pushTombstone (other : Other) : StateIdManager :=
  if other ∈ m.closedRecently then
    m
  else
    let ring := m.closedRecently ++ [other]
    { m with closedRecently := if closedTombstones < ring.length then ring.tail else ring }

def recentlyClosed (other : Other) : Bool := other ∈ m.closedRecently

def persist (e : StateEntry) : StateIdManager :=
  { m with rows := m.rows.insert e.stateid.other e.toRecord }

def persistDelete (other : Other) : StateIdManager :=
  { m with rows := m.rows.erase other }

def statesOf (clientId : UInt64) : List Other := (m.clientStates.get? clientId).getD []

def nextOther (clientId : UInt64) : Other := ⟨m.nextStateid, m.stateidTag.getD clientId.toUInt32⟩

def allocate (stateType : StateType) (clientId : UInt64)
    (filehandle : Option Bytes) : StateId × StateIdManager :=
  let other := m.nextOther clientId
  let stateid : StateId := ⟨1, other⟩
  let entry := StateEntry.new stateid stateType clientId filehandle
  let m := m.persist entry
  (stateid, { m with
    nextStateid := m.nextStateid + 1
    states := m.states.insert other entry
    clientStates := m.clientStates.insert clientId (m.statesOf clientId ++ [other]) })

def stampOpen (other : Other) (owner : Bytes) (shareAccess shareDeny : UInt32) : StateIdManager :=
  match m.states.get? other with
  | some master =>
    let master := { master with opened := some ⟨owner, shareAccess, shareDeny⟩ }
    { m with states := m.states.insert other master }.persist master
  | none => m

def restamp (owner : Bytes) (e : OpenState) : StateIdManager :=
  match m.states.get? e.stateidOther with
  | some master =>
    let master := { master with
      seqid := e.seqid
      stateid := ⟨e.seqid, master.stateid.other⟩
      opened := some ⟨owner, e.shareAccess, e.shareDeny⟩ }
    { m with states := m.states.insert e.stateidOther master }.persist master
  | none => m

/-! ### The indices of opens -/

def ownersOf (fh : Bytes) : List (UInt64 × Bytes) := (m.opensByFh.get? fh).getD []

def addOwner (fh : Bytes) (clientId : UInt64) (owner : Bytes) : StateIdManager :=
  let owners := m.ownersOf fh
  let owners := if (clientId, owner) ∈ owners then owners else owners ++ [(clientId, owner)]
  { m with opensByFh := m.opensByFh.insert fh owners }

def removeFromBucket (buckets : Dict Ident (List Bytes)) (ident : Ident) (fh : Bytes) :
    Dict Ident (List Bytes) :=
  match buckets.get? ident with
  | some fhs =>
    let left := fhs.filter fun f => f ≠ fh
    if left = [] then buckets.erase ident else buckets.insert ident left
  | none => buckets

def addToBucket (buckets : Dict Ident (List Bytes)) (ident : Ident) (fh : Bytes) :
    Dict Ident (List Bytes) :=
  let fhs := (buckets.get? ident).getD []
  buckets.insert ident (if fh ∈ fhs then fhs else fhs ++ [fh])

def indexIdent (fh : Bytes) : Option Ident → StateIdManager
  | none => m
  | some ident =>
    let buckets := match m.identsByFh.get? fh with
      | some old => if old = ident then m.fhsByIdent else removeFromBucket m.fhsByIdent old fh
      | none => m.fhsByIdent
    { m with
      identsByFh := m.identsByFh.insert fh ident
      fhsByIdent := addToBucket buckets ident fh }

def dropFhIfUnopened (fh : Bytes) : StateIdManager :=
  match m.opensByFh.get? fh with
  | none => m
  | some owners =>
    if owners ≠ [] then m
    else
      match m.identsByFh.get? fh with
      | some ident =>
        { m with
          identsByFh := m.identsByFh.erase fh
          fhsByIdent := removeFromBucket m.fhsByIdent ident fh
          opensByFh := m.opensByFh.erase fh }
      | none => { m with opensByFh := m.opensByFh.erase fh }

/-! ### Opening -/

def shareConflict (fh : Bytes) (clientId : UInt64) (owner : Bytes)
    (requestedAccess requestedDeny : UInt32) : Bool :=
  (m.ownersOf fh).any fun other =>
    other ≠ (clientId, owner) &&
      match m.openStates.get? ⟨other.1, other.2, fh⟩ with
      | some state =>
        state.shareDeny &&& requestedAccess ≠ 0 || state.shareAccess &&& requestedDeny ≠ 0
      | none => false

def masterAlive (other : Other) : Bool := (m.states.get? other).any fun master => !master.revoked

def openFresh (key : OpenKey) (shareAccess shareDeny : UInt32)
    (verifier : Option UInt64) : StateId × StateIdManager :=
  let (stateid, m) := m.allocate .openFile key.clientId (some key.fh)
  let m := m.stampOpen stateid.other key.owner shareAccess shareDeny
  let m := { m with
    openStateKeys := m.openStateKeys.insert stateid.other key
    openStates := m.openStates.insert key
      ⟨stateid.other, stateid.seqid, shareAccess, shareDeny, verifier⟩ }
  (stateid, m.addOwner key.fh key.clientId key.owner)

/-- Record an open. One with the key whose state entry is alive takes the masks in; one whose entry
is gone or revoked is retired, and a new one takes its place. -/
def recordOpen (clientId : UInt64) (owner fh : Bytes)
    (shareAccess shareDeny : UInt32) (verifier : Option UInt64) (ident : Option Ident) :
    StateId × StateIdManager :=
  let key : OpenKey := ⟨clientId, owner, fh⟩
  let m := m.indexIdent fh ident
  match m.openStates.get? key with
  | some cur =>
    if m.masterAlive cur.stateidOther then
      let e := { cur with
        seqid := cur.seqid + 1
        shareAccess := cur.shareAccess ||| shareAccess
        shareDeny := cur.shareDeny ||| shareDeny }
      (⟨e.seqid, e.stateidOther⟩,
        { m with openStates := m.openStates.insert key e }.restamp owner e)
    else
      let m := { m with
        openStateKeys := m.openStateKeys.removeIf cur.stateidOther fun k => k = key }
      let (stateid, m) := m.openFresh key shareAccess shareDeny verifier
      (stateid, m.indexIdent fh ident)
  | none =>
    let (stateid, m) := m.openFresh key shareAccess shareDeny verifier
    (stateid, m.indexIdent fh ident)

def keyOfOther (other : Other) : Option OpenKey :=
  (m.openStates.toList.find? fun entry => entry.2.stateidOther = other).map Prod.fst

def downgradeOpen (stateid : StateId) (shareAccess shareDeny : UInt32) :
    Except OpenError StateId × StateIdManager :=
  match m.keyOfOther stateid.other with
  | none => (.error .badStateId, m)
  | some key =>
    match m.openStates.get? key with
    | none => (.error .badStateId, m)
    | some entry =>
      if shareAccess = 0 ∨ shareAccess &&& ~~~entry.shareAccess ≠ 0 ∨
          shareDeny &&& ~~~entry.shareDeny ≠ 0 then
        (.error .inval, m)
      else
        let entry := { entry with
          seqid := entry.seqid + 1
          shareAccess := shareAccess
          shareDeny := shareDeny }
        (.ok ⟨entry.seqid, entry.stateidOther⟩,
          { m with openStates := m.openStates.insert key entry }.restamp key.owner entry)

/-! ### Closing -/

/-- Remove the open at the key if `pred` holds of it, with its owner from the list of its
filehandle. Says whether the list is empty then. -/
def removeOpenUnderEntry (key : OpenKey) (pred : OpenState → Bool) : Option Bool × StateIdManager :=
  match m.openStates.get? key with
  | none => (none, m)
  | some st =>
    if ¬pred st then (none, m)
    else
      let m := { m with openStates := m.openStates.erase key }
      match m.opensByFh.get? key.fh with
      | some owners =>
        let left := owners.filter fun other => other ≠ (key.clientId, key.owner)
        (some (left = []), { m with opensByFh := m.opensByFh.insert key.fh left })
      | none => (some false, m)

def removeMaster (other : Other) : StateIdManager :=
  match m.states.get? other with
  | some entry =>
    { m with
      states := m.states.erase other
      clientStates := m.clientStates.modify entry.clientId fun l => l.filter fun o => o ≠ other
      }.persistDelete other
  | none => m

/-- Remove a stateid, whatever it stands for. An open with the stateid stays in the table of
opens. -/
def remove (stateid : StateId) : StateIdManager := m.removeMaster stateid.other

def finishClose (other : Other) (key : OpenKey) (fhNowEmpty : Bool) : StateIdManager :=
  let m := m.pushTombstone other
  let m := { m with openStateKeys := m.openStateKeys.removeIf other fun k => k = key }
  let m := if fhNowEmpty then m.dropFhIfUnopened key.fh else m
  m.removeMaster other

def isCurrent (stateid : StateId) (st : OpenState) : Bool :=
  st.stateidOther = stateid.other && (stateid.seqid = 0 || stateid.seqid = st.seqid)

def closeOpen (stateid : StateId) : CloseOutcome × StateIdManager :=
  match m.openStateKeys.get? stateid.other with
  | none =>
    if m.recentlyClosed stateid.other then (.oldStateId, m)
    else if (m.states.get? stateid.other).any fun e => e.revoked then (.revoked, m)
    else (.notFound, m)
  | some key =>
    let m := m.pushTombstone stateid.other
    match m.removeOpenUnderEntry key (isCurrent stateid) with
    | (some fhNowEmpty, m) => (.closed, m.finishClose stateid.other key fhNowEmpty)
    | (none, m) =>
      if (m.openStates.get? key).any fun st => st.stateidOther = stateid.other then (.oldStateId, m)
      else if m.recentlyClosed stateid.other then (.oldStateId, m)
      else (.notFound, m)

def closeOpenState (other : Other) : StateIdManager :=
  let m := m.pushTombstone other
  match m.openStateKeys.get? other with
  | some key =>
    match m.removeOpenUnderEntry key fun st => st.stateidOther = other with
    | (some nowEmpty, m) => m.finishClose other key nowEmpty
    | (none, m) =>
      let m := { m with openStateKeys := m.openStateKeys.removeIf other fun k => k = key }
      (m.removeMaster other).pushTombstone other
  | none => (m.removeMaster other).pushTombstone other

def revoke (stateid : StateId) : Except String Unit × StateIdManager :=
  match m.states.get? stateid.other with
  | some entry =>
    let entry := { entry with revoked := true }
    (.ok (), { m with states := m.states.insert stateid.other entry }.persist entry)
  | none => (.error "StateId not found", m)

def removeClientOpen (key : OpenKey) : StateIdManager :=
  match m.removeOpenUnderEntry key fun _ => true with
  | (some true, m) => m.dropFhIfUnopened key.fh
  | (_, m) => m

def removeClientState (other : Other) : StateIdManager :=
  { m with states := m.states.erase other }.persistDelete other

def removeClientStateids (clientId : UInt64) : StateIdManager :=
  let m := match m.clientStates.get? clientId with
    | some stateList =>
      let m := stateList.foldl removeClientState m
      { m with clientStates := m.clientStates.erase clientId }
    | none => m
  let toDrop := (m.openStates.toList.map Prod.fst).filter fun key => key.clientId = clientId
  toDrop.foldl removeClientOpen m

/-! ### Loading -/

/-- Rebuild the indices of an open from its row: the row of an open that is not revoked, with its
owner and its filehandle. -/
def loadOpen (r : StateIdRecord) : StateIdManager :=
  match r.stateType, r.revoked, r.opened, r.filehandle with
  | .openFile, false, some o, some fh =>
    let key : OpenKey := ⟨r.clientId, o.owner, fh⟩
    { m with
      openStateKeys := m.openStateKeys.insert r.other key
      openStates := m.openStates.insert key
        ⟨r.other, r.seqid, o.shareAccess, o.shareDeny, none⟩ }.addOwner fh r.clientId o.owner
  | _, _, _, _ => m

/-- One row of `load_records`. Rows of delegations are no state: they are left to the caller. -/
def loadRecord (r : StateIdRecord) : StateIdManager :=
  if r.stateType = .delegation then m
  else
    let m := m.loadOpen r
    { m with
      states := m.states.insert r.other (.fromRecord r)
      clientStates := m.clientStates.insert r.clientId (m.statesOf r.clientId ++ [r.other]) }

def loadRecords (records : List StateIdRecord) : StateIdManager :=
  let kept := records.filter fun r => r.stateType ≠ .delegation
  let maxCounter := kept.foldl (fun k r => max k r.other.counter) 0
  let m := records.foldl loadRecord m
  if m.nextStateid ≤ maxCounter then { m with nextStateid := maxCounter + 1 } else m

def fileHasWriteOpen (ident : Ident) : Bool :=
  ((m.fhsByIdent.get? ident).getD []).any fun fh =>
    (m.ownersOf fh).any fun other =>
      (m.openStates.get? ⟨other.1, other.2, fh⟩).any fun st => st.shareAccess &&& 2 ≠ 0

end StateIdManager

end Flint.StateIds
