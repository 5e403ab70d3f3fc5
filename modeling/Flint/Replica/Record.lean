import Mathlib.Algebra.Group.Nat.Defs
import Mathlib.Data.List.Basic

/-!
# The sync record of a volume

The record says of each replica of a volume, its legs, whether it holds every acknowledged write
(`inSync`), has missed some (`stale`), or is caught up and follows (`standby`), and it lists the
common epochs, the snapshots that all legs in sync have. `selectBaseEpoch` chooses the epoch that a
leg is rebuilt from.
-/

namespace Flint.Replica

inductive SyncState
  | inSync | stale | standby
deriving DecidableEq

structure CopySource (υ : Type) where
  lvolUuid : υ
  headUuid : υ
  since : Option ℕ
deriving DecidableEq

structure ReplicaSyncRecord (υ ν : Type) where
  lvolUuid : υ
  syncState : SyncState := .inSync
  lastEpoch : Option ν := none
  since : Option ℕ := none
  activeLvolUuid : Option υ := none
  revertedTo : Option ν := none
  hotRejoin : Option ν := none
  hotRejoinAt : Option ℕ := none
  maintDrain : Option ℕ := none
  emptyHead : Bool := false
  copiedFrom : List (CopySource υ) := []
  baseFloor : Option ν := none
  mustRevert : Bool := false

structure EpochEntry (ν : Type) where
  name : ν
  recordedAt : ℕ
deriving DecidableEq

structure VolumeSyncRecord (υ ν : Type) where
  currentEpoch : Option ν := none
  epochs : List (EpochEntry ν) := []
  retentionPin : Option ν := none
  replicas : List (ReplicaSyncRecord υ ν)

variable {υ ν : Type}

def lowerBase (seq : ν → Option ℕ) (floor : Option ν) (base : ν) : ν :=
  match floor with
  | none => base
  | some floor =>
    match seq floor, seq base with
    | some f, some b => if b < f then base else floor
    | none, _ => floor
    | some _, none => base

/-! ### What happens to one leg -/

namespace ReplicaSyncRecord

variable (leg : ReplicaSyncRecord υ ν)

def liveLvolUuid : υ := leg.activeLvolUuid.getD leg.lvolUuid

def maintDrainLive (now : ℕ) : Bool := leg.maintDrain.any fun deadline => now < deadline

def markStale (now : ℕ) (leg : ReplicaSyncRecord υ ν) : ReplicaSyncRecord υ ν :=
  match leg.syncState with
  -- a standby that is demoted keeps its stamp and its floor
  | .standby => { leg with
      syncState := .stale, since := leg.since.or (some now), mustRevert := true, copiedFrom := [] }
  | .inSync => { leg with
      syncState := .stale, since := some now, baseFloor := none, copiedFrom := [], mustRevert :=
        false }
  | .stale => leg

def applyRevert (seq : ν → Option ℕ) (base : ν) (newHead : υ) (leg : ReplicaSyncRecord υ ν) :
    ReplicaSyncRecord υ ν :=
  { leg with
    activeLvolUuid := some newHead
    revertedTo := some base
    hotRejoin := none
    copiedFrom := []
    mustRevert := false
    baseFloor := some (lowerBase seq leg.baseFloor base) }

def noteCopySource [DecidableEq υ] (src : ReplicaSyncRecord υ ν) (leg : ReplicaSyncRecord υ ν) :
    ReplicaSyncRecord υ ν :=
  let entry : CopySource υ := ⟨src.lvolUuid, src.liveLvolUuid, src.since⟩
  if entry ∈ leg.copiedFrom then leg else { leg with copiedFrom := leg.copiedFrom ++ [entry] }

def markStandby (lastEpoch : ν) (now : ℕ) (leg : ReplicaSyncRecord υ ν) : ReplicaSyncRecord υ ν :=
  { leg with
    syncState := .standby
    since := if leg.syncState = .standby then leg.since else some now
    lastEpoch := some lastEpoch
    emptyHead := false }

def markInSync (lastEpoch : ν) (now : ℕ) (leg : ReplicaSyncRecord υ ν) : ReplicaSyncRecord υ ν :=
  { leg with
    syncState := .inSync
    since := if leg.syncState = .inSync then leg.since else some now
    lastEpoch := some lastEpoch
    revertedTo := none
    emptyHead := false
    copiedFrom := []
    baseFloor := none
    mustRevert := false
    hotRejoin := none
    hotRejoinAt := if leg.hotRejoin.isSome then none else leg.hotRejoinAt }

def markHotRejoinIntent [DecidableEq ν] (ef : ν) (now : ℕ) (leg : ReplicaSyncRecord υ ν) :
    ReplicaSyncRecord υ ν :=
  if leg.maintDrainLive now then leg
  else if leg.syncState = .standby ∧ leg.hotRejoin = none then
    { leg with
      syncState := .stale, since := some now, hotRejoin := some ef, hotRejoinAt := some now }
  else if leg.syncState = .stale ∧ leg.hotRejoin ≠ some ef then
    { leg with hotRejoin := some ef, hotRejoinAt := some now }
  else leg

def markHotRejoined (ef : ν) (head : υ) (now : ℕ) (leg : ReplicaSyncRecord υ ν) :
    ReplicaSyncRecord υ ν :=
  { leg.markStandby ef now with
    activeLvolUuid := some head
    hotRejoin := some ef
    hotRejoinAt := some now
    revertedTo := none }

def clearHotRejoin (demoteToStale : Bool) (now : ℕ) (leg : ReplicaSyncRecord υ ν) :
    ReplicaSyncRecord υ ν :=
  let leg := if demoteToStale then leg.markStale now else leg
  if leg.hotRejoin.isSome then { leg with hotRejoin := none, hotRejoinAt := none } else leg

def refuseHotRejoin (now : ℕ) (leg : ReplicaSyncRecord υ ν) : ReplicaSyncRecord υ ν :=
  { leg with
    syncState := .stale
    since := leg.since.or (some now)
    mustRevert := true
    copiedFrom := []
    hotRejoin := none
    hotRejoinAt := none }

end ReplicaSyncRecord

/-! ### Transitions of the record -/

namespace VolumeSyncRecord

variable [DecidableEq υ] [DecidableEq ν]

def initial (uuids : List υ) : VolumeSyncRecord υ ν :=
  { replicas := uuids.map fun u => { lvolUuid := u } }

variable (r : VolumeSyncRecord υ ν)

def find (uuid : υ) : ℕ := r.replicas.findIdx fun leg => leg.lvolUuid = uuid

def update (uuid : υ) (f : ReplicaSyncRecord υ ν → ReplicaSyncRecord υ ν) : VolumeSyncRecord υ ν :=
  { r with replicas := r.replicas.modify (r.find uuid) f }

def applyEpochCut (epoch : ν) (cut : List υ) (now : ℕ) : VolumeSyncRecord υ ν :=
  { r with
    epochs := if r.epochs.any fun e => e.name = epoch then r.epochs else r.epochs ++ [⟨epoch, now⟩]
    currentEpoch := some epoch
    replicas := r.replicas.map fun leg =>
      if leg.syncState = .inSync ∧ leg.lvolUuid ∈ cut then { leg with lastEpoch := some epoch }
        else leg }

def retireFrom (seq : ν → Option ℕ) (pinSeq : Option ℕ) (r : VolumeSyncRecord υ ν) :
    List ν → VolumeSyncRecord υ ν
  | [] => r
  | name :: names =>
    if r.currentEpoch = some name then r
    else
      match seq name with
      | none => r
      | some n =>
        if pinSeq.any fun pin => pin ≤ n then r
        else retireFrom seq pinSeq { r with epochs := r.epochs.filter fun e => e.name ≠ name } names

/-- A pin that is not an epoch pins everything. -/
def retireEpochs (seq : ν → Option ℕ) (r : VolumeSyncRecord υ ν) (names : List ν) :
    VolumeSyncRecord υ ν :=
  match r.retentionPin with
  | none => retireFrom seq none r names
  | some pin =>
    match seq pin with
    | some n => retireFrom seq (some n) r names
    | none => r

def unpin : VolumeSyncRecord υ ν :=
  if r.replicas.any fun leg => leg.syncState = .standby ∨ leg.syncState = .stale ∧
    leg.revertedTo.isSome
  then r else { r with retentionPin := none }

/-- A drain is refused while another leg is drained or not in sync, and for the last leg in sync. -/
def drainable (uuid : υ) (now : ℕ) : Bool :=
  (r.replicas[r.find uuid]?).any fun target => target.hotRejoin.isNone &&
    (r.replicas.all fun leg => leg.lvolUuid = uuid ||
      !leg.maintDrainLive now && leg.syncState = .inSync) &&
    (!(target.syncState = .inSync : Bool) ||
      r.replicas.any fun leg => leg.lvolUuid ≠ uuid && leg.syncState = .inSync)

end VolumeSyncRecord

inductive LegTransition (υ ν : Type)
  | markStale
  | applyRevert (base : ν) (newHead : υ)
  | markStandby (lastEpoch : ν)
  | markInSync (lastEpoch : ν)
  | markHotRejoinIntent (ef : ν)
  | clearHotRejoin (demoteToStale : Bool)
  | refuseHotRejoin

inductive Transition (υ ν : Type)
  | leg (uuid : υ) (t : LegTransition υ ν)
  | noteCopySource (dst src : υ)
  | markHotRejoined (uuid : υ) (ef : ν) (cut : List υ) (head : υ)
  | drainForMaintenance (uuid : υ) (deadline : ℕ)
  | applyEpochCut (epoch : ν) (cut : List υ)
  | retireEpochs (names : List ν)

variable [DecidableEq υ] [DecidableEq ν]

omit [DecidableEq υ] in
def ReplicaSyncRecord.apply (seq : ν → Option ℕ) (now : ℕ) (leg : ReplicaSyncRecord υ ν) :
    LegTransition υ ν → ReplicaSyncRecord υ ν
  | .markStale => leg.markStale now
  | .applyRevert base newHead => leg.applyRevert seq base newHead
  | .markStandby lastEpoch => leg.markStandby lastEpoch now
  | .markInSync lastEpoch => leg.markInSync lastEpoch now
  | .markHotRejoinIntent ef => leg.markHotRejoinIntent ef now
  | .clearHotRejoin demoteToStale => leg.clearHotRejoin demoteToStale now
  | .refuseHotRejoin => leg.refuseHotRejoin now

def VolumeSyncRecord.apply (seq : ν → Option ℕ) (r : VolumeSyncRecord υ ν) (now : ℕ) :
    Transition υ ν → VolumeSyncRecord υ ν
  | .leg uuid t =>
    let r' := r.update uuid (·.apply seq now t)
    match t with
    | .markInSync _ => if r.find uuid < r.replicas.length then r'.unpin else r
    | _ => r'
  | .noteCopySource dst src =>
    match r.replicas[r.find src]? with
    | some src => r.update dst src.noteCopySource
    | none => r
  | .markHotRejoined uuid ef cut head =>
    (r.applyEpochCut ef cut now).update uuid (.markHotRejoined ef head now)
  | .drainForMaintenance uuid deadline =>
    if r.drainable uuid now then
      r.update uuid fun leg => { leg.markStale now with maintDrain := some deadline }
    else r
  | .applyEpochCut epoch cut => r.applyEpochCut epoch cut now
  | .retireEpochs names => r.retireEpochs seq names

def maxDuration : ℕ := (2 ^ 63 - 1) / 1000

def backOff (tBack : ℕ) : ℕ := if tBack ≤ maxDuration then tBack else 120

omit [DecidableEq υ] [DecidableEq ν] in
def baseCandidate (seq : ν → Option ℕ) (leg : ReplicaSyncRecord υ ν) (present : ν → Bool)
    (tBack : ℕ)
    (e : EpochEntry ν) : Bool :=
  (seq e.name).isSome && present e.name &&
  (leg.since.all fun t => e.recordedAt + backOff tBack ≤ t) &&
  match leg.baseFloor.or leg.revertedTo with
  | none => true
  | some floor =>
    match seq floor with
    | some f => (seq e.name).any fun n => n ≤ f
    | none => false

omit [DecidableEq υ] [DecidableEq ν] in
def selectBaseEpoch (seq : ν → Option ℕ) (r : VolumeSyncRecord υ ν) (leg : ReplicaSyncRecord υ ν)
    (present : ν → Bool) (tBack : ℕ) : Option ν :=
  let candidates := r.epochs.filter (baseCandidate seq leg present tBack)
  (if leg.since.isSome then candidates.getLast? else candidates.head?).map EpochEntry.name

end Flint.Replica
