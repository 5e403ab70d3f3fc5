import Mathlib.Data.String.Basic
import Flint.Basic.Table
import Flint.Basic.Outcome

/-!
# The seat, the legs and the serving lease of a volume

A volume is served by one target, its composer. `block_volume_target` has the seat: the composer and
its epoch; `block_volume_legs` the targets with a copy and whether it is in sync; `block_leases` the
right to serve, for one epoch.

Epochs are signed 64-bit columns. The database computes `epoch + 1`, and a sum that does not fit
cannot be read back (`readSeat`).
-/

namespace Flint.Seat

open Outcome

inductive SeatError
  | unseatedVolume
  | unknownComposer (composer : String)
  | promotionRaced (epoch : Int) (composer : String)
  | notInSync (candidate : String)
  | selfPromotion (composer : String)
  | leaseRefused (reason : String)
  | invalidRange (reason : String)
  | queryReturnedNoRows
  | invalidColumnType (column : String)

abbrev Tx (α : Type) := Except SeatError α

/-! ### Rows -/

structure BlockTargetRow where
  targetId : String
  traddr : String
  trsvcid : UInt16
  registeredUnix : Int
  updatedUnix : Int

structure BlockSeat where
  epoch : Int
  composer : String
  seatedUnix : Int
deriving DecidableEq

inductive SyncState
  | insync | stale
deriving DecidableEq

def SyncState.ofString (s : String) : Option SyncState :=
  if s = "insync" then some .insync else if s = "stale" then some .stale else none

structure BlockLeg where
  targetId : String
  syncState : SyncState
  markedUnix : Int

structure BlockLease where
  epoch : Int
  holder : String
  expiresUnix : Int
deriving DecidableEq

structure Record where
  targets : KeyedTable BlockTargetRow.targetId
  seat : Option BlockSeat
  legs : KeyedTable BlockLeg.targetId
  lease : Option BlockLease

variable (volume : String)

namespace Record

def empty : Record := ⟨.empty, none, .empty, none⟩

def i64Max : Int := 9223372036854775807

variable (s : Record)

/-- `SELECT … FROM block_volume_target`: an epoch past the integers cannot be read. -/
def readSeat : Tx (Option BlockSeat) :=
  match s.seat with
  | none => .ok none
  | some seat =>
    if seat.epoch > i64Max then .error (.invalidColumnType "epoch") else .ok (some seat)

def targetRegister (targetId traddr : String) (trsvcid : UInt16) (nowUnix : Int) :
    Tx (Record × Unit) :=
  let registered := ((s.targets.lookup targetId).map BlockTargetRow.registeredUnix).getD nowUnix
  .ok ({ s with targets := s.targets.put ⟨targetId, traddr, trsvcid, registered, nowUnix⟩ }, ())

def seatVolume (composer : String) (nowUnix leaseExpiresUnix : Int) : Tx (Record × BlockSeat) := do
  let s' : Record :=
    match s.seat with
    | some _ => s
    | none =>
      { s with
        seat := some ⟨1, composer, nowUnix⟩
        legs := s.legs.insertOrIgnore ⟨composer, .insync, nowUnix⟩
        lease := some (s.lease.getD ⟨1, composer, leaseExpiresUnix⟩) }
  match ← s'.readSeat with
  | some seat => pure (s', seat)
  | none => .error .queryReturnedNoRows

def leaseGrant (epoch : Int) (holder : String) (expiresUnix : Int) : Tx (Record × BlockLease) :=
  .ok ({ s with lease := some ⟨epoch, holder, expiresUnix⟩ }, ⟨epoch, holder, expiresUnix⟩)

def leaseRenew (s : Record) (holder : String) (expiresUnix : Int) : Tx (Record × BlockLease) := do
  match ← s.readSeat with
  | none => .error .unseatedVolume
  | some seat =>
    let seatEpoch := seat.epoch
    let composer := seat.composer
    if composer ≠ holder then
      .error (.leaseRefused
        (s!"'{holder}' is not the composer of '{volume}' — the record seats it at '{composer}'"
          ++ s!" (epoch {seatEpoch})"))
    else
      match s.lease with
      | none => .error (.leaseRefused s!"no lease on '{volume}' — assembly has not granted one")
      | some lease =>
        let e := lease.epoch
        let h := lease.holder
        if e = seatEpoch ∧ h = holder then
          pure ({ s with lease := some { lease with expiresUnix } },
            ⟨seatEpoch, holder, expiresUnix⟩)
        else
          .error (.leaseRefused
            (s!"the standing lease on '{volume}' belongs to '{h}' at epoch {e}, not to '{holder}'"
              ++ s!" at epoch {seatEpoch} — assembly grants it, the holder does not take it"))

def leaseDrop : Tx (Record × Bool) := .ok ({ s with lease := none }, s.lease.isSome)

def legMark (targetId syncState : String) (nowUnix : Int) : Tx (Record × Unit) :=
  match SyncState.ofString syncState with
  | none => .error (.invalidRange "leg sync state")
  | some mark => .ok ({ s with legs := s.legs.put ⟨targetId, mark, nowUnix⟩ }, ())

def InSync (targetId : String) : Prop :=
  (s.legs.lookup targetId).map BlockLeg.syncState = some .insync

instance (targetId : String) : Decidable (s.InSync targetId) := inferInstanceAs (Decidable (_ = _))

def Registered (targetId : String) : Prop := (s.targets.lookup targetId).isSome = true

instance (targetId : String) : Decidable (s.Registered targetId) :=
  inferInstanceAs (Decidable (_ = _))

def promoteVolume (expectedEpoch : Int) (expectedComposer candidate : String)
    (nowUnix : Int) : Tx (Record × BlockSeat) := do
  match ← s.readSeat with
  | none => .error .unseatedVolume
  | some seat =>
    refuse (seat.epoch ≠ expectedEpoch ∨ seat.composer ≠ expectedComposer)
      (.promotionRaced seat.epoch seat.composer)
    refuse (candidate = seat.composer) (.selfPromotion seat.composer)
    refuse (¬s.Registered candidate) (.unknownComposer candidate)
    refuse (¬s.InSync candidate) (.notInSync candidate)
    if seat.epoch = expectedEpoch ∧ seat.composer = expectedComposer then
      pure ({ s with seat := some ⟨seat.epoch + 1, candidate, nowUnix⟩ },
        ⟨expectedEpoch + 1, candidate, nowUnix⟩)
    else .error (.promotionRaced seat.epoch seat.composer)

end Record

/-! ### Transactions -/

inductive SeatOp
  | targetRegister (targetId traddr : String) (trsvcid : UInt16) (nowUnix : Int)
  | seatVolume (composer : String) (nowUnix leaseExpiresUnix : Int)
  | promoteVolume (expectedEpoch : Int) (expectedComposer candidate : String) (nowUnix : Int)
  | leaseGrant (epoch : Int) (holder : String) (expiresUnix : Int)
  | leaseRenew (holder : String) (expiresUnix : Int)
  | leaseDrop
  | legMark (targetId syncState : String) (nowUnix : Int)

inductive SeatReply
  | done
  | seat (seat : BlockSeat)
  | lease (lease : BlockLease)
  | flag (b : Bool)

def answer {α : Type} (f : α → SeatReply) (x : Tx (Record × α)) : Tx (Record × SeatReply) :=
  x.map fun r => (r.1, f r.2)

def exec (s : Record) : SeatOp → Tx (Record × SeatReply)
  | .targetRegister t a p now => answer (fun _ => .done) (s.targetRegister t a p now)
  | .seatVolume c now exp => answer .seat (s.seatVolume c now exp)
  | .promoteVolume e c cand now => answer .seat (s.promoteVolume e c cand now)
  | .leaseGrant e h exp => answer .lease (s.leaseGrant e h exp)
  | .leaseRenew h exp => answer .lease (s.leaseRenew volume h exp)
  | .leaseDrop => answer .flag s.leaseDrop
  | .legMark t m now => answer (fun _ => .done) (s.legMark t m now)

def Commits (s : Record) (op : SeatOp) : Prop := (exec volume s op).isOk = true

instance (s : Record) (op : SeatOp) : Decidable (Commits volume s op) :=
  inferInstanceAs (Decidable (_ = true))

def step (s : Record) (op : SeatOp) : Record :=
  match exec volume s op with
  | .ok (s', _) => s'
  | .error _ => s

def recordAfter (ops : List SeatOp) : Record := run (step volume) .empty ops

end Flint.Seat
