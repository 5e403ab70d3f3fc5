import Flint.Basic.Outcome
import Flint.Tier.Capture

/-!
# Marks, acknowledgements and the flusher

An operation that changes a file is acknowledged when the dirty row of the file is durable. It
drains the queue of marks, whoever put them there: it notes its changes (`note`), asks whether any
mark is queued (`check`), takes all of them (`take`), writes them in one transaction (`commit`), and
confirms them or, when the transaction failed, queues them again (`settle`).

The flusher goes through the rows. Of one file it takes what is captured, publishes a generation,
and then tries to delete the row: it clears the memo of the durable bit (`clear`), looks whether
anything was captured or queued in the meantime (`inspect`), and deletes the row at the number of
the listing (`delete`).

Each of these is one step, and the steps are interleaved freely.
-/

namespace Flint.Tier.Marks

open Function

abbrev Changes := List (Ident × ℕ)

inductive Op
  | idle
  | noted (changes : Changes)
  | due (changes : Changes)
  | draining (changes : Changes) (marks : List PendingMark)
  | committed (changes : Changes) (marks : List PendingMark)
  | failed (marks : List PendingMark)
  | passed (changes : Changes)

inductive Flush
  | idle
  | listed (seq : ℕ)
  /-- It has taken what is captured; `upto` changes were made to the file by then. -/
  | took (seq : ℕ) (epoch : FileCapture) (upto : ℕ)
  /-- A generation was published, or there was nothing to publish. -/
  | clearing (seq : ℕ)
  | cleared (seq : ℕ)
  | checked (seq : ℕ)

inductive Publish
  | done | failed | foreign

structure Server (ω : Type) where
  tables : Tables
  rows : Dirty
  version : Ident → ℕ
  published : Ident → ℕ
  ops : ω → Op
  flush : Ident → Flush
  acked : Changes

inductive Action (ω : Type)
  | note (o : ω) (i : Ident) (path : Option Path) (m : Mutation)
  /-- `events`: whether identity events are pending, which are drained with the marks. -/
  | check (o : ω) (events : Bool)
  | take (o : ω)
  | commit (o : ω) (ok : Bool)
  | settle (o : ω)
  | ack (o : ω)
  | list (i : Ident)
  | giveUp (i : Ident)
  | takeEpoch (i : Ident)
  | publish (i : Ident) (how : Publish)
  | skip (i : Ident)
  | clear (i : Ident)
  | inspect (i : Ident)
  | delete (i : Ident) (ok : Bool)
  | restart

def Op.open? : Op → Option Changes
  | .idle => some []
  | .noted changes => some changes
  | _ => none

namespace Server

variable {ω : Type}

def start : Server ω :=
  ⟨.start, fun _ => none, fun _ => 0, fun _ => 0, fun _ => .idle, fun _ => .idle, []⟩

def setFlush (s : Server ω) (i : Ident) (f : Flush) : Server ω :=
  { s with flush := update s.flush i f }

def publish (s : Server ω) (i : Ident) (seq : ℕ) (epoch : FileCapture) (upto : ℕ) :
    Publish → Server ω
  | .done => { s with published := update s.published i upto }.setFlush i (.clearing seq)
  | .failed => { s with tables := s.tables.mergeBack i epoch }.setFlush i .idle
  | .foreign =>
    { s with tables := (s.tables.mergeBack i epoch).noteAt i none .whole }.setFlush i .idle

def inspect (s : Server ω) (i : Ident) (seq : ℕ) : Server ω :=
  if (s.tables.captured i).isDirty || s.tables.isQueued i then
    { s with tables := s.tables.primeDurable i }.setFlush i .idle
  else s.setFlush i (.checked seq)

def delete (s : Server ω) (i : Ident) (seq : ℕ) (ok : Bool) : Server ω :=
  if ok then { s with rows := (clearDirtyIfSeq s.rows i seq).2 }.setFlush i .idle
  else { s with tables := s.tables.primeDurable i }.setFlush i .idle

/-! ### Operations -/

variable [DecidableEq ω]

def setOp (s : Server ω) (o : ω) (op : Op) : Server ω :=
  { s with ops := update s.ops o op }

def note (s : Server ω) (o : ω) (changes : Changes) (i : Ident) (path : Option Path)
    (m : Mutation) :
    Server ω :=
  { s with
    tables := s.tables.noteAt i path m
    version := if m.isEmpty then s.version
      else update s.version i (s.version i + 1) }.setOp o
      (.noted (changes ++ if m.isEmpty then [] else [(i, s.version i + 1)]))

def take (s : Server ω) (o : ω) (changes : Changes) : Server ω :=
  { s with tables := s.tables.takePending }.setOp o
    (if s.tables.waiting = [] then .passed changes else .draining changes s.tables.waiting)

def commit (s : Server ω) (o : ω) (changes : Changes) (marks : List PendingMark) (ok : Bool) :
    Server ω :=
  if ok then { s with rows := markDirty s.rows marks }.setOp o (.committed changes marks)
  else s.setOp o (.failed marks)

def restart (s : Server ω) : Server ω :=
  { s with tables := restored s.rows, ops := fun _ => .idle, flush := fun _ => .idle }

def step (s : Server ω) : Action ω → Server ω
  | .note o i path m =>
    match (s.ops o).open? with
    | some changes => s.note o changes i path m
    | none => s
  | .check o events =>
    match s.ops o with
    | .noted changes =>
      s.setOp o (if s.tables.hasPending || events then .due changes else .passed changes)
    | _ => s
  | .take o =>
    match s.ops o with
    | .due changes => s.take o changes
    | _ => s
  | .commit o ok =>
    match s.ops o with
    | .draining changes marks => s.commit o changes marks ok
    | _ => s
  | .settle o =>
    match s.ops o with
    | .committed changes marks =>
      { s with tables := s.tables.confirmDurable marks }.setOp o (.passed changes)
    | .failed marks => { s with tables := s.tables.requeue marks }.setOp o .idle
    | _ => s
  | .ack o =>
    match s.ops o with
    | .passed changes => { s with acked := changes ++ s.acked }.setOp o .idle
    | _ => s
  | .list i =>
    match s.flush i, s.rows i with
    | .idle, some row => s.setFlush i (.listed row.seq)
    | _, _ => s
  | .giveUp i =>
    match s.flush i with
    | .listed _ => s.setFlush i .idle
    | _ => s
  | .takeEpoch i =>
    match s.flush i with
    | .listed seq =>
      { s with tables := s.tables.takeEpoch i }.setFlush i
        (.took seq (s.tables.captured i) (s.version i))
    | _ => s
  | .publish i how =>
    match s.flush i with
    | .took seq epoch upto => s.publish i seq epoch upto how
    | _ => s
  | .skip i =>
    match s.flush i with
    | .took seq epoch _ => if epoch.isDirty then s else s.setFlush i (.clearing seq)
    | _ => s
  | .clear i =>
    match s.flush i with
    | .clearing seq => { s with tables := s.tables.clearDurable i }.setFlush i (.cleared seq)
    | _ => s
  | .inspect i =>
    match s.flush i with
    | .cleared seq => s.inspect i seq
    | _ => s
  | .delete i ok =>
    match s.flush i with
    | .checked seq => s.delete i seq ok
    | _ => s
  | .restart => s.restart

end Server

end Flint.Tier.Marks
