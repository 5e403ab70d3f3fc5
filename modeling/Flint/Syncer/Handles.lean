import Flint.Basic.Register
import Flint.Basic.Outcome
import Flint.Syncer.Merge

/-!
# Handles, their citations and their collection

The bytes of a file are in its handle, an object that is written once and named after the path and
the flush that wrote it. Three parties cite handles, each with one conditional write of the
document:

* a writer, in its commit section, under the lease. It installs its changes over the document it
  loaded, and then collects by what it installed: `reap_retired` deletes the handles that the old
  retire logs name, and `sweep_orphans` the old handles that nothing cites;
* the gateway, without a lease: it writes a handle and cites it, deletes a citation or moves one;
* the ingress sweep (`track_untracked`), without a lease: an object at the bare key of a path is
  copied to a handle named after its etag, which is cited if the path still cites what the sweep
  saw. A copy that is there already is used as it is.

A whole edit is one step. `known`, `replaced`, `retired` and `collected` record what has happened.
-/

namespace Flint.Syncer

open Function

/-- Who wrote a handle. An adopted copy is named after the etag of its object. -/
inductive Flush
  | own (id : ℕ)
  | ui (id : ℕ)
  | ingress (etag : ℕ)
deriving DecidableEq

structure Handle where
  path : Str
  flush : Flush
deriving DecidableEq

abbrev Citations := SortedMap Str Handle

def citedHandles (d : Citations) : List Handle := d.rows.map Prod.snd

structure IngressObject where
  etag : ℕ
  modified : ℕ

structure RetireLog where
  atUnix : ℕ
  handles : List Handle
deriving DecidableEq

structure RetireLedger where
  due : List RetireLog
  spared : List Handle

structure CommitJob where
  flush : ℕ
  deletes : List Str

inductive SectionPhase
  | idle
  | verifying (job : CommitJob) (uploads kept : List Str)
  | ready (job : CommitJob) (kept : List Str)
  | merged (job : CommitJob) (kept : List Str) (read : Option (ℕ × Citations))
  | installed (job : CommitJob) (doc : Citations)
  | collecting (job : CommitJob) (doc : Citations) (now : ℕ)
  | reaping (job : CommitJob) (doc : Citations) (ledger : RetireLedger)
  | reaped (job : CommitJob) (doc : Citations) (ledger : RetireLedger)
  | sweeping (job : CommitJob) (doc : Citations) (ledger : RetireLedger) (now : ℕ)
  | listed (job : CommitJob) (doc : Citations) (ledger : RetireLedger) (now : ℕ)
      (objects : Handle → Option ℕ)

inductive TrackPhase
  | idle
  | loaded (cited : Citations)
  | tracking (cited : Citations) (now : ℕ) (objects : List (Str × IngressObject))
  | copied (cited : Citations) (now : ℕ) (path : Str) (etag : ℕ) (made : Option ℕ)
      (objects : List (Str × IngressObject))

structure GraceCfg where
  untrackedGrace : ℕ
  retireGrace : ℕ

/-- `ι` editors of the gateway and `κ` ingress sweeps, beside the writers. -/
structure Handles (ι κ : Type) where
  time : ℕ
  bare : SortedMap Str IngressObject
  etags : List ℕ
  objects : Handle → Option ℕ
  doc : Register Citations
  logs : List RetireLog
  unlogged : List (List Handle)
  turn : SectionPhase
  editors : ι → Option (Handle × ℕ)
  tracks : κ → TrackPhase
  known : Handle → Bool
  replaced : List (Str × Handle)
  /-- The handles that some commit has dropped from the document, and those of the first logs. -/
  retired : List Handle
  collected : List Handle

inductive HandleAction (ι κ : Type)
  | tick
  | ingress (path : Str) (etag : ℕ)
  | upload (path : Str) (id : ℕ)
  | begin (job : CommitJob) (uploads : List Str)
  | head | load | cas | clock | ledger
  | reap (h : Handle)
  | dropLogs | sweepClock | list
  | sweep (h : Handle)
  | finish
  | log (i : ℕ)
  | put (i : ι) (path : Str) (id : ℕ)
  /-- It cites the handle. -/
  | save (i : ι)
  | remove (path : Str)
  | rename (src dst : Str)
  | trackLoad (k : κ)
  | trackList (k : κ) (now : ℕ)
  | trackCopy (k : κ)
  | trackCommit (k : κ)

namespace Handles

variable {ι κ : Type} (s : Handles ι κ)

def citations : Citations := s.doc.value.getD .empty

def start (time : ℕ) (bare : SortedMap Str IngressObject) (objects : Handle → Option ℕ)
    (doc : Option Citations) (logs : List RetireLog) : Handles ι κ :=
  let cited := citedHandles (doc.getD .empty)
  { time, bare, objects, doc := .new doc, logs
    etags := bare.rows.map (fun r => r.2.etag) ++ cited.filterMap fun h =>
      match h.flush with
      | .ingress etag => some etag
      | _ => none
    unlogged := []
    turn := .idle
    editors := fun _ => none
    tracks := fun _ => .idle
    known := fun h => (objects h).isSome || cited.contains h ||
      (logs.flatMap RetireLog.handles).contains h
    replaced := []
    retired := logs.flatMap RetireLog.handles
    collected := [] }

def dropped (d : Citations) : List Handle :=
  (citedHandles s.citations).filter fun h => !(citedHandles d).contains h

def replacedBy (d : Citations) : List (Str × Handle) :=
  s.citations.rows.filter fun r => d.get? r.1 ≠ some r.2

def publish (d : Citations) : Handles ι κ :=
  { s with
    doc := s.doc.put d
    unlogged := s.dropped d :: s.unlogged
    replaced := s.replacedBy d ++ s.replaced
    retired := s.dropped d ++ s.retired }

def write (h : Handle) : Handles ι κ :=
  { s with
    objects := update s.objects h (some s.time)
    known := update s.known h true }

def collect (h : Handle) : Handles ι κ :=
  { s with
    objects := update s.objects h none
    collected := h :: s.collected }

end Handles

/-- The document of a commit section: theirs, with the uploads that are there and the deletes. -/
def mergeOnto (job : CommitJob) (kept : List Str) (theirs : Citations) : Citations :=
  job.deletes.foldl SortedMap.erase
    (kept.foldl (fun d path => d.insert path ⟨path, .own job.flush⟩) theirs)

def retireLedger (grace now : ℕ) (logs : List RetireLog) : RetireLedger where
  due := logs.filter fun l => grace ≤ now - l.atUnix
  spared := (logs.filter fun l => ¬grace ≤ now - l.atUnix).flatMap RetireLog.handles

def reapable (doc : Citations) (ledger : RetireLedger) (h : Handle) : Bool :=
  (ledger.due.flatMap RetireLog.handles).contains h && !(citedHandles doc).contains h &&
    !ledger.spared.contains h

def isOrphan (grace : ℕ) (job : CommitJob) (doc : Citations) (ledger : RetireLedger) (now : ℕ)
    (objects : Handle → Option ℕ) (h : Handle) : Bool :=
  decide (h.flush ≠ .own job.flush) && !(citedHandles doc).contains h &&
    !ledger.spared.contains h && (objects h).any fun modified => grace ≤ now - modified

def notAFile (path : List Char) : Bool := path.isEmpty || path.getLast? = some '/'

def untrackable (grace : ℕ) (cited : Citations) (now : ℕ) (path : Str) (o : IngressObject) : Bool :=
  notAFile path || decide (now - o.modified < grace) ||
    decide (cited.get? path = some ⟨path, .ingress o.etag⟩)

namespace Handles

variable {ι κ : Type} (C : GraceCfg) (s : Handles ι κ)

def merge : Option Citations :=
  match s.turn with
  | .merged job kept read =>
    if s.doc.current read then some (mergeOnto job kept ((read.map Prod.snd).getD .empty)) else none
  | _ => none

/-- The document that an ingress sweep installs, if the path still cites what the sweep saw. -/
def adoption (k : κ) : Option Citations :=
  match s.tracks k with
  | .copied cited _ path etag _ _ =>
    if s.citations.get? path = cited.get? path then
      some (s.citations.insert path ⟨path, .ingress etag⟩)
    else none
  | _ => none

def removal (path : Str) : Option Citations :=
  (s.citations.get? path).map fun _ => s.citations.erase path

def moving (src dst : Str) : Option Citations :=
  match s.citations.get? src, s.citations.get? dst with
  | some h, none => some ((s.citations.erase src).insert dst h)
  | _, _ => none

def nextDoc : HandleAction ι κ → Option Citations
  | .cas => s.merge
  | .save i => (s.editors i).map fun e => s.citations.insert e.1.path e.1
  | .remove path => s.removal path
  | .rename src dst => s.moving src dst
  | .trackCommit k => s.adoption k
  | _ => none

def stepTurn : HandleAction ι κ → Handles ι κ
  | .head =>
    match s.turn with
    | .verifying job (path :: uploads) kept =>
      -- an upload that is gone is withheld
      let kept := if (s.objects ⟨path, .own job.flush⟩).isSome then kept ++ [path] else kept
      { s with turn := .verifying job uploads kept }
    | .verifying job [] kept => { s with turn := .ready job kept }
    | _ => s
  | .load =>
    match s.turn with
    | .ready job kept => { s with turn := .merged job kept s.doc.read }
    | _ => s
  | .cas =>
    match s.turn with
    | .merged job kept _ =>
      match s.merge with
      | some d => { s.publish d with turn := .installed job d }
      | none => { s with turn := .ready job kept }
    | _ => s
  | .clock =>
    match s.turn with
    | .installed job doc => { s with turn := .collecting job doc s.time }
    | _ => s
  | .ledger =>
    match s.turn with
    | .collecting job doc now =>
      { s with turn := .reaping job doc (retireLedger C.retireGrace now s.logs) }
    | _ => s
  | .reap h =>
    match s.turn with
    | .reaping _ doc ledger => if reapable doc ledger h then s.collect h else s
    | _ => s
  | .dropLogs =>
    match s.turn with
    | .reaping job doc ledger =>
      { s with logs := s.logs.filter fun l => !ledger.due.contains l,
               turn := .reaped job doc ledger }
    | _ => s
  | .sweepClock =>
    match s.turn with
    | .reaped job doc ledger => { s with turn := .sweeping job doc ledger s.time }
    | _ => s
  | .list =>
    match s.turn with
    | .sweeping job doc ledger now => { s with turn := .listed job doc ledger now s.objects }
    | _ => s
  | .sweep h =>
    match s.turn with
    | .listed job doc ledger now objects =>
      if isOrphan C.untrackedGrace job doc ledger now objects h then s.collect h else s
    | _ => s
  | _ => s

variable [DecidableEq κ]

def trackCopy (s : Handles ι κ) (k : κ) : Handles ι κ :=
  match s.tracks k with
  | .tracking _ _ [] => { s with tracks := update s.tracks k .idle }
  | .tracking cited now ((path, o) :: rest) =>
    let skip := { s with tracks := update s.tracks k (.tracking cited now rest) }
    let copied (s : Handles ι κ) (made : Option ℕ) : Handles ι κ :=
      { s with tracks := update s.tracks k (.copied cited now path o.etag made rest) }
    if untrackable C.untrackedGrace cited now path o then skip
    else
      match s.objects ⟨path, .ingress o.etag⟩ with
      | some _ => copied s none
      | none =>
        if (s.bare.get? path).map IngressObject.etag = some o.etag then
          copied (s.write ⟨path, .ingress o.etag⟩) (some s.time)
        -- the object has moved since it was listed
        else skip
  | _ => s

def trackNext (s : Handles ι κ) (k : κ) : Handles ι κ :=
  match s.tracks k with
  | .copied cited now _ _ _ rest =>
    { s with tracks := update s.tracks k (.tracking cited now rest) }
  | _ => s

variable [DecidableEq ι]

def step (s : Handles ι κ) (a : HandleAction ι κ) : Handles ι κ :=
  match a with
  | .tick => { s with time := s.time + 1 }
  | .ingress path etag =>
    if s.etags.contains etag then s
    else { s with bare := s.bare.insert path ⟨etag, s.time⟩, etags := etag :: s.etags }
  -- an upload that is there already is taken as it is
  | .upload path id =>
    if (s.objects ⟨path, .own id⟩).isSome then s else s.write ⟨path, .own id⟩
  | .begin job uploads =>
    match s.turn with
    | .idle => { s with turn := .verifying job uploads [] }
    | _ => s
  | .finish => { s with turn := .idle }
  | .log i =>
    match s.unlogged[i]? with
    | some handles =>
      { s with logs := ⟨s.time, handles⟩ :: s.logs, unlogged := s.unlogged.eraseIdx i }
    | none => s
  | .put i path id =>
    if s.known ⟨path, .ui id⟩ then s
    else
      { s.write ⟨path, .ui id⟩ with
        editors := update s.editors i (some (⟨path, .ui id⟩, s.time)) }
  | .save i =>
    match s.editors i with
    | some e =>
      { s.publish (s.citations.insert e.1.path e.1) with
        editors := update s.editors i none }
    | none => s
  | .remove path => (s.removal path).elim s s.publish
  | .rename src dst => (s.moving src dst).elim s s.publish
  | .trackLoad k =>
    match s.tracks k with
    | .idle => { s with tracks := update s.tracks k (.loaded s.citations) }
    | _ => s
  | .trackList k now =>
    match s.tracks k with
    | .loaded cited => { s with tracks := update s.tracks k (.tracking cited now s.bare.rows) }
    | _ => s
  | .trackCopy k => s.trackCopy C k
  | .trackCommit k =>
    match s.adoption k with
    | some d => (s.publish d).trackNext k
    | none => s.trackNext k
  | _ => s.stepTurn C a

end Handles

end Flint.Syncer
