import Flint.Syncer.Lease

/-!
# The repository lease

One forge server at a time may replace the snapshot of a repository. It claims the cell of the
repository: one nobody has written, its own, a released one, or one that has stood still for
`quietPolls` observations. Unless the cell was released it then rotates the snapshot: it writes the
same contents again under its own epoch, so that the tag a straggler holds is stale.

The holder restores from the snapshot and then commits. A commit renews the lease by a conditional
write of the cell, and then writes the snapshot on the condition that it is the one in hand.

One request of one server is a step. A conditional write can take effect and be answered by an
error.
-/

namespace Flint.Forge.Lease

open Flint.Syncer (EpochCell Observed Incarnation acquired renewed stillOurs quietPolls)

/-! ### Requests -/

inductive Answer
  | ok | precondition | conflict | error
deriving DecidableEq

inductive Fate
  | done | retried
  | conflict (took : Bool)
  | error (took : Bool)

namespace Fate

def takes : Fate → Bool
  | .done | .retried => true
  | .conflict took | .error took => took

def answer : Fate → Bool → Answer
  | .done, true => .ok
  | .done, false | .retried, _ => .precondition
  | .conflict _, _ => .conflict
  | .error _, _ => .error

def reads : Fate → Bool
  | .done | .retried => true
  | .conflict _ | .error _ => false

end Fate

structure Put (V : Type) where
  register : Register V
  took : Bool
  answer : Answer

def put {V : Type} (r : Register V) (expected : Option (ℕ × V)) (v : V) (fate : Fate) : Put V :=
  let took := fate.takes && r.current expected
  ⟨if took then r.put v else r, took, fate.answer took⟩

theorem put_cases {V : Type} (r : Register V) (x : Option (ℕ × V)) (v : V) (fate : Fate) :
    (put r x v fate).took = false ∧ (put r x v fate).register = r ∧ (put r x v fate).answer ≠ .ok ∨
      r.current x ∧ (put r x v fate).took ∧ (put r x v fate).register = r.put v := by
  cases htook : fate.takes && r.current x with
  | false =>
    refine .inl ⟨htook, by rw [put, htook]; rfl, ?_⟩
    rw [put, htook]
    cases fate with
    | _ => exact Answer.noConfusion
  | true =>
    refine .inr ⟨(Bool.and_eq_true_iff.mp htook).2, htook, ?_⟩
    rw [put, htook]
    rfl

structure Snapshot (ι : Type) where
  seq : ℕ
  epoch : ℕ
  packs : List ℕ
  writer : Option ι
deriving DecidableEq

def Snapshot.empty {ι : Type} : Snapshot ι := ⟨0, 0, [], none⟩

structure Bucket (ι : Type) where
  cell : Register (EpochCell ι)
  snapshot : Register (Snapshot ι)

/-- A snapshot with the tag that entitles its holder to replace it; nothing if there was none. -/
abbrev Cell (ι : Type) := Option (ℕ × Snapshot ι)

/-- The snapshot that was loaded: an absent one is empty. -/
def snapOf {ι : Type} : Cell ι → Snapshot ι
  | none => .empty
  | some p => p.2

def stamp {ι : Type} (cell : Cell ι) (packs : List ℕ) (epoch : ℕ) (writer : ι) : Snapshot ι :=
  ⟨(snapOf cell).seq + 1, epoch, packs, some writer⟩

/-! ### One server -/

inductive Commit
  | batch
  | fold (pack : ℕ)
  | reclaim
deriving DecidableEq

namespace Commit

/-- A refusal of the snapshot's write is the fence, and an unclear answer has the snapshot read
again. A reclaim only fails. -/
def settles : Commit → Bool
  | .batch | .fold _ => true
  | .reclaim => false

def landed {ι : Type} [DecidableEq ι] (c : Commit) (me : ι) (seq epoch : ℕ) (fresh : Snapshot ι) :
    Bool :=
  match c with
  | .batch => decide (fresh.seq = seq ∧ fresh.epoch = epoch ∧ fresh.writer = some me)
  | .fold pack => decide (pack ∈ fresh.packs ∧ fresh.epoch = epoch)
  | .reclaim => false

end Commit

inductive Phase (ι : Type)
  | idle
  | observed (state : Option (Observed ι))
  /-- `rotate_for_takeover`: load the snapshot ... -/
  | rotating (lease : Observed ι)
  /-- ... and write it. -/
  | rotateWrite (lease : Observed ι) (cell : Cell ι)
  | loading
  | listing (cell : Cell ι) (revalidated : Bool)
  | reloading
  | renewing (c : Commit) (cell : Cell ι) (packs : List ℕ)
  | renewRead (c : Commit) (cell : Cell ι) (packs : List ℕ)
  /-- Renewed: look up the epoch of the lease. -/
  | renewed (c : Commit) (cell : Cell ι) (packs : List ℕ)
  | committing (c : Commit) (cell : Cell ι) (packs : List ℕ) (epoch : ℕ)
  | settling (c : Commit) (seq epoch : ℕ)
  | releasing (lease : Observed ι)
deriving DecidableEq

structure Server (ι : Type) where
  inc : Incarnation
  lease : Option (Observed ι)
  cell : Option (Cell ι)
  fenced : Bool
  released : Bool
  /-- The timer's renewal was refused, and reads the cell next: the gate is taken. -/
  beating : Bool
  phase : Phase ι

inductive Event
  | stamped (epoch : ℕ)
  | rotated (epoch : ℕ)
deriving DecidableEq

structure Reply (ι : Type) where
  bucket : Bucket ι
  server : Server ι
  events : List Event

def stampedIf (took : Bool) (epoch : ℕ) : List Event := if took then [.stamped epoch] else []

namespace Server

variable {ι : Type} [DecidableEq ι] (me : ι)

def new (inc : Incarnation) : Server ι := ⟨inc, none, none, false, false, false, .idle⟩

variable (s : Server ι)

def claimed (lease : Observed ι) : Server ι :=
  { s with inc := ⟨lease.2.epoch, none, 0⟩, lease := some lease, phase := .idle }

def restartObservation : Server ι :=
  { s with inc := { s.inc with lastToken := none, quietPolls := 0 }, phase := .idle }

def isQuiet (inc : Incarnation) (o : Observed ι) : Bool := decide (inc.lastToken = some o.1)

def mayTake (inc : Incarnation) (o : Observed ι) : Bool :=
  decide (o.2.holder = me) || o.2.released ||
    (isQuiet inc o && decide (quietPolls ≤ inc.quietPolls + 1))

def waiting (o : Observed ι) : Server ι :=
  { s with
    inc := { s.inc with
      lastToken := some o.1
      quietPolls := if isQuiet s.inc o then s.inc.quietPolls + 1 else 0 }
    phase := .idle }

def toIdle : Server ι := { s with phase := .idle }

def fence : Server ι := { s with lease := none, fenced := true }

variable (fate : Fate)

def claimNext (b : Bucket ι) (s : Server ι) : Option (Observed ι) → Reply ι
  | none =>
    let r := put b.cell none (acquired me none) fate
    ⟨{ b with cell := r.register },
      if r.answer = .ok then s.claimed (r.register.version, acquired me none) else s.toIdle, []⟩
  | some o =>
    if mayTake me s.inc o then
      let r := put b.cell (some o) (acquired me (some o)) fate
      let lease := (r.register.version, acquired me (some o))
      ⟨{ b with cell := r.register },
        match r.answer with
        -- a released cell is a clean handoff
        | .ok => if o.2.released then s.claimed lease else { s with phase := .rotating lease }
        | .precondition | .conflict => s.restartObservation
        | .error => s.toIdle, []⟩
    else ⟨b, s.waiting o, []⟩

def adopted (b : Bucket ι) (s : Server ι) : Option (Observed ι) :=
  if fate.reads then s.lease.bind fun l => stillOurs l b.cell.read else none

def renewNext (b : Bucket ι) (s : Server ι) (c : Commit) (cell : Cell ι)
    (packs : List ℕ) : Reply ι :=
  match s.lease with
  | none => ⟨b, s.toIdle, []⟩
  | some l =>
    let r := put b.cell (some l) (renewed l) fate
    ⟨{ b with cell := r.register },
      match r.answer with
      | .ok =>
        { s with lease := some (r.register.version, renewed l), phase := .renewed c cell packs }
      | .precondition => { s with phase := .renewRead c cell packs }
      | .conflict | .error => s.toIdle, []⟩

def commitNext (b : Bucket ι) (s : Server ι) (c : Commit) (cell : Cell ι)
    (packs : List ℕ) (epoch : ℕ) : Reply ι :=
  let next := stamp cell packs epoch me
  let r := put b.snapshot cell next fate
  ⟨{ b with snapshot := r.register },
    match r.answer with
    | .ok => { s with cell := some (some (r.register.version, next)), phase := .idle }
    | .precondition => if c.settles then s.fence.toIdle else s.toIdle
    | .conflict | .error =>
      { s with phase := if c.settles then .settling c next.seq epoch else .idle },
    stampedIf r.took epoch⟩

def rotateNext (b : Bucket ι) (s : Server ι) (lease : Observed ι) (cell : Cell ι) : Reply ι :=
  let next := stamp cell (snapOf cell).packs lease.2.epoch me
  let r := put b.snapshot cell next fate
  if r.answer = .ok then
    ⟨{ b with snapshot := r.register },
      { s with cell := some (some (r.register.version, next)) }.claimed lease,
      .rotated lease.2.epoch :: stampedIf r.took lease.2.epoch⟩
  else ⟨{ b with snapshot := r.register }, s.toIdle, stampedIf r.took lease.2.epoch⟩

def next (b : Bucket ι) (s : Server ι) : Reply ι :=
  match s.phase with
  | .idle | .listing _ _ => ⟨b, s, []⟩
  | .observed state => claimNext me fate b s state
  | .rotating lease =>
    ⟨b, if fate.reads then { s with phase := .rotateWrite lease b.snapshot.read } else s.toIdle, []⟩
  | .rotateWrite lease cell => rotateNext me fate b s lease cell
  | .loading =>
    ⟨b,
      if fate.reads then
        match b.snapshot.read with
        -- nobody has published: the first commit creates the snapshot
        | none => { s with cell := some none, phase := .idle }
        | some p => { s with phase := .listing (some p) false }
      else s.toIdle, []⟩
  | .reloading =>
    ⟨b, if fate.reads then { s with phase := .listing b.snapshot.read true } else s.toIdle, []⟩
  | .renewing c cell packs =>
    if s.beating then ⟨b, s, []⟩
    else if s.fenced then ⟨b, s.toIdle, []⟩
    else renewNext fate b s c cell packs
  | .renewRead c cell packs =>
    ⟨b,
      match s.adopted fate b with
      | some l => { s with lease := some l, phase := .renewed c cell packs }
      | none => s.fence.toIdle, []⟩
  | .renewed c cell packs =>
    ⟨b,
      match s.lease with
      | some l => { s with phase := .committing c cell packs l.2.epoch }
      | none => s.toIdle, []⟩
  | .committing c cell packs epoch => commitNext me fate b s c cell packs epoch
  | .settling c seq epoch =>
    ⟨b,
      if fate.reads && c.landed me seq epoch (snapOf b.snapshot.read) then
        { s with cell := some b.snapshot.read, phase := .idle }
      else s.toIdle, []⟩
  | .releasing lease =>
    let r := put b.cell (some lease) { lease.2 with released := true, handoff := none } fate
    ⟨{ b with cell := r.register }, s.toIdle, []⟩

def gated : Bool :=
  match s.phase with
  | .renewRead _ _ _ | .releasing _ => true
  | _ => false

def beat (b : Bucket ι) (s : Server ι) : Reply ι :=
  if s.beating then
    ⟨b,
      match s.adopted fate b with
      | some l => { s with lease := some l, beating := false }
      | none => { s.fence with beating := false }, []⟩
  else if s.fenced || s.released || s.gated then ⟨b, s, []⟩
  else
    match s.lease with
    | none => ⟨b, s, []⟩
    | some l =>
      let r := put b.cell (some l) (renewed l) fate
      ⟨{ b with cell := r.register },
        match r.answer with
        | .ok => { s with lease := some (r.register.version, renewed l) }
        | .precondition => { s with beating := true }
        | .conflict | .error => s, []⟩

end Server

/-! ### The servers together -/

structure Servers (ι : Type) where
  bucket : Bucket ι
  servers : ι → Server ι
  log : List Event

inductive Action (ι : Type)
  | claim (i : ι)
  | next (i : ι) (fate : Fate)
  | beat (i : ι) (fate : Fate)
  | restore (i : ι)
  /-- A listing is answered; `missing` if it does not have every pack the snapshot names. -/
  | listed (i : ι) (missing : Bool)
  | commit (i : ι) (c : Commit) (packs : List ℕ)
  | release (i : ι)
  | restart (i : ι)

namespace Servers

variable {ι : Type} [DecidableEq ι]

def start (b : Bucket ι) (inc : ι → Incarnation) : Servers ι :=
  ⟨b, fun i => .new (inc i), b.snapshot.value.toList.map fun snap => .stamped snap.epoch⟩

def setServer (s : Servers ι) (i : ι) (w : Server ι) : Servers ι :=
  { s with servers := Function.update s.servers i w }

def reply (s : Servers ι) (i : ι) (r : Reply ι) : Servers ι :=
  { s.setServer i r.server with bucket := r.bucket, log := r.events ++ s.log }

def restoreFrom : Option (Cell ι) → Phase ι
  | none => .loading
  | some none => .idle
  -- a rotation has loaded the snapshot
  | some (some p) => .listing (some p) false

def listed (w : Server ι) (missing : Bool) : Server ι :=
  match w.phase with
  | .listing cell revalidated =>
    if missing then { w with phase := if revalidated then .idle else .reloading }
    else { w with cell := some cell, phase := .idle }
  | _ => w

def step (s : Servers ι) : Action ι → Servers ι
  | .claim i =>
    let w := s.servers i
    if w.phase = .idle ∧ w.lease = none ∧ w.fenced = false ∧ w.released = false then
      s.setServer i { w with phase := .observed s.bucket.cell.read }
    else s
  | .next i fate => s.reply i ((s.servers i).next i fate s.bucket)
  | .beat i fate => s.reply i ((s.servers i).beat fate s.bucket)
  | .restore i =>
    let w := s.servers i
    if w.phase = .idle ∧ w.lease.isSome ∧ w.fenced = false then
      s.setServer i { w with phase := restoreFrom w.cell }
    else s
  | .listed i missing => s.setServer i (listed (s.servers i) missing)
  | .commit i c packs =>
    let w := s.servers i
    match w.phase, w.cell with
    | .idle, some cell =>
      if w.fenced then s else s.setServer i { w with phase := .renewing c cell packs }
    | _, _ => s
  | .release i =>
    let w := s.servers i
    if w.phase = .idle ∧ w.beating = false then
      s.setServer i { w with
        lease := none
        released := true
        phase := match w.lease with
          | some l => .releasing l
          | none => .idle }
    else s
  | .restart i => s.setServer i (.new (s.servers i).inc)

end Servers

end Flint.Forge.Lease
