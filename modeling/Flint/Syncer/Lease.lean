import Flint.Syncer.Edit

/-!
# The lease for a commit

A writer takes the cell for the commit section of one barrier, and hands it to the head of the queue
after it. A cell that stands still for `quietPolls` spaced observations belongs to a holder that
died: a waiter takes it over, in the next epoch, and rotates the pointer, so that a write of the old
holder which is still on its way names a pointer that has moved.

The holder loads the document, then reads the cell, and writes the pointer on the condition that it
is the one loaded. One request of one writer is a step. A conditional write can be refused without
cause (409), and it can take effect and be answered as refused.
-/

namespace Flint.Syncer

structure EpochCell (ι : Type) where
  holder : ι
  epoch : ℕ
  released : Bool
  waiters : List ι
  handoff : Option ι
deriving DecidableEq

/-- A cell as it was read or written, with its token. A lease is one that names its holder. -/
abbrev Observed (ι : Type) := ℕ × EpochCell ι

structure Incarnation where
  epoch : ℕ
  lastToken : Option ℕ
  quietPolls : ℕ

def quietPolls : ℕ := 6

def handoffQuietPolls : ℕ := 2

def casAttempts : ℕ := 12

def rotateAttempts : ℕ := 3

def releaseAttempts : ℕ := 8

structure Generation where
  seq : ℕ
  epoch : ℕ
deriving DecidableEq

/-- The object of the old layout, which a migration makes unreadable. -/
inductive Legacy
  | absent
  | document (seq : ℕ)
  | refusal
deriving DecidableEq

structure Workspace (ι : Type) where
  cell : Register (EpochCell ι)
  pointer : Register Generation
  legacy : Legacy

structure Opened where
  expected : Option (ℕ × Generation)
  seq : ℕ
deriving DecidableEq

inductive WriterPhase (ι : Type)
  | idle
  | observed (state : Option (Observed ι)) (count : Bool)
  /-- `rotate_for_takeover`: read the pointer. -/
  | rotating (lease : Observed ι) (tries : ℕ)
  /-- There was none: load the document, through the pointer ... -/
  | rotateLoad (lease : Observed ι) (tries : ℕ)
  | rotateLegacy (lease : Observed ι) (tries : ℕ)
  | rotateCas (lease : Observed ι) (tries : ℕ) (doc : Opened)
  | opening (attempt : ℕ)
  | openLegacy (attempt : ℕ)
  | opened (attempt : ℕ) (doc : Opened)
  /-- A renewal was refused: read the cell. -/
  | renewRead (attempt : ℕ) (doc : Opened)
  | renewAgain (attempt : ℕ) (doc : Opened) (adopted : Observed ι)
  | verified (attempt : ℕ) (doc : Opened)
  | releasing (current : Observed ι) (attempt : ℕ)
  | rereading (current : Observed ι) (attempt : ℕ)

structure Writer (ι : Type) where
  inc : Incarnation
  lease : Option (Observed ι)
  phase : WriterPhase ι

/-- `fence` is the epoch of a takeover whose `claim_step` returned `Claimed` with the request. -/
structure Reply (ι : Type) where
  workspace : Workspace ι
  writer : Writer ι
  fence : Option ℕ

def casWith {V : Type} (r : Register V) (expected : Option (ℕ × V)) (v : V) (fate : CasFate) :
    Register V × Bool :=
  if r.current expected then
    match fate with
    | .done => (r.put v, true)
    | .lostAnswer => (r.put v, false)
    | .conflict => (r, false)
  else (r, false)

theorem casWith_cases {V : Type} (r : Register V) (x : Option (ℕ × V)) (v : V) (fate : CasFate) :
    casWith r x v fate = (r, false) ∨ r.current x ∧ ∃ ok, casWith r x v fate = (r.put v, ok) := by
  unfold casWith
  split
  · next hcur =>
    cases fate with
    | done => exact .inr ⟨hcur, true, rfl⟩
    | lostAnswer => exact .inr ⟨hcur, false, rfl⟩
    | conflict => exact .inl rfl
  · exact .inl rfl

theorem casWith_of_ok {V : Type} {r : Register V} {x : Option (ℕ × V)} {v : V} {fate : CasFate}
    (hok : (casWith r x v fate).2) : (casWith r x v fate).1 = r.put v := by
  rcases casWith_cases r x v fate with heq | ⟨-, ok, heq⟩
  · rw [heq] at hok
    cases hok
  · rw [heq]

section Cell

variable {ι : Type} [DecidableEq ι]

def acquired (me : ι) : Option (Observed ι) → EpochCell ι
  | none => ⟨me, 1, false, [], none⟩
  | some o => ⟨me, o.2.epoch + 1, false, o.2.waiters.filter (· ≠ me), none⟩

def enqueued (me : ι) (o : Observed ι) : EpochCell ι :=
  { o.2 with waiters := if me ∈ o.2.waiters then o.2.waiters else o.2.waiters ++ [me] }

def renewed (lease : Observed ι) : EpochCell ι :=
  { lease.2 with released := false, handoff := none }

def handedOff (lease : Observed ι) : EpochCell ι :=
  { lease.2 with
    released := true
    waiters := lease.2.waiters.tail
    handoff := lease.2.waiters.head? }

def sameHold (lease : Observed ι) (cell : Observed ι) : Bool :=
  decide (cell.2.epoch = lease.2.epoch) && decide (cell.2.holder = lease.2.holder)

def stillOurs (lease : Observed ι) (cell : Option (Observed ι)) : Option (Observed ι) :=
  cell.filter fun c => sameHold lease c && !c.2.released

end Cell

namespace Writer

variable {ι : Type} [DecidableEq ι] (me : ι)

def countedQuiet (inc : Incarnation) (token : ℕ) (count : Bool) : ℕ :=
  if count then if inc.lastToken = some token then inc.quietPolls + 1 else 0 else inc.quietPolls

inductive Verdict
  | adopt
  | take (rotate : Bool)
  | wait

def verdict (inc : Incarnation) (o : Observed ι) (count : Bool) : Verdict :=
  let quiet := countedQuiet inc o.1 count
  if o.2.holder = me ∧ o.2.epoch = inc.epoch ∧ o.2.released = false then .adopt
  else if o.2.holder = me ∧ o.2.released = false then .take true
  else if o.2.released then
    match o.2.handoff with
    | none => .take false
    | some h => if h = me ∨ handoffQuietPolls ≤ quiet then .take false else .wait
  else if quietPolls ≤ quiet then .take true else .wait

def claimed (lease : Observed ι) : Writer ι := ⟨⟨lease.2.epoch, none, 0⟩, some lease, .idle⟩

def restartObservation (w : Writer ι) : Writer ι :=
  { w with inc := { w.inc with lastToken := none, quietPolls := 0 }, phase := .idle }

def waiting (w : Writer ι) (o : Observed ι) (token : ℕ) (count : Bool) : Writer ι :=
  if count then
    { w with
      inc := { w.inc with lastToken := some token, quietPolls := countedQuiet w.inc o.1 count }
      phase := .idle }
  else { w with phase := .idle }

def claimNext (fate : CasFate) (b : Workspace ι) (w : Writer ι) (count : Bool) :
    Option (Observed ι) → Reply ι
  | none =>
    let r := casWith b.cell none (acquired me none) fate
    ⟨{ b with cell := r.1 },
      if r.2 then claimed (r.1.version, acquired me none) else { w with phase := .idle }, none⟩
  | some o =>
    match verdict me w.inc o count with
    | .adopt => ⟨b, { w.restartObservation with lease := some o }, none⟩
    | .take rotate =>
      let r := casWith b.cell (some o) (acquired me (some o)) fate
      let lease := (r.1.version, acquired me (some o))
      ⟨{ b with cell := r.1 },
        if r.2 then
          if rotate then { w with phase := .rotating lease rotateAttempts } else claimed lease
        else w.restartObservation, none⟩
    | .wait =>
      if me ∈ o.2.waiters then ⟨b, w.waiting o o.1 count, none⟩
      else
        let r := casWith b.cell (some o) (enqueued me o) fate
        ⟨{ b with cell := r.1 }, w.waiting o (if r.2 then r.1.version else o.1) count, none⟩

def rotateAgain (w : Writer ι) (lease : Observed ι) (tries : ℕ) : Writer ι :=
  { w with phase := if 1 < tries then .rotating lease (tries - 1) else .idle }

def commitAgain (w : Writer ι) (attempt : ℕ) : Writer ι :=
  { w with phase := if attempt < casAttempts then .opening (attempt + 1) else .idle }

def behind (p : ℕ × Generation) : Opened := ⟨some p, p.2.seq⟩

def next (fate : CasFate) (b : Workspace ι) (w : Writer ι) : Reply ι :=
  match w.phase with
  | .idle => ⟨b, w, none⟩
  | .observed state count => claimNext me fate b w count state
  | .rotating lease tries =>
    match b.pointer.read with
    | some p => ⟨b, { w with phase := .rotateCas lease tries (behind p) }, none⟩
    | none => ⟨b, { w with phase := .rotateLoad lease tries }, none⟩
  | .rotateLoad lease tries =>
    match b.pointer.read with
    | some p => ⟨b, { w with phase := .rotateCas lease tries (behind p) }, none⟩
    | none => ⟨b, { w with phase := .rotateLegacy lease tries }, none⟩
  | .rotateLegacy lease tries =>
    match b.legacy with
    -- there is no document, and nothing is rotated
    | .absent => ⟨b, claimed lease, some lease.2.epoch⟩
    | .document seq => ⟨b, { w with phase := .rotateCas lease tries ⟨none, seq⟩ }, none⟩
    | .refusal => ⟨b, { w with phase := .idle }, none⟩
  | .rotateCas lease tries doc =>
    let r := casWith b.pointer doc.expected ⟨doc.seq + 1, lease.2.epoch⟩ fate
    if r.2 then ⟨{ b with pointer := r.1 }, claimed lease, some lease.2.epoch⟩
    else ⟨{ b with pointer := r.1 }, w.rotateAgain lease tries, none⟩
  | .opening attempt =>
    match b.pointer.read with
    | some p => ⟨b, { w with phase := .opened attempt (behind p) }, none⟩
    | none => ⟨b, { w with phase := .openLegacy attempt }, none⟩
  | .openLegacy attempt =>
    match b.legacy with
    | .absent => ⟨b, { w with phase := .opened attempt ⟨none, 0⟩ }, none⟩
    | .document seq => ⟨b, { w with phase := .opened attempt ⟨none, seq⟩ }, none⟩
    | .refusal => ⟨b, { w with phase := .idle }, none⟩
  -- `verify_not_deposed`
  | .opened attempt doc =>
    if w.lease.any fun l => b.cell.read.any fun c => sameHold l c then
      ⟨b, { w with phase := .verified attempt doc }, none⟩
    else ⟨b, { w with phase := .idle }, none⟩
  | .renewRead attempt doc =>
    match w.lease.bind fun l => stillOurs l b.cell.read with
    | some c => ⟨b, { w with phase := .renewAgain attempt doc c }, none⟩
    | none => ⟨b, { w with lease := none, phase := .idle }, none⟩
  | .renewAgain attempt doc adopted =>
    let r := casWith b.cell (some adopted) (renewed adopted) fate
    ⟨{ b with cell := r.1 },
      { w with
        lease := some (if r.2 then (r.1.version, renewed adopted) else adopted)
        phase := .opened attempt doc }, none⟩
  | .verified attempt doc =>
    match w.lease with
    | none => ⟨b, { w with phase := .idle }, none⟩
    | some l =>
      let r := casWith b.pointer doc.expected ⟨doc.seq + 1, l.2.epoch⟩ fate
      ⟨{ b with pointer := r.1 },
        if r.2 then { w with phase := .idle } else w.commitAgain attempt, none⟩
  | .releasing current attempt =>
    let r := casWith b.cell (some current) (handedOff current) fate
    ⟨{ b with cell := r.1 },
      { w with phase := if r.2 then .idle else .rereading current attempt }, none⟩
  | .rereading current attempt =>
    match stillOurs current b.cell.read with
    | some c =>
      ⟨b, { w with phase := if attempt + 1 < releaseAttempts then .releasing c (attempt + 1)
        else .idle }, none⟩
    | none => ⟨b, { w with phase := .idle }, none⟩

def renew (fate : CasFate) (b : Workspace ι) (w : Writer ι) : Reply ι :=
  match w.phase, w.lease with
  | .opened attempt doc, some l =>
    let r := casWith b.cell (some l) (renewed l) fate
    if r.2 then ⟨{ b with cell := r.1 }, { w with lease := some (r.1.version, renewed l) }, none⟩
    -- an answer of 409 leaves the section as it was; one of 412 has the cell read again
    else if fate = .conflict ∧ b.cell.current (some l) = true then ⟨b, w, none⟩
    else ⟨{ b with cell := r.1 }, { w with phase := .renewRead attempt doc }, none⟩
  | _, _ => ⟨b, w, none⟩

end Writer

/-! ### The writers together -/

structure Leases (ι : Type) where
  workspace : Workspace ι
  writers : ι → Writer ι
  fences : List ℕ

inductive LeaseAction (ι : Type)
  /-- `claim_step` reads the cell; `count` if the observation is spaced. -/
  | claim (i : ι) (count : Bool)
  | next (i : ι) (fate : CasFate)
  | commit (i : ι)
  | renew (i : ι) (fate : CasFate)
  /-- The merge has nothing to install, or is made again on another load. -/
  | leave (i : ι) (again : Bool)
  | release (i : ι)
  | restart (i : ι)
  | poison

namespace Leases

variable {ι : Type} [DecidableEq ι]

def start (b : Workspace ι) (inc : ι → Incarnation) : Leases ι :=
  ⟨b, fun i => ⟨inc i, none, .idle⟩, []⟩

def setWriter (s : Leases ι) (i : ι) (w : Writer ι) : Leases ι :=
  { s with writers := Function.update s.writers i w }

def reply (s : Leases ι) (i : ι) (r : Reply ι) : Leases ι :=
  { s.setWriter i r.writer with workspace := r.workspace, fences := r.fence.toList ++ s.fences }

def step (s : Leases ι) : LeaseAction ι → Leases ι
  | .claim i count =>
    match (s.writers i).phase with
    | .idle => s.setWriter i { s.writers i with phase := .observed s.workspace.cell.read count }
    | _ => s
  | .next i fate => s.reply i ((s.writers i).next i fate s.workspace)
  | .commit i =>
    match (s.writers i).phase, (s.writers i).lease with
    | .idle, some _ => s.setWriter i { s.writers i with phase := .opening 1 }
    | _, _ => s
  | .renew i fate => s.reply i ((s.writers i).renew fate s.workspace)
  | .leave i again =>
    match (s.writers i).phase with
    | .verified attempt _ =>
      s.setWriter i { s.writers i with phase := if again then .opening attempt else .idle }
    | _ => s
  | .release i =>
    match (s.writers i).phase, (s.writers i).lease with
    | .idle, some l => s.setWriter i { s.writers i with lease := none, phase := .releasing l 0 }
    | _, _ => s
  | .restart i => s.setWriter i { s.writers i with lease := none, phase := .idle }
  | .poison =>
    match s.workspace.pointer.value, s.workspace.legacy with
    | some _, .document _ => { s with workspace := { s.workspace with legacy := .refusal } }
    | _, _ => s

end Leases

end Flint.Syncer
