import Flint.Syncer.Edit

/-!
# The chunk reaper

A publish stores the chunks of its document that the pointer it read does not name, and then writes
the pointer on the condition that it has not moved. A chunk is named by its contents, and written
again it is young.

The reaper reads the pointer, lists the chunks, reads the pointer again and gives up if it moved,
and reads its clock. A listed chunk that the pointer does not name and no young retire log spares is
dated by a HEAD, and deleted if it is at least the grace old.

Publishes and reapers are interleaved request by request. No live chunk is lost in the runs in which
nothing comes between a HEAD and its DELETE (`Reaping.Undisturbed`).
-/

namespace Flint.Syncer

def Pointer.refs (p : Pointer) : List Str := p.chunks.map ChunkRef.addr ++ p.tombstones.toList

def namedBy (read : Option (ℕ × Pointer)) : List Str := (read.map fun l => l.2.refs).getD []

def prevChunks (read : Option (ℕ × Pointer)) : List Str :=
  (read.map fun l => l.2.chunks.map ChunkRef.addr).getD []

def toPut (read : Option (ℕ × Pointer)) (next : Pointer) : List Str :=
  ((next.chunks.map ChunkRef.addr).filter fun a => !(prevChunks read).contains a) ++
    next.tombstones.toList

structure Bucket where
  time : ℕ
  chunks : SortedMap Str ℕ
  pointer : Register Pointer

variable (b : Bucket)

def Bucket.live : List Str := namedBy b.pointer.read

inductive PublishPhase
  | idle
  | loaded (read : Option (ℕ × Pointer))
  | sending (read : Option (ℕ × Pointer)) (next : Pointer) (puts : List Str) (began : Option ℕ)

inductive ReapPhase
  | idle
  | read (before : ℕ × Pointer) (spared : List Str)
  | listed (before : ℕ × Pointer) (spared : List Str) (objects : List (Str × ℕ))
  | fenced (before : ℕ × Pointer) (spared : List Str) (objects : List (Str × ℕ))
  | sweeping (before : ℕ × Pointer) (spared : List Str) (now : ℕ) (objects : List (Str × ℕ))
  | deleting (before : ℕ × Pointer) (spared : List Str) (now : ℕ) (addr : Str)
      (objects : List (Str × ℕ))

structure Reaping (ι κ : Type) where
  bucket : Bucket
  publishers : ι → PublishPhase
  reapers : κ → ReapPhase

inductive ReapAction (ι κ : Type)
  | tick
  | load (i : ι)
  | plan (i : ι) (next : Pointer)
  | put (i : ι)
  | cas (i : ι)
  | read (k : κ) (spared : List Str)
  | list (k : κ)
  | reread (k : κ)
  | clock (k : κ)
  | head (k : κ)
  | delete (k : κ)

namespace Bucket

def store (addr : Str) : Bucket := { b with chunks := b.chunks.insert addr b.time }

def install (p : Pointer) : Bucket := { b with pointer := b.pointer.put p }

def remove (addr : Str) : Bucket := { b with chunks := b.chunks.erase addr }

def tick : Bucket := { b with time := b.time + 1 }

end Bucket

def ReapPhase.start (spared : List Str) : ReapPhase :=
  match b.pointer.read with
  | some before => .read before spared
  | none => .idle

def ReapPhase.fence (before : ℕ × Pointer) (spared : List Str)
    (objects : List (Str × ℕ)) : ReapPhase :=
  if b.pointer.current (some before) then .fenced before spared objects else .idle

def ReapPhase.judge (grace : ℕ) (b : Bucket) (before : ℕ × Pointer) (spared : List Str) (now : ℕ) :
    List (Str × ℕ) → ReapPhase
  | [] => .idle
  | o :: rest =>
    if before.2.refs.contains o.1 || spared.contains o.1 || decide (now - o.2 < grace) then
      .sweeping before spared now rest
    else
      match b.chunks.get? o.1 with
      | none => .sweeping before spared now rest
      | some written =>
        if grace ≤ now - written then .deleting before spared now o.1 rest
        else .sweeping before spared now rest

namespace Reaping

variable {ι κ : Type} [DecidableEq ι] [DecidableEq κ] (grace : ℕ)

def start (bucket : Bucket) : Reaping ι κ := ⟨bucket, fun _ => .idle, fun _ => .idle⟩

def setPublisher (s : Reaping ι κ) (i : ι) (p : PublishPhase) : Reaping ι κ :=
  { s with publishers := Function.update s.publishers i p }

def setReaper (s : Reaping ι κ) (k : κ) (p : ReapPhase) : Reaping ι κ :=
  { s with reapers := Function.update s.reapers k p }

def step (s : Reaping ι κ) : ReapAction ι κ → Reaping ι κ
  | .tick => { s with bucket := s.bucket.tick }
  | .load i =>
    match s.publishers i with
    | .idle => s.setPublisher i (.loaded s.bucket.pointer.read)
    | _ => s
  | .plan i next =>
    match s.publishers i with
    | .loaded read => s.setPublisher i (.sending read next (toPut read next) none)
    | _ => s
  | .put i =>
    match s.publishers i with
    | .sending read next (addr :: puts) began =>
      { s with bucket := s.bucket.store addr }.setPublisher i
        (.sending read next puts (some (began.getD s.bucket.time)))
    | _ => s
  | .cas i =>
    match s.publishers i with
    | .sending read next [] _ =>
      if s.bucket.pointer.current read then
        { s with bucket := s.bucket.install next }.setPublisher i .idle
      else s.setPublisher i .idle
    | _ => s
  | .read k spared =>
    match s.reapers k with
    | .idle => s.setReaper k (.start s.bucket spared)
    | _ => s
  | .list k =>
    match s.reapers k with
    | .read before spared => s.setReaper k (.listed before spared s.bucket.chunks.rows)
    | _ => s
  | .reread k =>
    match s.reapers k with
    | .listed before spared objects => s.setReaper k (.fence s.bucket before spared objects)
    | _ => s
  | .clock k =>
    match s.reapers k with
    | .fenced before spared objects => s.setReaper k (.sweeping before spared s.bucket.time objects)
    | _ => s
  | .head k =>
    match s.reapers k with
    | .sweeping before spared now objects =>
      s.setReaper k (.judge grace s.bucket before spared now objects)
    | _ => s
  | .delete k =>
    match s.reapers k with
    | .deleting before spared now addr objects =>
      { s with bucket := s.bucket.remove addr }.setReaper k (.sweeping before spared now objects)
    | _ => s

end Reaping

/-! ### The conditions of a run -/

def PublishPhase.began : PublishPhase → Option ℕ
  | .sending _ _ _ began => began
  | _ => none

def PublishPhase.nextPut : PublishPhase → Option Str
  | .sending _ _ puts _ => puts.head?
  | _ => none

/-- The publish takes the chunk for stored: it has stored it, or it read a pointer that names it. -/
def PublishPhase.relies (addr : Str) : PublishPhase → Prop
  | .idle => False
  | .loaded read => addr ∈ namedBy read
  | .sending _ next puts _ => addr ∈ next.refs ∧ addr ∉ puts

def PublishPhase.canInstall (grace : ℕ) (b : Bucket) : PublishPhase → Prop
  | .idle => False
  | .loaded read => b.pointer.current read
  | .sending read _ _ began => b.pointer.current read ∧ ∀ t ∈ began, b.time < t + grace

def ReapPhase.dooms : ReapPhase → Option Str
  | .deleting _ _ _ addr _ => some addr
  | _ => none

def ReapPhase.fencedAt : ReapPhase → Option (ℕ × Pointer)
  | .fenced before _ _ => some before
  | _ => none

namespace Reaping

variable {ι κ : Type}

def Timely (grace : ℕ) (s : Reaping ι κ) : ReapAction ι κ → Prop
  | .cas i => ∀ t ∈ (s.publishers i).began, s.bucket.time < t + grace
  | _ => True

/-- No chunk is stored that a reaper has dated and not deleted yet, and the pointer does not move
between its second read and the reading of the clock. -/
def Undisturbed (s : Reaping ι κ) : ReapAction ι κ → Prop
  | .put i => ∀ addr ∈ (s.publishers i).nextPut, ∀ k, (s.reapers k).dooms ≠ some addr
  | .clock k => ∀ before ∈ (s.reapers k).fencedAt, s.bucket.pointer.current (some before)
  | _ => True

def Meets (grace : ℕ) (s : Reaping ι κ) (a : ReapAction ι κ) : Prop :=
  s.Timely grace a ∧ s.Undisturbed a

end Reaping

end Flint.Syncer
