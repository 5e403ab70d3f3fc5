import Flint.Basic.Register
import Flint.Basic.Outcome
import Flint.Syncer.Chunk

/-!
# Edits by one conditional write

A party that holds no lease loads the published document, lets a closure change a copy, and writes
the pointer on the condition that it still is the one it read. When the condition failed, the
attempt is made again, at most `editCasAttempts` times.

`commit_edit_from` edits the whole document and `commit_edit_paths` an overlay on a document that is
stored in chunks. The answer of a write can get lost and the store client then sends it again, so
each loop remembers what it sent, and an attempt that finds this very document published ends as
committed.
-/

namespace Flint.Syncer

structure Pointer where
  seq : ℕ
  chunks : List ChunkRef
  soleWriter : Bool
  boundarySource : Option Str
  epoch : ℕ
  tombstones : Option Str
deriving DecidableEq

structure Published where
  doc : LeanManifest
  epoch : ℕ
  chunked : Bool

abbrev Loaded := Option (ℕ × Published)

structure EditCfg where
  format : Format
  sizing : Sizing
  encodeTombstones : SortedMap Str Tombstone → Str
  chunked : Bool
  chunkView : Bool

def editCasAttempts : ℕ := 16

inductive EditError (ε : Type)
  | refused (e : ε)
  | contended
  /-- Any error of the store but a failed condition, at a load, a PUT or the CAS. -/
  | store

/-! ### The edited document -/

structure EditEntries where
  base : EntryMap
  overlay : SortedMap Str (Option LeanEntry)

structure DocEdit where
  seq : ℕ
  entries : EditEntries
  tombstones : SortedMap Str Tombstone

inductive Edit (ε : Type)
  | whole (edit : Loaded → LeanManifest → Except ε LeanManifest)
  | paths (edit : Loaded → DocEdit → Except ε DocEdit)

def retainTombstones (seq : ℕ) (tombstones : SortedMap Str Tombstone) : SortedMap Str Tombstone :=
  tombstones.retain fun _ t => decide (seq - t.seq ≤ tombstoneKeepSeqs)

/-- The copy that an edit is given: the next generation, with the fields of the party that installs
it reset. -/
def nextGeneration (current : Loaded) : LeanManifest :=
  let doc := (current.map fun l => l.2.doc).getD .default
  { doc with seq := doc.seq + 1, soleWriter := false, boundarySource := none }

section EditDoc

variable {ε : Type}

def editWhole (edit : Loaded → LeanManifest → Except ε LeanManifest) (current : Loaded) :
    Except ε LeanManifest := do
  let doc ← edit current (nextGeneration current)
  return { doc with tombstones := retainTombstones doc.seq doc.tombstones }

def overlayEdit (edit : Loaded → DocEdit → Except ε DocEdit) (current : Loaded)
    (doc : LeanManifest) : Except ε LeanManifest := do
  let de ← edit current ⟨doc.seq, ⟨doc.entries, .empty⟩, doc.tombstones⟩
  return { doc with entries := doc.entries.patch de.entries.overlay, tombstones := de.tombstones }

def editPaths (edit : Loaded → DocEdit → Except ε DocEdit) (current : ℕ × Published) :
    Except ε LeanManifest := do
  let base := current.2.doc
  let de ← edit (some current) ⟨base.seq + 1, ⟨base.entries, .empty⟩, base.tombstones⟩
  return ⟨de.seq, base.entries.patch de.entries.overlay, false, none,
    retainTombstones de.seq de.tombstones⟩

end EditDoc

def sameDocument (a b : LeanManifest) : Bool :=
  decide (a.seq = b.seq) && decide (a.entries.rows = b.entries.rows) &&
    decide (a.tombstones.rows = b.tombstones.rows) && decide (a.soleWriter = b.soleWriter) &&
    decide (a.boundarySource = b.boundarySource)

/-- The pointer to a chunked document, whose list is that of `rechunkWith_eq_splitWith`. -/
def EditCfg.pointer (C : EditCfg) (doc : LeanManifest) (epoch : ℕ) : Pointer where
  seq := doc.seq
  chunks := (splitWith C.format C.sizing doc.entries).map Prod.fst
  soleWriter := doc.soleWriter
  boundarySource := doc.boundarySource
  epoch := epoch
  tombstones :=
    if doc.tombstones.rows.isEmpty then none else some (C.encodeTombstones doc.tombstones)

/-! ### One editor -/

inductive EditPhase (ε : Type)
  | load
  | put (doc : LeanManifest) (current : Loaded)
  | cas (doc : LeanManifest) (current : Loaded)
  | ended (result : Except (EditError ε) Unit)

structure Editor (ε : Type) where
  edit : Edit ε
  attempts : ℕ
  /-- What the last attempt sent, when its answer was that the condition failed. -/
  sent : Option LeanManifest
  phase : EditPhase ε

namespace Editor

variable {ε : Type} (C : EditCfg)

def start (edit : Edit ε) : Editor ε := ⟨edit, editCasAttempts, none, .load⟩

variable (e : Editor ε)

def decided (current : Loaded) : Except ε LeanManifest → Editor ε
  | .ok doc => { e with phase := .put doc current }
  | .error r => { e with phase := .ended (.error (.refused r)) }

def wroteDocument (current : Loaded) : Bool :=
  e.sent.any fun s => current.any fun l => sameDocument s l.2.doc

def wrotePointer (current : ℕ × Published) : Bool :=
  e.sent.any fun s => C.pointer s 0 = C.pointer current.2.doc current.2.epoch

def attemptWhole (edit : Loaded → LeanManifest → Except ε LeanManifest)
    (current : Loaded) : Editor ε :=
  if e.wroteDocument current then { e with phase := .ended (.ok ()) }
  else e.decided current (editWhole edit current)

def attemptPaths (edit : Loaded → DocEdit → Except ε DocEdit)
    (current : ℕ × Published) : Editor ε :=
  if e.wrotePointer C current then { e with phase := .ended (.ok ()) }
  else e.decided (some current) (editPaths edit current)

def viewed (current : Loaded) : Loaded :=
  current.filter fun l => l.2.chunked && C.chunked && C.chunkView

def attempt (current : Loaded) : Editor ε :=
  match e.edit with
  | .whole edit => e.attemptWhole edit current
  | .paths edit =>
    match viewed C current with
    | some l => e.attemptPaths C edit l
    -- `commit_edit_from` is called with the closure and the document: a loop of its own
    | none => (start (.whole (overlayEdit edit))).attemptWhole (overlayEdit edit) current

def lost (doc : LeanManifest) : Editor ε :=
  { e with
    sent := some doc
    attempts := e.attempts - 1
    phase := if e.attempts ≤ 1 then .ended (.error .contended) else .load }

def failed : Editor ε := { e with phase := .ended (.error .store) }

def result : Option (Except (EditError ε) Unit) :=
  match e.phase with
  | .ended r => some r
  | _ => none

end Editor

/-! ### The editors together -/

structure Install (ι : Type) where
  editor : ι
  before : Loaded
  doc : LeanManifest

structure Edits (ι ε : Type) where
  live : Register Published
  editors : ι → Editor ε
  installed : List (Install ι)

inductive CasFate
  | done | lostAnswer
  /-- It has no effect (409). -/
  | conflict
deriving DecidableEq

inductive EditAction (ι : Type)
  | load (i : ι) (ok : Bool)
  | put (i : ι) (ok : Bool)
  | cas (i : ι) (fate : CasFate)
  /-- The CAS is answered with another error, behind which it may have landed. -/
  | casFailed (i : ι) (landed : Bool)

namespace Edits

variable {ι ε : Type} [DecidableEq ι] (C : EditCfg)

def start (live : Option Published) (edits : ι → Edit ε) : Edits ι ε :=
  ⟨.new live, fun i => Editor.start (edits i), []⟩

variable (s : Edits ι ε)

def setEditor (i : ι) (e : Editor ε) : Edits ι ε :=
  { s with editors := Function.update s.editors i e }

@[simp] theorem editors_setEditor_self (i : ι) (e : Editor ε) :
    (s.setEditor i e).editors i = e := by simp [setEditor]

theorem editors_setEditor_of_ne {i j : ι} (h : j ≠ i) (e : Editor ε) :
    (s.setEditor i e).editors j = s.editors j := by simp [setEditor, h]

def install (i : ι) (doc : LeanManifest) : Edits ι ε :=
  { s with
    live := s.live.put ⟨doc, 0, C.chunked⟩
    installed := ⟨i, s.live.read, doc⟩ :: s.installed }

def cas (i : ι) (doc : LeanManifest) (current : Loaded) (fate : CasFate) : Edits ι ε :=
  let e := s.editors i
  if s.live.current current then
    match fate with
    | .done => (s.install C i doc).setEditor i { e with phase := .ended (.ok ()) }
    | .lostAnswer => (s.install C i doc).setEditor i (e.lost doc)
    | .conflict => s.setEditor i (e.lost doc)
  else s.setEditor i (e.lost doc)

def casFailed (i : ι) (doc : LeanManifest) (current : Loaded) (landed : Bool) : Edits ι ε :=
  (if landed && s.live.current current then s.install C i doc else s).setEditor i
    (s.editors i).failed

def step : EditAction ι → Edits ι ε
  | .load i ok =>
    match (s.editors i).phase with
    | .load =>
      s.setEditor i (if ok then (s.editors i).attempt C s.live.read else (s.editors i).failed)
    | _ => s
  | .put i ok =>
    match (s.editors i).phase with
    | .put doc current =>
      s.setEditor i (if ok then { s.editors i with phase := .cas doc current }
        else (s.editors i).failed)
    | _ => s
  | .cas i fate =>
    match (s.editors i).phase with
    | .cas doc current => s.cas C i doc current fate
    | _ => s
  | .casFailed i landed =>
    match (s.editors i).phase with
    | .cas doc current => s.casFailed C i doc current landed
    | _ => s

def installs (i : ι) : ℕ := (s.installed.filter fun g => g.editor = i).length

def Unanswered (i : ι) : Prop := 0 < s.installs i ∧ (s.editors i).result = none

instance (i : ι) : Decidable (s.Unanswered i) := inferInstanceAs (Decidable (_ ∧ _))

def takesEffect (i : ι) (lands : Bool) : Bool :=
  match (s.editors i).phase with
  | .cas _ current => s.live.current current && lands
  | _ => false

/-- No write takes effect while another editor waits to learn that its own did. One that takes
effect is answered, or said to have failed its condition; it is then not the last that its editor
may make, and the load behind it does not fail. -/
def Undisturbed : EditAction ι → Prop
  | .load i ok => s.Unanswered i → ok
  | .put _ _ => True
  | .cas i fate => s.takesEffect i (fate ≠ .conflict) →
      (∀ j, j ≠ i → ¬s.Unanswered j) ∧ (fate = .lostAnswer → 1 < (s.editors i).attempts)
  | .casFailed i landed => s.takesEffect i landed = false

end Edits

end Flint.Syncer
