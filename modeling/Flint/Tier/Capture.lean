import Mathlib.Algebra.Group.Nat.Defs
import Flint.Basic.Dict
import Flint.Basic.Str

/-!
# Dirty capture

Every operation that changes the content of a file adds the change to what is captured of the file
since its last flush (`FileCapture`), and queues a mark for the file, unless the durable bit of the
file is known to be set (`queueMark`). The captured changes and the queue are in memory. The dirty
rows are what a restart finds, and every file that has one is captured as changed as a whole
(`restored`).
-/

namespace Flint.Tier

open Function List Dict

abbrev Ident := ℕ × ℕ

abbrev Path := List Str

/-! ### What is captured of a file -/

inductive Mutation
  | write (offset len : ℕ)
  | zero (offset len : ℕ)
  | truncate (newSize : ℕ)
  | whole

def Mutation.isEmpty : Mutation → Bool
  | .write _ len | .zero _ len => len == 0
  | .truncate _ | .whole => false

def maxIntervals : ℕ := 256

structure FileCapture where
  intervals : List (ℕ × ℕ)
  minSize : Option ℕ
  whole : Bool

/-- The loop of `add_range`: the merged range, the ranges that stay, and the place of the first. -/
structure Merging where
  lo : ℕ
  hi : ℕ
  kept : List (ℕ × ℕ)
  first : Option ℕ

def mergeFrom (s e : ℕ) : List (ℕ × ℕ) → Merging → Merging
  | [], m => m
  | (rs, re) :: l, m =>
    if re < s then mergeFrom s e l { m with kept := m.kept ++ [(rs, re)] }
    else if e < rs then { m with kept := m.kept ++ (rs, re) :: l }
    else mergeFrom s e l
      { m with lo := min m.lo rs, hi := max m.hi re, first := m.first.or (some m.kept.length) }

/-- Where the merged range goes: to the first range that it took in, or before the first at or after
it. -/
def Merging.place (m : Merging) : ℕ := m.first.getD (m.kept.takeWhile fun r => r.1 < m.lo).length

def saturatingAdd (a b : ℕ) : ℕ := min (a + b) (2 ^ 64 - 1)

namespace FileCapture

def empty : FileCapture := ⟨[], none, false⟩

variable (c : FileCapture)

def isDirty : Bool := c.whole || c.minSize.isSome || !c.intervals.isEmpty

def noteWhole : FileCapture :=
  if c.whole then c else { c with whole := true, intervals := [] }

def addRange (s e : ℕ) : FileCapture :=
  let m := mergeFrom s e c.intervals ⟨s, e, [], none⟩
  let c := { c with intervals := m.kept.insertIdx m.place (m.lo, m.hi) }
  if maxIntervals < c.intervals.length then c.noteWhole else c

def lowerTo (newSize : ℕ) : FileCapture :=
  { c with minSize := some (c.minSize.elim newSize fun s => min s newSize) }

def note (m : Mutation) : FileCapture :=
  if c.whole then
    match m with
    | .truncate newSize => c.lowerTo newSize
    | _ => c
  else
    match m with
    | .write offset len | .zero offset len =>
      if len = 0 then c else c.addRange offset (saturatingAdd offset len)
    | .truncate newSize =>
      let c := c.lowerTo newSize
      -- what is beyond the end is gone
      { c with
        intervals := (c.intervals.filter fun r => r.1 < newSize).map fun r =>
          (r.1, min r.2 newSize) }
    | .whole => c.noteWhole

def absorbRange (r : ℕ × ℕ) : FileCapture :=
  let cut := c.minSize.getD (2 ^ 64 - 1)
  let s := min r.1 cut
  let e := min r.2 cut
  if s < e then c.addRange s e else c

def absorb (c other : FileCapture) : FileCapture :=
  let c := other.minSize.elim c fun size => c.note (.truncate size)
  if other.whole then c.note .whole else other.intervals.foldl absorbRange c

def mergeBack (newer epoch : FileCapture) : FileCapture :=
  if epoch.isDirty then epoch.absorb newer else newer

end FileCapture

/-! ### Captures stay dirty -/

section Dirty

variable {c : FileCapture}

theorem length_mergeFrom_place {s e : ℕ} {l : List (ℕ × ℕ)} {m : Merging}
    (h : ∀ i ∈ m.first, i ≤ m.kept.length) :
    ∀ i ∈ (mergeFrom s e l m).first, i ≤ (mergeFrom s e l m).kept.length := by
  induction l generalizing m with
  | nil => exact h
  | cons r l ih =>
    rw [mergeFrom]
    split
    · refine ih fun i hi => (h i hi).trans ?_
      simp
    · split
      · refine fun i hi => (h i hi).trans ?_
        simp
      · refine ih fun i hi => ?_
        cases hfst : m.first with
        | none =>
          rw [hfst] at hi
          exact (Option.mem_some_iff.mp hi).ge
        | some j =>
          rw [hfst] at hi
          exact h i (hfst ▸ hi)

theorem Merging.place_le {m : Merging} (h : ∀ i ∈ m.first, i ≤ m.kept.length) :
    m.place ≤ m.kept.length := by
  rw [place]
  cases hfst : m.first with
  | none => exact (takeWhile_sublist _).length_le
  | some i => exact h i hfst

theorem FileCapture.isDirty_noteWhole : c.noteWhole.isDirty := by
  rw [noteWhole]
  split
  · next h => simp [isDirty, h]
  · simp [isDirty]

theorem FileCapture.isDirty_addRange (s e : ℕ) : (c.addRange s e).isDirty := by
  rw [addRange]
  dsimp only
  split
  · exact isDirty_noteWhole
  · have hplc := Merging.place_le (m := mergeFrom s e c.intervals ⟨s, e, [], none⟩)
      (length_mergeFrom_place nofun)
    have hne : (mergeFrom s e c.intervals ⟨s, e, [], none⟩).kept.insertIdx
        (mergeFrom s e c.intervals ⟨s, e, [], none⟩).place
        ((mergeFrom s e c.intervals ⟨s, e, [], none⟩).lo,
          (mergeFrom s e c.intervals ⟨s, e, [], none⟩).hi) ≠ [] := by
      refine ne_nil_of_length_pos ?_
      rw [length_insertIdx_of_le_length hplc]
      exact Nat.succ_pos _
    simp [isDirty, hne]

theorem FileCapture.isDirty_lowerTo (size : ℕ) : (c.lowerTo size).isDirty := by
  simp [isDirty, lowerTo]

theorem FileCapture.isDirty_note {m : Mutation} (h : c.isDirty ∨ m.isEmpty = false) :
    (c.note m).isDirty := by
  rw [note.eq_def]
  split
  · next hwh =>
    cases m with
    | truncate size => exact isDirty_lowerTo size
    | write offset len | zero offset len | whole => simp [isDirty, hwh]
  · have hrng : ∀ {offset len : ℕ}, c.isDirty ∨ (len == 0) = false →
        (if len = 0 then c else c.addRange offset (saturatingAdd offset len)).isDirty := by
      intro offset len hlen
      split
      · next hz => exact hlen.resolve_right (by simp [hz])
      · exact isDirty_addRange _ _
    cases m with
    | write offset len | zero offset len => exact hrng h
    | truncate size => simp [isDirty, lowerTo]
    | whole => exact isDirty_noteWhole

theorem FileCapture.isDirty_absorb (h : c.isDirty) (other : FileCapture) :
    (c.absorb other).isDirty := by
  rw [absorb]
  have hcut : (other.minSize.elim c fun size => c.note (.truncate size)).isDirty := by
    cases other.minSize with
    | none => exact h
    | some size => exact isDirty_note (m := .truncate size) (.inl h)
  split
  · exact isDirty_note (.inl hcut)
  · -- each range is added, or leaves the capture as it is
    refine foldlRecOn (motive := fun c => c.isDirty) other.intervals absorbRange hcut
      fun c hc r _ => ?_
    rw [absorbRange]
    split
    · exact isDirty_addRange _ _
    · exact hc

theorem FileCapture.isDirty_mergeBack {newer epoch : FileCapture}
    (h : newer.isDirty ∨ epoch.isDirty) :
    (newer.mergeBack epoch).isDirty := by
  rw [mergeBack]
  split
  · next hep => exact isDirty_absorb hep newer
  · next hep => exact h.resolve_right hep

end Dirty

/-! ### Marks -/

structure Queued where
  path : Option Path
  seq : ℕ

structure PendingMark where
  ident : Ident
  path : Option Path
  seq : ℕ

structure Tables where
  captured : Ident → FileCapture
  queued : Dict Ident Queued
  durable : Ident → Bool
  hasPending : Bool
  markSeq : ℕ

namespace Tables

def start : Tables := ⟨fun _ => .empty, .empty, fun _ => false, false, 1⟩

def queueMark (t : Tables) (i : Ident) (path : Option Path) : Tables :=
  if t.durable i then t
  else
    let known := (t.queued.get? i).bind Queued.path
    { t with
      queued := t.queued.insert i ⟨known.or path, t.markSeq⟩
      hasPending := true
      markSeq := t.markSeq + 1 }

def noteAt (t : Tables) (i : Ident) (path : Option Path) (m : Mutation) : Tables :=
  { t with captured := update t.captured i ((t.captured i).note m) }.queueMark i path

def isQueued (t : Tables) (i : Ident) : Bool := (t.queued.get? i).isSome

def waiting (t : Tables) : List PendingMark := t.queued.toList.map fun q => ⟨q.1, q.2.path, q.2.seq⟩

def takePending (t : Tables) : Tables := { t with queued := .empty, hasPending := false }

def confirmDurable (t : Tables) (marks : List PendingMark) : Tables :=
  { t with durable := fun i => t.durable i || marks.any fun m => m.ident == i }

def requeue (t : Tables) (marks : List PendingMark) : Tables :=
  marks.foldl (fun t m => t.queueMark m.ident m.path) t

def primeDurable (t : Tables) (i : Ident) : Tables :=
  { t with durable := update t.durable i true }

def clearDurable (t : Tables) (i : Ident) : Tables :=
  { t with durable := update t.durable i false }

def takeEpoch (t : Tables) (i : Ident) : Tables :=
  { t with captured := update t.captured i .empty }

def mergeBack (t : Tables) (i : Ident) (epoch : FileCapture) : Tables :=
  { t with captured := update t.captured i ((t.captured i).mergeBack epoch) }

/-! ### What a mark does -/

variable {t : Tables} {i j : Ident} {path : Option Path} {marks : List PendingMark}

def FlagTrue (t : Tables) : Prop := t.hasPending = false → ∀ i, t.isQueued i = false

/-- `t'` has besides the marks of `t` only new ones of files in `new`, with the `n` next numbers. -/
structure Queues (t t' : Tables) (new : Ident → Prop) (n : ℕ) : Prop where
  captured : ∀ j, t'.captured j = t.captured j
  durable : ∀ j, t'.durable j = t.durable j
  flag : t.FlagTrue → t'.FlagTrue
  isQueued : ∀ j, t'.isQueued j ↔ t.isQueued j ∨ new j ∧ t.durable j = false
  seq : ∀ j q, t'.queued.get? j = some q → t.queued.get? j = some q ∨
    new j ∧ t.durable j = false ∧ t.markSeq ≤ q.seq ∧ q.seq < t.markSeq + n
  markSeq : t.markSeq ≤ t'.markSeq ∧ t'.markSeq ≤ t.markSeq + n

theorem queues_queueMark (t : Tables) (i : Ident) (path : Option Path) :
    t.Queues (t.queueMark i path) (· = i) 1 := by
  rw [queueMark]
  split
  · constructor <;> grind
  · constructor <;> grind [FlagTrue, Tables.isQueued, get?_insert]

theorem queues_noteAt (t : Tables) (i : Ident) (path : Option Path) (m : Mutation) :
    { t with captured := update t.captured i ((t.captured i).note m) }.Queues
      (t.noteAt i path m) (· = i) 1 :=
  queues_queueMark _ i path

theorem queues_requeue (t : Tables) (marks : List PendingMark) :
    t.Queues (t.requeue marks) (fun j => ∃ m ∈ marks, m.ident = j) marks.length := by
  induction marks generalizing t with
  | nil => constructor <;> simp [requeue]
  | cons m marks ih =>
    have hmark := t.queues_queueMark m.ident m.path
    have hrs := ih (t.queueMark m.ident m.path)
    rw [show t.requeue (m :: marks) = (t.queueMark m.ident m.path).requeue marks from rfl]
    cases hmark
    cases hrs
    constructor <;> grind

theorem mem_waiting {m : PendingMark} :
    m ∈ t.waiting ↔ t.queued.get? m.ident = some ⟨m.path, m.seq⟩ := by
  rw [waiting, mem_map]
  constructor
  · rintro ⟨⟨i, q⟩, hq, rfl⟩
    exact mem_toList.mp hq
  · intro h
    exact ⟨(m.ident, ⟨m.path, m.seq⟩), mem_toList.mpr h, rfl⟩

theorem isQueued_iff_waiting : t.isQueued i ↔ ∃ m ∈ t.waiting, m.ident = i := by
  constructor
  · intro h
    obtain ⟨q, hq⟩ := Option.isSome_iff_exists.mp h
    exact ⟨⟨i, q.path, q.seq⟩, mem_waiting.mpr hq, rfl⟩
  · rintro ⟨m, hm, rfl⟩
    rw [isQueued, mem_waiting.mp hm]
    rfl

end Tables

/-! ### Dirty rows -/

structure DirtyRow where
  path : Option Path
  seq : ℕ

abbrev Dirty := Ident → Option DirtyRow

def markRow (rows : Dirty) (m : PendingMark) : Dirty :=
  update rows m.ident (some ⟨m.path.or ((rows m.ident).bind DirtyRow.path), m.seq⟩)

def markDirty (rows : Dirty) (marks : List PendingMark) : Dirty := marks.foldl markRow rows

def clearDirtyIfSeq (rows : Dirty) (i : Ident) (seq : ℕ) : Bool × Dirty :=
  if (rows i).any fun r => r.seq == seq then (true, update rows i none) else (false, rows)

section Rows

variable {rows : Dirty} {i : Ident}

theorem markDirty_cons (m : PendingMark) (marks : List PendingMark) :
    markDirty rows (m :: marks) = markDirty (markRow rows m) marks := rfl

theorem markDirty_cases (rows : Dirty) (marks : List PendingMark) (i : Ident) :
    (∀ m ∈ marks, m.ident ≠ i) ∧ markDirty rows marks i = rows i ∨
      ∃ m ∈ marks, m.ident = i ∧ ∃ row, markDirty rows marks i = some row ∧ row.seq = m.seq := by
  induction marks generalizing rows with
  | nil => exact .inl ⟨nofun, rfl⟩
  | cons m marks ih =>
    rw [markDirty_cons]
    rcases ih (markRow rows m) with ⟨hno, heq⟩ | ⟨m', hm', hid, hrow⟩
    · by_cases hm : m.ident = i
      · refine .inr ⟨m, .head _, hm, ?_⟩
        rw [heq, markRow, hm, update_self]
        exact ⟨_, rfl, rfl⟩
      · refine .inl ⟨fun m' hm' => ?_, ?_⟩
        · rcases mem_cons.mp hm' with rfl | hm'
          · exact hm
          · exact hno m' hm'
        · rw [heq, markRow, update_of_ne (Ne.symm hm)]
    · exact .inr ⟨m', .tail _ hm', hid, hrow⟩

end Rows

/-- The tables after `restore_from_backend`: every file with a row is changed as a whole, and its
bit is known. -/
def restored (rows : Dirty) : Tables :=
  { Tables.start with
    captured := fun i => if (rows i).isSome then FileCapture.empty.note .whole else .empty
    durable := fun i => (rows i).isSome }

end Flint.Tier
