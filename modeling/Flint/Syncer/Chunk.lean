import Mathlib.Algebra.GroupWithZero.Nat
import Flint.Syncer.Merge

/-!
# Chunks of a document

The sorted stream of the entries of a document is cut into runs, and each run is one object, named
by the hash of its bytes. Where a chunk ends depends on its length and on the hash of its last path
only, so a change moves few chunks.

`rechunkWith` makes the chunk list of a changed document from the old one: it reads the chunks that
the changes fall in and goes on from there until the new cuts meet an old one. A loop has a bound
here, the number of items it can still take, and answers `stuck` when it runs out of it.
-/

namespace Flint.Syncer

abbrev Bytes := List UInt8

abbrev EntryMap := SortedMap Str LeanEntry

/-- The hash that decides the cuts, the encoder, and the hash that names a chunk. -/
structure Format where
  crc64Nvme : Str → ℕ
  encode : EntryMap → Bytes
  chunkAddress : Bytes → Str

structure Sizing where
  target : ℕ
  min : ℕ
  max : ℕ

structure ChunkRef where
  addr : Str
  first : Str
  n : ℕ
deriving DecidableEq

section Split

variable (F : Format) (z : Sizing)

def cutsAfterWith (key : Str) : Bool := F.crc64Nvme key % z.target == 0

def endsChunk (run : ℕ) (key : Str) : Bool :=
  decide (z.min ≤ run) && cutsAfterWith F z key || decide (z.max ≤ run)

def rangesStep (s : List ℕ × ℕ) (key : Str × ℕ) : List ℕ × ℕ :=
  let run := s.2 + 1
  if endsChunk F z run key.1 then (s.1 ++ [key.2 + 1], 0) else (s.1, run)

def chunkRangesWith (keys : List Str) : List ℕ :=
  let s := keys.zipIdx.foldl (rangesStep F z) ([], 0)
  if 0 < s.2 then s.1 ++ [keys.length] else s.1

def slice (entries : EntryMap) (start stop : ℕ) : EntryMap :=
  ⟨(entries.rows.drop start).take (stop - start),
    entries.sorted.sublist ((List.take_sublist _ _).trans (List.drop_sublist _ _))⟩

def slicesFrom (entries : EntryMap) (start : ℕ) : List ℕ → List EntryMap
  | [] => []
  | stop :: cuts => slice entries start stop :: slicesFrom entries stop cuts

def slicesWith (entries : EntryMap) : List EntryMap :=
  slicesFrom entries 0 (chunkRangesWith F z entries.keys)

def firstKey (entries : EntryMap) : Str := (entries.keys.head?).getD default

def encodeChunk (first : Str) (entries : EntryMap) : ChunkRef × Bytes :=
  let bytes := F.encode entries
  (⟨F.chunkAddress bytes, first, entries.rows.length⟩, bytes)

def splitWith (entries : EntryMap) : List (ChunkRef × Bytes) :=
  (slicesWith F z entries).map fun slice => encodeChunk F (firstKey slice) slice

end Split

/-! ### Changing a chunked document -/

inductive RechunkError
  | notRead (i : ℕ)
  | stuck

inductive Step
  /-- A path with its entry; `oldLast` if it is the last of its old chunk. -/
  | key (path : Str) (entry : LeanEntry) (oldLast : Bool)
  /-- A path that goes, or was not there. -/
  | skip | done

/-- Where the stream stands: in old chunk `m`, with `cur` of its entries and `changes` to come. -/
structure Cursor where
  m : ℕ
  cur : List (Str × LeanEntry)
  changes : List (Str × Option LeanEntry)

section Rechunk

variable (old : List ChunkRef)

def home (p : Str) : ℕ := (old.takeWhile fun r => r.first ≤ p).length - 1

/-- The next change, if it is below the first path of the next old chunk. -/
def Cursor.change (s : Cursor) : Option (Str × Option LeanEntry) :=
  s.changes.head?.filter fun c => (old[s.m + 1]?).all fun r => c.1 < r.first

def changeStep (c : Str × Option LeanEntry) (oldLast : Bool) : Step :=
  match c.2 with
  | some e => .key c.1 e oldLast
  | none => .skip

def Cursor.next (s : Cursor) : Step × Cursor :=
  match s.cur, s.change old with
  | [], none => (.done, s)
  | (ok, oe) :: rest, some c =>
    if c.1 < ok then (changeStep c false, { s with changes := s.changes.tail })
    else if c.1 = ok then
      (changeStep c rest.isEmpty, { s with cur := rest, changes := s.changes.tail })
    else (.key ok oe rest.isEmpty, { s with cur := rest })
  | (ok, oe) :: rest, none => (.key ok oe rest.isEmpty, { s with cur := rest })
  | [], some c => (changeStep c false, { s with changes := s.changes.tail })

/-- The old chunking cut here too, and no change is left before the next old chunk. -/
def Cursor.synced (s : Cursor) (oldLast : Bool) : Bool :=
  oldLast && match s.changes.head?, old[s.m + 1]? with
    | none, _ => true
    | some c, some next => decide (next.first ≤ c.1)
    | some _, none => false

structure Region where
  out : List (ChunkRef × Option Bytes)
  i : ℕ
  changes : List (Str × Option LeanEntry)

variable (F : Format) (z : Sizing) (entriesOf : ℕ → Option EntryMap)

def freshChunk (first : Str) (run : EntryMap) : ChunkRef × Option Bytes :=
  ((encodeChunk F first run).1, some (encodeChunk F first run).2)

/-- The stream is cut anew, from a cut of both chunkings to the next one. The run since the last cut
is `run`. -/
def rechunkRegion : ℕ → Cursor → EntryMap → Option Str → List (ChunkRef × Option Bytes) →
    Except RechunkError Region
  | 0, _, _, _, _ => .error .stuck
  | fuel + 1, s, run, first, out =>
    if s.cur.isEmpty && (s.change old).isNone && decide (s.m + 1 < old.length) then
      match entriesOf (s.m + 1) with
      | none => .error (.notRead (s.m + 1))
      | some c => rechunkRegion fuel { s with m := s.m + 1, cur := c.rows } run first out
    else
      let (step, s) := s.next old
      match step with
      | .skip => rechunkRegion fuel s run first out
      | .done =>
        match first with
        -- the tail is a chunk even when it never met a cut
        | some f => .ok ⟨out ++ [freshChunk F f run], old.length, s.changes⟩
        | none => .ok ⟨out, old.length, s.changes⟩
      | .key path e oldLast =>
        let f := first.getD path
        let run := run.insert path e
        if endsChunk F z run.rows.length path then
          let out := out ++ [freshChunk F f run]
          if s.synced old oldLast then .ok ⟨out, s.m + 1, s.changes⟩
          else rechunkRegion fuel s .empty none out
        else rechunkRegion fuel s run (some f) out

def reused (refs : List ChunkRef) : List (ChunkRef × Option Bytes) := refs.map fun r => (r, none)

def regionFuel (changes : List (Str × Option LeanEntry)) : ℕ :=
  (old.map ChunkRef.n).sum + old.length + changes.length + 1

def rechunkLoop : ℕ → Region → Except RechunkError Region
  | 0, r => if r.changes.isEmpty then .ok r else .error .stuck
  | fuel + 1, r =>
    match r.changes with
    | [] => .ok r
    | c :: _ =>
      let start := Nat.max (home old c.1) r.i
      let out := r.out ++ reused ((old.take start).drop r.i)
      if start < old.length then
        match entriesOf start with
        | none => .error (.notRead start)
        | some chunk => do
          let r ← rechunkRegion old F z entriesOf (regionFuel old r.changes)
            ⟨start, chunk.rows, r.changes⟩ .empty none out
          rechunkLoop fuel r
      else do
        let r ← rechunkRegion old F z entriesOf (regionFuel old r.changes)
          ⟨start, [], r.changes⟩ .empty none out
        rechunkLoop fuel r

def rechunkWith (changes : SortedMap Str (Option LeanEntry)) :
    Except RechunkError (List (ChunkRef × Option Bytes)) := do
  let r ← rechunkLoop old F z entriesOf changes.rows.length ⟨[], 0, changes.rows⟩
  return r.out ++ reused (old.drop r.i)

end Rechunk

end Flint.Syncer
