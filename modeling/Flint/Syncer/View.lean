import Flint.Basic.Ensures
import Flint.Syncer.Chunk

/-!
# A commit over a view of the document

A commit can load the whole document, merge onto it and compare the two (`merge`, `pathClashes` and
`retiredFull`). Or it can open a view: the list of chunk references, and a chunk is read when a path
that falls in it is asked for (`DocView.mergeView`, `clashesView` and `DocView.retired`).

A view keeps what it has read (`parsed`), and a process keeps for each chunk the entries whose
handle does not name their path (`aliasCache`).
-/

namespace Flint.Syncer

def filesDir : Str := ['/', 'f', 'i', 'l', 'e', 's', '/']

def keyPath (root key : Str) : Option Str := do
  let rest ← Str.stripPrefix root key
  let rest ← Str.stripPrefix filesDir rest
  (Str.rsplitOnce '@' rest).map Prod.fst

def aliasesIn (root : Str) (entries : EntryMap) : List (Str × Str) :=
  (entries.rows.filter fun r => keyPath root r.2.key != some r.1).map fun r => (r.1, r.2.key)

def rowsUnder {V : Type} (m : SortedMap Str V) (p : Str) : List (Str × V) :=
  (m.rows.filter fun r => decide (p ≤ r.1)).takeWhile fun r => r.1.startsWith p

/-! ### The view -/

inductive ViewError
  | hole (addr first : Str) (seq : ℕ)
  | address (addr got : Str)
  | parse (addr : Str)
  | count (addr : Str) (got want : ℕ)
  | startsAt (addr got want : Str)
  | empty (addr : Str)
  | overlap (addr last next : Str)
  | index (i : ℕ)

/-- The format, the decoder of a body, the prefix of the workspace, and the chunks by address. -/
structure ViewCfg where
  format : Format
  decode : Bytes → Option EntryMap
  root : Str
  bucket : Str → Option Bytes

structure DocView where
  seq : ℕ
  refs : List ChunkRef
  tombstones : SortedMap Str Tombstone
  parsed : SortedMap ℕ EntryMap
  aliasCache : SortedMap Str (List (Str × Str))
  chunksRead : ℕ

abbrev ViewM := StateT DocView (Except ViewError)

def ViewM.fail {α : Type} (e : ViewError) : ViewM α := fun _ => .error e

def parseChunk (decode : Bytes → Option EntryMap) (refs : List ChunkRef) (i : ℕ) (b : Bytes) :
    Except ViewError EntryMap :=
  match refs[i]? with
  | none => .error (.index i)
  | some r =>
    match decode b with
    | none => .error (.parse r.addr)
    | some entries =>
      if entries.rows.length ≠ r.n then .error (.count r.addr entries.rows.length r.n)
      else match entries.keys.head?, entries.keys.getLast? with
        | some k, some last =>
          if k ≠ r.first then .error (.startsAt r.addr k r.first)
          else match refs[i + 1]? with
            | some next =>
              if next.first ≤ last then .error (.overlap r.addr last next.first) else .ok entries
            | none => .ok entries
        | _, _ => .error (.empty r.addr)

section View

variable (C : ViewCfg)

def fetchBody (addr : Str) (hole : ViewError) : Except ViewError Bytes :=
  match C.bucket addr with
  | none => .error hole
  | some body =>
    if C.format.chunkAddress body ≠ addr then
      .error (.address addr (C.format.chunkAddress body))
    else .ok body

def orInsert {K V : Type} [LinearOrder K] (m : SortedMap K V) (k : K) (v : V) : SortedMap K V :=
  if (m.get? k).isSome then m else m.insert k v

namespace DocView

def readChunk (i : ℕ) : ViewM EntryMap := fun v =>
  match v.refs[i]? with
  | none => .error (.index i)
  | some r => do
    let body ← fetchBody C r.addr (.hole r.addr r.first v.seq)
    let entries ← parseChunk C.decode v.refs i body
    return (entries, { v with
      aliasCache := orInsert v.aliasCache r.addr (aliasesIn C.root entries)
      chunksRead := v.chunksRead + 1
      parsed := v.parsed.insert i entries })

def chunk (i : ℕ) : ViewM EntryMap := do
  match (← get).parsed.get? i with
  | some c => return c
  | none => readChunk C i

def readChunks (want : List ℕ) : ViewM Unit := want.forM fun i => do
  let _ ← readChunk C i

def prefetch (paths : List Str) : ViewM Unit := do
  let v ← get
  if v.refs.isEmpty then return ()
  readChunks C ((SortedSet.ofList (paths.map (home v.refs))).rows.filter
    fun i => (v.parsed.get? i).isNone)

def get (p : Str) : ViewM (Option LeanEntry) := do
  let v ← MonadState.get
  if v.refs.isEmpty then return none
  return (← chunk C (home v.refs p)).get? p

def scanUnder (p : Str) (skip : Str → Bool) : List Str → Option (Option Str)
  | [] => none
  | k :: keys =>
    if k.startsWith p then if skip k then scanUnder p skip keys else some (some k) else some none

def firstUnderFrom (p : Str) (skip : Str → Bool) : ℕ → ℕ → ViewM (Option Str)
  | 0, _ => return none
  | n + 1, i => do
    let v ← MonadState.get
    if home v.refs p < i ∧ (v.refs[i]?).all fun r => !r.first.startsWith p then return none
    let c ← chunk C i
    match scanUnder p skip (c.keys.filter fun k => decide (p ≤ k)) with
    | some found => return found
    | none => firstUnderFrom p skip n (i + 1)

def firstUnder (p : Str) (skip : Str → Bool) : ViewM (Option Str) := do
  let v ← MonadState.get
  if v.refs.isEmpty then return none
  firstUnderFrom C p skip (v.refs.length - home v.refs p) (home v.refs p)

def aliasesRead (v : DocView) (out : List (Str × Str)) (i : ℕ) : ViewM (List (Str × Str)) :=
  match v.parsed.get? i with
  | some c => return out ++ aliasesIn C.root c
  | none => ViewM.fail (.index i)

def aliases : ViewM (List (Str × Str)) := do
  let v ← MonadState.get
  let out := (v.refs.filterMap fun r => v.aliasCache.get? r.addr).flatten
  let missing := (v.refs.zipIdx.filter fun r => (v.aliasCache.get? r.1.addr).isNone).map Prod.snd
  readChunks C (missing.filter fun i => (v.parsed.get? i).isNone)
  let v ← MonadState.get
  missing.foldlM (aliasesRead C v) out

variable (overlay : SortedMap Str (Option LeanEntry))

def dropped : ViewM (List Str) :=
  overlay.rows.foldlM (fun candidates r => do
    match ← get C r.1 with
    | some was =>
      if r.2.all fun now => now.key ≠ was.key then return candidates ++ [was.key]
      else return candidates
    | none => return candidates) []

def citesKey (aliases : List (Str × Str)) (k : Str) : ViewM Bool := do
  if overlay.rows.any fun r => r.2.any fun e => e.key = k then return true
  if aliases.any fun a => a.2 = k ∧ (overlay.get? a.1).isNone then return true
  match (keyPath C.root k).filter fun q => (overlay.get? q).isNone with
  | some q => return (← get C q).any fun e => e.key = k
  | none => return false

def retired : ViewM (List Str) := do
  let candidates ← dropped C overlay
  if candidates.isEmpty then return []
  let aliases ← aliases C
  candidates.foldlM (fun out k => do
    if ← citesKey C overlay aliases k then return out else return out ++ [k]) []

def mergeView (base : Str → Option Str) (upserts : SortedMap Str LeanEntry)
    (deletes parked : SortedSet Str) : ViewM MergedChanges := do
  let paths := upserts.keys ++ deletes.rows
  prefetch C paths
  let theirsAt ← paths.foldlM (fun (m : SortedMap Str LeanEntry) p => do
    match ← get C p with
    | some e => return m.insert p e
    | none => return m) .empty
  let v ← MonadState.get
  return mergeChanges base theirsAt v.tombstones upserts parked v.seq deletes

end DocView

/-! ### Paths that cannot both be cited -/

def sortDedup (l : List Str) : List Str := (SortedSet.ofList l).rows

/-- A cited path with something under it: the path itself if it is mine, or else the first of mine
under it. -/
def clashAt {V U : Type} (cited : SortedMap Str V) (upserts : SortedMap Str U) (p : Str) :
    Option Str :=
  let under := (rowsUnder cited p.dir).map Prod.fst
  if under.isEmpty then none
  else if (upserts.get? p).isSome then some p
  else under.find? fun q => (upserts.get? q).isSome

def pathClashes {V U : Type} (cited : SortedMap Str V) (upserts : SortedMap Str U) : List Str :=
  sortDedup (cited.keys.filterMap (clashAt cited upserts))

section Clashes

variable (overlay : SortedMap Str (Option LeanEntry)) (upserts : SortedMap Str LeanEntry)

def cites (p : Str) : ViewM Bool :=
  match overlay.get? p with
  | some v => return v.isSome
  | none => do return (← DocView.get C p).isSome

def citesUnder (p : Str) : ViewM Bool := do
  if (rowsUnder overlay p).any fun r => r.2.isSome then return true
  let found ← DocView.firstUnder C p fun k => (overlay.get? k).isSome
  return found.isSome

def ancestorClash (mine : List Str) (a : Str) : ViewM (List Str) := do
  if (upserts.get? a).isSome then return mine
  if !(← cites C overlay a) then return mine
  let first := ((rowsUnder upserts a.dir).map Prod.fst).find? fun k =>
    (overlay.get? k).any Option.isSome
  return mine ++ first.toList

/-- What one of mine adds: itself, if something is under it, and the first of mine under each of its
ancestors. -/
def upsertClash (mine : List Str) (u : Str) : ViewM (List Str) := do
  if !(← cites C overlay u) then return mine
  let below ← citesUnder C overlay u.dir
  let mine := if below then mine ++ [u] else mine
  u.ancestors.foldlM (ancestorClash C overlay upserts) mine

def clashesView : ViewM (List Str) := do
  let mine ← upserts.keys.foldlM (upsertClash C overlay upserts) []
  return sortDedup mine

end Clashes

/-- The handles that the installed document no longer cites anywhere, of those theirs cited at a
path the install changed. -/
def retiredFull (theirs installed : EntryMap) : List Str :=
  let stillCited := installed.rows.map fun r => r.2.key
  (theirs.rows.filter fun r =>
    ((installed.get? r.1).all fun now => now.key ≠ r.2.key) && !stillCited.contains r.2.key).map
      fun r => r.2.key

end View

end Flint.Syncer
