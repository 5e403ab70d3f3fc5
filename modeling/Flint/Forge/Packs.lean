import Mathlib.Data.List.Dedup
import Flint.Forge.Batch

/-!
# The packs of a repository

A snapshot names the refs of a repository and the packs that hold their objects. The holder keeps
these on disk, with the packs of pushes it refused and the retained ones that a fold superseded.

* A batch names the packs of the snapshot, less the retained ones, and those that hold what the
  accepted pushes need (`neededPacks`);
* a fold names the pack it built in place of the packs that it covers (`foldCommit`);
* a reclaim drops packs whose reachable objects the others hold (`reclaim`);
* a restore brings the disk to what the snapshot names (`restore`).

A batch that makes a state unreachable keeps a copy of the snapshot it replaces, an undo point. Two
sweeps delete files that neither the snapshot nor an undo point names.
-/

namespace Flint.Forge.Packs

open SortedSet

/-! ### Objects and files -/

structure Objects (ν : Type) where
  children : Str → List Str
  reachableFrom : List Str → List Str
  mem_reachableFrom : ∀ {tips o}, o ∈ reachableFrom tips ↔
    ∃ t ∈ tips, Relation.ReflTransGen (fun a b => b ∈ children a) t o
  /-- `rev-list --objects` of some tips that leaves out what other tips reach. -/
  objectsSince : List Str → List Str → List Str
  mem_objectsSince : ∀ {now before o}, o ∈ reachableFrom now → o ∉ reachableFrom before →
    o ∈ objectsSince now before
  objectsSince_subset : ∀ {now before o}, o ∈ objectsSince now before → o ∈ reachableFrom now
  isAncestor : Str → Str → Bool
  contents : ν → List Str

inductive Ext
  | pack | idx | rev | bitmap
deriving DecidableEq

structure File (ν : Type) where
  name : ν
  ext : Ext
deriving DecidableEq

def allExts : List Ext := [.pack, .idx, .rev, .bitmap]

structure Snapshot (ν : Type) where
  seq : ℕ
  refs : Refs
  packs : List ν
deriving DecidableEq

def Snapshot.empty {ν : Type} : Snapshot ν := ⟨0, .empty, []⟩

def tipsOf (refs : Refs) : List Str := refs.rows.map Prod.snd

structure Retained (ν : Type) where
  name : ν
  unlinkAfter : ℕ

structure LedgerEntry (ν : Type) where
  files : List (File ν)
  unnamed : ℕ

structure UndoPoint (ν : Type) where
  time : ℕ
  snap : Snapshot ν
deriving DecidableEq

structure Config where
  undoWindow : ℕ
  undoMaxPoints : ℕ
  orphanGrace : ℕ
  foldRetain : ℕ

structure Fold (ν : Type) where
  inputs : List ν
  isBase : Bool
  built : Option (ν × List Ext)

structure Repo (ν : Type) where
  clock : ℕ
  files : File ν → Option ℕ
  snap : Snapshot ν
  points : List (UndoPoint ν)
  disk : List (File ν)
  retained : List (Retained ν)
  ledger : List (LedgerEntry ν)
  cell : Option (Snapshot ν)
  serving : Bool
  fold : Option (Fold ν)

variable {ν : Type} [LinearOrder ν]

namespace Repo

def start : Repo ν := ⟨0, fun _ => none, .empty, [], [], [], [], none, false, none⟩

variable (s : Repo ν)

def localPacks : List ν :=
  (ofList ((s.disk.filter fun f => f.ext = .pack ∧ ⟨f.name, .idx⟩ ∈ s.disk).map
    File.name)).rows

def siblings (p : ν) : List (File ν) :=
  ⟨p, .pack⟩ :: (([.idx, .bitmap, .rev].filter fun e => ⟨p, e⟩ ∈ s.disk).map fun e => ⟨p, e⟩)

def isRetained (p : ν) : Bool := s.retained.any fun r => r.name == p

def upload (files : List (File ν)) : Repo ν :=
  { s with files := fun f => if f ∈ files then some s.clock else s.files f }

def unlink (packs : List ν) : Repo ν :=
  { s with disk := s.disk.filter fun f => f.name ∉ packs }

def ended : Repo ν := { s with cell := none, serving := false, fold := none }

end Repo

inductive CasEnd
  | landed | lost | failed

def Repo.cas (s : Repo ν) (next : Snapshot ν) : CasEnd → Repo ν
  | .landed => { s with snap := next, cell := some next }
  | .lost => { s with snap := next }.ended
  | .failed => s.ended

/-! ### A batch -/

section Batch

variable (O : Objects ν)

structure Needed (ν : Type) [LinearOrder ν] where
  want : List Str
  named : SortedSet ν

/-- One pack of a pass. An index that cannot be read is skipped, or ends the batch. -/
def takeFrom (readable : ν → Bool) (skips : Bool) (n : Needed ν) (p : ν) :
    Except ForgeError (Needed ν) :=
  if n.want = [] then .ok n
  else if readable p then
    let want := n.want.filter (· ∉ O.contents p)
    .ok ⟨want, if want.length < n.want.length then n.named.put p else n.named⟩
  else if skips then .ok n
  else .error (.other "show-index")

variable (s : Repo ν)

def neededPacks (snap : Snapshot ν) (accepted : List RefUpdate) (server : Option ν)
    (unreadable : List ν) : Except ForgeError (List ν) := do
  let readable := fun p => decide (⟨p, .idx⟩ ∈ s.disk) && decide (p ∉ unreadable)
  let named := ofList (snap.packs.filter (fun p => !s.isRetained p) ++ server.toList)
  let base := (tipsOf snap.refs).filter fun o => !isZero o
  let want := O.objectsSince (accepted.filterMap RefUpdate.value) base
  let unnamed := s.localPacks.filter (· ∉ named)
  -- the packs of these pushes first, then the named ones, and last what retention holds
  let fresh := server.toList ++ unnamed.filter fun p => !s.isRetained p
  let n ← fresh.foldlM (takeFrom O readable true) ⟨want, named⟩
  let n ← (snap.packs.filter (· ∈ named)).foldlM (takeFrom O readable false) n
  let n ← (unnamed.filter s.isRetained).foldlM (takeFrom O readable true) n
  match n.want with
  | [] => .ok n.named.rows
  | o :: rest =>
    .error (.other ("the accepted pushes need " ++ toString (rest.length + 1) ++
      " object(s) that are in no pack on disk (first: " ++ textOf o ++
      "); nothing would upload them, so nothing is published"))

def isDestructive (updates : List RefUpdate) : Bool :=
  updates.any fun u =>
    let hadState := !List.isEmpty u.oldOid && !isZero u.oldOid
    hadState && (isZero u.newOid || !O.isAncestor u.oldOid u.newOid)

inductive BatchEnd (ν : Type)
  | upload (landed : List (File ν))
  | cas (point : Bool) (c : CasEnd)

def writePoint (snap : Snapshot ν) : Repo ν :=
  { s with points := ⟨s.clock, snap⟩ :: s.points.filter fun q => q.snap.seq ≠ snap.seq }

def landServerPack (server : Option ν) : Repo ν :=
  { s with disk := server.toList.flatMap (fun f => [⟨f, .pack⟩, ⟨f, .idx⟩]) ++ s.disk }

def unretain (named : List ν) : Repo ν :=
  { s with retained := s.retained.filter fun r => r.name ∉ named }

def pendingFiles (snap : Snapshot ν) (named : List ν) : List (File ν) :=
  (named.filter (· ∉ snap.packs)).flatMap s.siblings

def keepPoint (C : Config) (s : Repo ν) (snap : Snapshot ν) (accepted : List RefUpdate)
    (point : Bool) : Repo ν :=
  if point && decide (0 < C.undoWindow) && isDestructive O accepted then writePoint s snap else s

def publish (C : Config) (s : Repo ν) (snap : Snapshot ν) (accepted : List RefUpdate)
    (named : List ν) : BatchEnd ν → Repo ν
  | .upload landed => (s.upload (landed.filter (· ∈ pendingFiles s snap named))).ended
  | .cas point c =>
    (keepPoint O C (s.upload (pendingFiles s snap named)) snap accepted point).cas
      ⟨snap.seq + 1, published snap.refs accepted, named⟩ c

def batch (C : Config) (s : Repo ν) (accepted : List RefUpdate) (server : Option ν)
    (unreadable : List ν) (how : BatchEnd ν) : Repo ν :=
  match s.cell with
  | none => s
  | some cell =>
    match neededPacks O (landServerPack s server) cell accepted server unreadable with
    | .error _ => (landServerPack s server).ended
    | .ok named => publish O C (unretain (landServerPack s server) named) cell accepted named how

end Batch

/-! ### A fold -/

section Fold

variable (O : Objects ν)

inductive Plan (ν : Type)
  | fold (inputs : List ν)
  | base

variable (s : Repo ν)

def Plan.inputs? (snap : Snapshot ν) : Plan ν → Option (List ν)
  | .fold inputs =>
    if 2 ≤ inputs.length ∧ ∀ p ∈ inputs, p ∈ snap.packs ∧ ⟨p, .pack⟩ ∈ s.disk then some inputs
    else none
  | .base => some (snap.packs.filter fun p => ⟨p, .pack⟩ ∈ s.disk)

def Plan.isBase : Plan ν → Bool
  | .fold _ => false
  | .base => true

def spawn (plan : Plan ν) : Repo ν :=
  match s.cell with
  | none => s
  | some cell =>
    match s.fold, plan.inputs? s cell with
    | none, some inputs => { s with fold := some ⟨inputs, plan.isBase, none⟩ }
    | _, _ => s

def covers (f p : ν) : Bool := decide (⟨p, .idx⟩ ∈ s.disk → ∀ o ∈ O.contents p, o ∈ O.contents f)

/-- The check of the pack that was built: a fold holds all its inputs hold, a base all that is
reachable. -/
def holdsItsOwn (fold : Fold ν) (f : ν) : Bool :=
  if fold.isBase then
    (O.reachableFrom (s.cell.elim [] fun c => tipsOf c.refs)).all (· ∈ O.contents f)
  else (fold.inputs.filter (· ≠ f)).all (covers O s f)

def build (f : ν) (beside : List Ext) : Repo ν :=
  match s.fold with
  | some ⟨inputs, isBase, none⟩ =>
    if holdsItsOwn O s ⟨inputs, isBase, none⟩ f then
      { s.upload ((.pack :: .idx :: beside).map fun e => ⟨f, e⟩) with
        fold := some ⟨inputs, isBase, some (f, beside)⟩ }
    else { s with fold := none }
  | _ => s

def superseded (inputs : List ν) (f : ν) : List ν :=
  let others := inputs.filter (· ≠ f)
  if others ≠ [] ∧ ⟨f, .idx⟩ ∈ s.disk then others.filter (covers O s f) else others

def landFold (snap : Snapshot ν) (f : ν) (beside : List Ext) : Repo ν :=
  if f ∈ snap.packs then s
  else { s with disk := (.pack :: .idx :: beside).map (fun e => ⟨f, e⟩) ++ s.disk }

def retire (C : Config) (s : Repo ν) (drop : List ν) (now : ℕ) : Repo ν :=
  let files := drop.flatMap s.siblings
  { s with
    retained := s.retained ++ drop.map fun p => ⟨p, now + C.foldRetain⟩
    ledger := if files = [] then s.ledger else s.ledger ++ [⟨files, now⟩] }

def publishFold (C : Config) (s : Repo ν) (snap : Snapshot ν) (f : ν) (drop : List ν) (now : ℕ)
    (c : CasEnd) : Repo ν :=
  let next := { snap with
    seq := snap.seq + 1
    packs := (ofList (snap.packs.filter (· ∉ drop) ++ [f])).rows }
  match c with
  | .landed => retire C (s.cas next .landed) drop now
  | .lost => s.cas next .lost
  | .failed => s.cas next .failed

def foldCommit (C : Config) (s : Repo ν) (now : ℕ) (c : CasEnd) : Repo ν :=
  match s.cell, s.fold with
  | some cell, some ⟨inputs, _, some (f, beside)⟩ =>
    let s := { s with fold := none }
    if f ∈ cell.packs ∧ inputs.filter (· ≠ f) = [] then s
    else
      let s := landFold s cell f beside
      publishFold C s cell f (superseded O s inputs f) now c
  | _, _ => s

end Fold

def unlinkRetained (s : Repo ν) (now : ℕ) (keeps : List ν) : Repo ν :=
  let named := s.cell.elim [] Snapshot.packs
  let stays := fun r : Retained ν =>
    decide (now < r.unlinkAfter) || decide (r.name ∈ named) || decide (r.name ∈ keeps)
  { s.unlink ((s.retained.filter fun r => !stays r).map Retained.name) with
    retained := s.retained.filter stays }

/-! ### Before the holder serves -/

section Rest

variable (O : Objects ν) (s : Repo ν)

def fetch : Repo ν :=
  { s with
    disk := s.snap.packs.flatMap (fun p =>
      (allExts.map fun e => (⟨p, e⟩ : File ν)).filter fun f => (s.files f).isSome) ++ s.disk }

/-- A pack that the snapshot does not name is unlinked, unless it is retained; one that it names is
not retained. -/
def reconcile : Repo ν :=
  unretain (s.unlink (s.localPacks.filter fun p => p ∉ s.snap.packs ∧ !s.isRetained p)) s.snap.packs

def restore : Repo ν :=
  if s.cell.isSome then s
  -- a repository nobody has published
  else if s.snap.seq = 0 then { s with cell := some s.snap }
  else if s.snap.packs.all fun p => (s.files ⟨p, .pack⟩).isSome then
    { reconcile (fetch s) with cell := some s.snap }
  else s

def live (reach : List Str) (p : ν) : List Str := ((O.contents p).filter (· ∈ reach)).dedup

def holders (reach : List Str) (kept : List ν) (o : Str) : ℕ :=
  (kept.filter fun p => o ∈ live O reach p).length

def reclaimLoop (reach : List Str) (order : List ν) : ℕ → List ν → List ν → List ν × List ν
  | 0, kept, drop => (kept, drop)
  | n + 1, kept, drop =>
    match order.find? fun p =>
        decide (p ∈ kept) && (live O reach p).all fun o => decide (1 < holders O reach kept o) with
    | none => (kept, drop)
    | some v => reclaimLoop reach order n (kept.filter (· ≠ v)) (drop ++ [v])

def scanOrder (reach : List Str) (named : List ν) : List ν :=
  named.insertionSort fun a b => (live O reach a).length < (live O reach b).length ∨
    (live O reach a).length = (live O reach b).length ∧ a ≤ b

def reclaimDrops (snap : Snapshot ν) : Option (List ν) :=
  if snap.packs.length < 2 then none
  else if snap.packs.all fun p => ⟨p, .idx⟩ ∈ s.disk ∧ ⟨p, .pack⟩ ∈ s.disk then
    let reach := O.reachableFrom (tipsOf snap.refs)
    let r := reclaimLoop O reach (scanOrder O reach snap.packs) (snap.packs.length + 1) snap.packs
      []
    -- asked again of the final set
    if r.2.all fun p => (live O reach p).all fun o => r.1.any fun q => o ∈ live O reach q then
      some r.2
    else none
  else none

def reclaim (c : CasEnd) : Repo ν :=
  match s.cell with
  | none => s
  | some cell =>
    match reclaimDrops O s cell with
    | none | some [] => s
    | some (v :: drop) =>
      let next := { cell with
        seq := cell.seq + 1
        packs := cell.packs.filter (· ∉ v :: drop) }
      -- the commit comes before the unlink
      match c with
      | .landed => (s.cas next .landed).unlink (v :: drop)
      | .lost => s.cas next .lost
      | .failed => s.cas next .failed

end Rest

/-! ### Sweeps -/

section Sweeps

variable (C : Config) (s : Repo ν)

def newestPoints : List (UndoPoint ν) :=
  (s.points.insertionSort fun a b => b.snap.seq ≤ a.snap.seq).take C.undoMaxPoints

def isOld (now : ℕ) (q : UndoPoint ν) : Bool := decide (C.undoWindow ≤ now - q.time)

def undoStems (now : ℕ) : List ν :=
  if C.undoWindow = 0 then []
  else ((newestPoints C s).filter fun q => !isOld C now q).flatMap fun q => q.snap.packs

def expired (now : ℕ) : List (UndoPoint ν) :=
  if C.undoWindow = 0 then [] else (newestPoints C s).filter (isOld C now)

def isStale (now : ℕ) (f : File ν) : Bool :=
  (s.files f).any fun t => decide (C.orphanGrace ≤ now - t)

/-- A pass over a listing of the bucket; `reached` are the candidates that it gets to before an
error ends it. -/
def sweep (now : ℕ) (reached : File ν → Bool) (finishes : Bool) : Repo ν :=
  if s.cell = some s.snap ∧ s.fold = none ∧ s.clock ≤ now then
    let stems := s.snap.packs ++ undoStems C s now
    { s with
      files := fun f =>
        if f.name ∉ stems ∧ isStale C s now f ∧ reached f then none else s.files f
      points := if finishes then s.points.filter (· ∉ expired C s now) else s.points }
  else s

/-- A pass over the ledger; `reached` are the files that its budget of requests allows. -/
def sweepLedger (now : ℕ) (reached : File ν → Bool) : Repo ν :=
  if s.cell = some s.snap ∧ s.fold = none ∧ s.clock ≤ now then
    let due := fun e : LedgerEntry ν => decide (C.orphanGrace ≤ now - e.unnamed)
    let stems := s.snap.packs ++ undoStems C s now
    let listed := (s.ledger.filter due).flatMap LedgerEntry.files
    let gone := fun f => f ∈ listed ∧ f.name ∉ stems ∧ isStale C s now f ∧ reached f
    -- what was not reached, or is too young, stays in the ledger
    let left := fun f => f.name ∉ stems ∧ (!reached f ∨ (s.files f).isSome ∧ !isStale C s now f)
    { s with
      files := fun f => if gone f then none else s.files f
      ledger := (s.ledger.map fun e => if due e then { e with files := e.files.filter left } else e
        ).filter fun e => !due e || !e.files.isEmpty }
  else s

end Sweeps

/-! ### Runs -/

inductive Action (ν : Type)
  | tick (seconds : ℕ)
  | arrive (files : List (File ν))
  | batch (accepted : List RefUpdate) (server : Option ν) (unreadable : List ν) (how : BatchEnd ν)
  | spawn (plan : Plan ν)
  | build (f : ν) (beside : List Ext)
  | foldCommit (now : ℕ) (c : CasEnd)
  | abortFold
  | unlinkRetained (now : ℕ) (keeps : List ν)
  | reclaim (c : CasEnd)
  | serve
  | restart (kept : File ν → Bool) (state : Bool)
  | restore
  | sweep (now : ℕ) (reached : File ν → Bool) (finishes : Bool)
  | sweepLedger (now : ℕ) (reached : File ν → Bool)

def step (O : Objects ν) (C : Config) (s : Repo ν) : Action ν → Repo ν
  | .tick seconds => { s with clock := s.clock + seconds }
  | .arrive files => { s with disk := files ++ s.disk }
  | .batch accepted server unreadable how =>
    if s.serving then batch O C s accepted server unreadable how else s
  | .spawn plan => if s.serving then spawn s plan else s
  | .build f beside => build O s f beside
  | .foldCommit now c => if s.serving then foldCommit O C s now c else s
  | .abortFold => { s with fold := none }
  | .unlinkRetained now keeps => if s.serving then unlinkRetained s now keeps else s
  | .reclaim c => if s.serving then s else reclaim O s c
  | .serve => if s.cell.isSome then { s with serving := true } else s
  | .restart kept state =>
    { s.ended with
      disk := s.disk.filter kept
      retained := if state then s.retained else []
      ledger := if state then s.ledger else [] }
  | .restore => restore s
  | .sweep now reached finishes => if s.serving then sweep C s now reached finishes else s
  | .sweepLedger now reached => if s.serving then sweepLedger C s now reached else s

end Flint.Forge.Packs
