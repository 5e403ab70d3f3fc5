import Flint.Basic.Outcome
import Flint.Forge.Policy

/-!
# One batch of pushes

The pushes that arrive together are judged one command after the other, against the refs as the
commands before have left them (`judgePushes`). What is accepted is published by one conditional
write of the snapshot and then applied to the local repository by one transaction.

A push to `refs/for/<target>` is a proposal: its target is moved, to the pushed commit if that is a
fast-forward and to a merge that the server makes otherwise. An atomic push is taken back as a whole
if one of its commands is refused.
-/

namespace Flint.Forge

open List

abbrev Refs := SortedMap Str Str

inductive ForgeError
  | git (reason : String)
  | fenced (reason : String)
  | other (reason : String)

structure RefUpdate where
  name : Str
  oldOid : Str
  newOid : Str

def RefUpdate.value (u : RefUpdate) : Option Str := if isZero u.newOid then none else some u.newOid

def RefUpdate.old (u : RefUpdate) : Option Str :=
  if isEmpty u.oldOid then none else some u.oldOid

structure PushRequest where
  id : ℕ
  principal : Str
  options : List Str
  atomic : Bool
  commands : List RefUpdate
  serverCreated : List Str

inductive CommandResult
  /-- `altRef` is the ref that was moved if it is not the one of the command. -/
  | ok (name : Str) (altRef oldOid newOid : Option Str)
  | ng (name : Str) (reason : String)
deriving DecidableEq

structure PushReport where
  id : ℕ
  results : List CommandResult
deriving DecidableEq

inductive MergeOutcome
  | clean (tree : Str)
  | conflict (paths : List Str)

structure Git where
  isAncestor : Str → Str → Except ForgeError Bool
  hasObject : Str → Except ForgeError Bool
  mergeTree : (base head : Str) → (strategy : Option Str) → Except ForgeError MergeOutcome
  commitTree : (tree : Str) → (parents : List Str) → (message : String) → (author : Str) →
    Except ForgeError Str

structure Rules where
  git : Git
  policy : Policy
  defaultBranch : Str

/-! ### One command -/

def absent : Str := []

def norm : Option Str → Str
  | some oid => if isZero oid then absent else oid
  | none => absent

def zeroOid (len : ℕ) : Str := replicate len '0'

def strategyIs : Str := ['s', 't', 'r', 'a', 't', 'e', 'g', 'y', '=']

/-- The merge strategy that a push asks for; a value that git might take for something else is
ignored. -/
def PushRequest.strategy (push : PushRequest) : Option Str :=
  (push.options.findSome? (Str.stripPrefix strategyIs)).filter fun s =>
    s == ['o', 'u', 'r', 's'] || s == ['t', 'h', 'e', 'i', 'r', 's']

inductive Judged
  /-- `created` is the commit that the server made, and its base. -/
  | accepted (update : RefUpdate) (altRef : Option Str) (created : Option (Str × Str))
  | refused (reason : String)

section Judge

variable (R : Rules) (eff : Refs) (disagreed : SortedSet Str)

def valueOf (name : Str) : Str := (eff.get? name).getD absent

def notHere (oid : Str) : Judged := .refused (textOf oid ++ " is not in this repository")

def contained (head base : Str) : Except ForgeError Bool :=
  if head = base then .ok true else R.git.isAncestor head base

def judgeDiverged (push : PushRequest) (targetRef base head : Str) : Except ForgeError Judged := do
  match ← R.git.mergeTree base head push.strategy with
  | .conflict paths =>
    .ok (.refused ("conflict: " ++ if paths.isEmpty then "the merge does not apply"
      else " ".intercalate (paths.map textOf)))
  | .clean tree =>
    let commit ← R.git.commitTree tree [base, head]
      ("Merge " ++ textOf head ++ " into " ++ textOf targetRef) push.principal
    .ok (.accepted ⟨targetRef, base, commit⟩ (some targetRef) (some (commit, base)))

def judgeMerge (push : PushRequest) (cmd : RefUpdate) (target : Str) : Except ForgeError Judged :=
  let targetRef := fullRef target
  let base := valueOf eff targetRef
  let head := cmd.newOid
  if targetRef ∈ disagreed then
    .ok (.refused (textOf targetRef ++
      " differs between this server and the bucket; retry after " ++
      "the server reconciles"))
  else if isZero head then .ok (.refused "a merge request must name a commit")
  else if isEmpty base then
    -- the default branch may be created by a proposal, and no other ref
    if targetRef ≠ headsDir.append R.defaultBranch then
      .ok (.refused ("no such merge target: " ++ textOf targetRef))
    else do
      if !(← R.git.hasObject head) then .ok (notHere head)
      else .ok (.accepted ⟨targetRef, zeroOid (length head), head⟩ (some targetRef) none)
  else do
    if !(← R.git.hasObject head) then .ok (notHere head)
    else if ← contained R head base then
      .ok (.refused (textOf head ++ " is already contained in " ++ textOf targetRef))
    else if ← R.git.isAncestor base head then
      .ok (.accepted ⟨targetRef, base, head⟩ (some targetRef) none)
    else judgeDiverged R push targetRef base head

def forward (base new : Str) : Except ForgeError Bool :=
  if isZero new || isEmpty base then .ok true else R.git.isAncestor base new

def present (new : Str) : Except ForgeError Bool :=
  if isZero new then .ok true else R.git.hasObject new

def judgeMove (cmd : RefUpdate) (base : Str) : Except ForgeError Judged := do
  if !(← forward R base cmd.newOid) && !R.policy.allowsNonFastForward cmd.name then
    .ok (.refused ("non-fast-forward update to " ++ textOf cmd.name))
  else if !(← present R cmd.newOid) then .ok (notHere cmd.newOid)
  else .ok (.accepted ⟨cmd.name, base, cmd.newOid⟩ none none)

def judge (push : PushRequest) (cmd : RefUpdate) : Except ForgeError Judged :=
  match R.policy.judge push.principal cmd.name cmd.newOid with
  | .refuse reason => .ok (.refused reason)
  | .allow =>
    match Str.stripPrefix forDir cmd.name with
    | some target => judgeMerge R eff disagreed push cmd target
    | none =>
      if cmd.name ∈ disagreed then
        .ok (.refused (textOf cmd.name ++
          " differs between this server and the bucket; the server " ++
          "will reconcile on restart — retry then"))
      else if norm (some cmd.oldOid) ≠ valueOf eff cmd.name then
        .ok (.refused "stale info: fetch first")
      else judgeMove R cmd (valueOf eff cmd.name)

end Judge

/-! ### The judging loop -/

structure Judging where
  eff : Refs
  accepted : List RefUpdate
  mergeTips : List Str

structure Turn where
  now : Judging
  results : List CommandResult
  effBefore : SortedMap Str (Option Str)

def CommandResult.isNg : CommandResult → Bool
  | .ok _ _ _ _ => false
  | .ng _ _ => true

section Loop

variable (R : Rules) (disagreed : SortedSet Str)

def tipsOf (push : PushRequest) (update : RefUpdate) (created : Option (Str × Str)) : List Str :=
  (created.map Prod.fst).toList ++
    if update.newOid ∈ push.serverCreated then [update.newOid] else []

def okOf (cmd update : RefUpdate) (altRef : Option Str) : CommandResult :=
  .ok cmd.name altRef update.old update.value

def Turn.accept (push : PushRequest) (cmd : RefUpdate) (t : Turn) (update : RefUpdate)
    (altRef : Option Str) (created : Option (Str × Str)) : Turn :=
  { now :=
      { eff := t.now.eff.insert update.name (norm (some update.newOid))
        accepted := t.now.accepted ++ [update]
        mergeTips := t.now.mergeTips ++ tipsOf push update created }
    results := t.results ++ [okOf cmd update altRef]
    effBefore :=
      if push.atomic ∧ t.effBefore.get? update.name = none then
        t.effBefore.insert update.name (t.now.eff.get? update.name)
      else t.effBefore }

def Turn.refuse (cmd : RefUpdate) (t : Turn) (reason : String) : Turn :=
  { t with results := t.results ++ [.ng cmd.name reason] }

def judgeCommand (push : PushRequest) (t : Turn) (cmd : RefUpdate) : Except ForgeError Turn :=
  match judge R t.now.eff disagreed push cmd with
  | .error (.git reason) => .ok (t.refuse cmd reason)
  | .error e => .error e
  | .ok (.refused reason) => .ok (t.refuse cmd reason)
  | .ok (.accepted update altRef created) => .ok (t.accept push cmd update altRef created)

def restoreEff (eff : Refs) (before : SortedMap Str (Option Str)) : Refs := eff.patch before

def CommandResult.name : CommandResult → Str
  | .ok name _ _ _ | .ng name _ => name

def CommandResult.takeBack (refused : List Str) : CommandResult → CommandResult
  | .ok name _ _ _ =>
    .ng name ("atomic push: refused because " ++ ", ".intercalate (refused.map textOf) ++
      " was refused")
  | .ng name reason => .ng name reason

def refusedWhole (results : List CommandResult) : List CommandResult :=
  results.map (CommandResult.takeBack ((results.filter CommandResult.isNg).map CommandResult.name))

def judgePush (j : Judging) (push : PushRequest) : Except ForgeError (Judging × PushReport) := do
  let t ← push.commands.foldlM (judgeCommand R disagreed push) ⟨j, [], .empty⟩
  if push.atomic ∧ t.results.any CommandResult.isNg then
    return (⟨restoreEff t.now.eff t.effBefore, t.now.accepted.take j.accepted.length,
      t.now.mergeTips.take j.mergeTips.length⟩, ⟨push.id, refusedWhole t.results⟩)
  return (t.now, ⟨push.id, t.results⟩)

def judgePushes (j : Judging) : List PushRequest → Except ForgeError (Judging × List PushReport)
  | [] => .ok (j, [])
  | push :: pushes => do
    let r ← judgePush R disagreed j push
    let rest ← judgePushes r.1 pushes
    return (rest.1, r.2 :: rest.2)

end Loop

/-! ### Publishing -/

def agreedValue (here snap : Refs) (name : Str) : Option Str :=
  if norm (here.get? name) = norm (snap.get? name) then some (norm (here.get? name)) else none

/-- The refs that the repository and the bucket agree on, and the names of the others. -/
def agree (here snap : Refs) : Refs × SortedSet Str :=
  let names := (SortedSet.ofList (here.keys ++ snap.keys)).rows
  (.ofList (names.filterMap fun name => (agreedValue here snap name).map fun oid => (name, oid)),
    .ofList (names.filter fun name => (agreedValue here snap name).isNone))

def published (snap : Refs) (accepted : List RefUpdate) : Refs :=
  accepted.foldl (fun refs u => refs.patchOne (u.name, u.value)) snap

def coalesceOne (out : List RefUpdate) (u : RefUpdate) : List RefUpdate :=
  if out.any fun e => e.name == u.name then
    out.map fun e => if e.name = u.name then { e with newOid := u.newOid } else e
  else out ++ [u]

def coalescePerRef (updates : List RefUpdate) : List RefUpdate := updates.foldl coalesceOne []

inductive Line
  | delete (name old : Str)
  | create (name new : Str)
  | update (name new old : Str)

def RefUpdate.line (u : RefUpdate) : Line :=
  if isZero u.newOid then .delete u.name u.oldOid
  else if isZero u.oldOid then .create u.name u.newOid
  else .update u.name u.newOid u.oldOid

def script (updates : List RefUpdate) : List Line := updates.map RefUpdate.line

/-- How the conditional write of the snapshot ends. Only `done` and `adopted` are told to the batch
as such, and behind either error the write may have landed. -/
inductive CasAnswer
  | done
  /-- A 412, which a request that was sent again may get from its own write. -/
  | refused (landed : Bool) (reason : String)
  /-- Any other error, and the snapshot that is read again is the one this batch wrote. -/
  | adopted
  /-- Any other error, and the snapshot cannot be read again or is not the one this batch wrote. -/
  | unrecognised (landed : Bool) (e : ForgeError)

def CasAnswer.landed : CasAnswer → Bool
  | .done | .adopted => true
  | .refused landed _ | .unrecognised landed _ => landed

def CasAnswer.recognised : CasAnswer → Bool
  | .done | .adopted => true
  | .refused _ _ | .unrecognised _ _ => false

structure Env where
  packNewObjects : (tips excludes : List Str) → Except ForgeError (Option Str)
  renew : Except ForgeError Unit
  upload : List RefUpdate → Option Str → Except ForgeError Unit
  undo : List RefUpdate → Except ForgeError Unit
  cas : CasAnswer
  /-- `git update-ref --stdin`: the refs after the transaction. -/
  transact : Refs → List Line → Except ForgeError Refs

def Env.prepare (E : Env) (snap : Refs) (j : Judging) : Except ForgeError Unit := do
  let serverPack ←
    if j.mergeTips.isEmpty then pure none
    else E.packNewObjects j.mergeTips ((snap.rows.map Prod.snd).filter (· ∉ j.mergeTips))
  E.renew
  E.upload j.accepted serverPack
  E.undo j.accepted

def updateRefs (E : Env) (refs : Refs) (updates : List RefUpdate) : Except ForgeError Refs :=
  if updates.isEmpty then .ok refs else E.transact refs (script updates)

structure Server where
  fenced : Option String
  /-- The refs of the snapshot in the bucket. -/
  snap : Refs
  localRefs : Refs

def land (E : Env) (s : Server) (j : Judging) (reports : List PushReport) :
    Server × Except ForgeError (List PushReport) :=
  match updateRefs E s.localRefs (coalescePerRef j.accepted) with
  | .ok refs => ({ s with localRefs := refs }, .ok reports)
  | .error e => (s, .error e)

def publish (E : Env) (s : Server) (j : Judging) (reports : List PushReport) :
    Server × Except ForgeError (List PushReport) :=
  match E.prepare s.snap j with
  | .error e => (s, .error e)
  | .ok () =>
    let s := if E.cas.landed then { s with snap := published s.snap j.accepted } else s
    match E.cas with
    | .done | .adopted => land E s j reports
    | .refused _ reason =>
      let reason := "snapshot CAS refused, another server holds this repository: " ++ reason
      ({ s with fenced := some reason }, .error (.fenced reason))
    | .unrecognised _ e => (s, .error e)

def runBatch (R : Rules) (E : Env) (s : Server) (pushes : List PushRequest) :
    Server × Except ForgeError (List PushReport) :=
  match s.fenced with
  | some reason => (s, .error (.fenced reason))
  | none =>
    if pushes.isEmpty then (s, .ok [])
    else
      let view := agree s.localRefs s.snap
      match judgePushes R view.2 ⟨view.1, [], []⟩ pushes with
      | .error e => (s, .error e)
      | .ok (j, reports) => if j.accepted.isEmpty then (s, .ok reports) else publish E s j reports

end Flint.Forge
