import Flint.Basic.Str

/-!
# Who may move what

A direct push is judged by four rules in order: a protected ref is not deleted; a ref that `pushers`
names is governed by its list; a protected ref that is not named there is closed; and what is left
has to have the shape of `agentPattern`. A push to `refs/for/<target>` is judged by two: the list of
`mergeInto`, and, where it has none, whether the target is protected. So a target without an entry
in `mergeInto` that is not protected is open to everybody (`proposal_past_pushers`).
-/

namespace Flint.Forge

open List Option Bool

def refsDir : Str := ['r', 'e', 'f', 's', '/']

def forDir : Str := ['r', 'e', 'f', 's', '/', 'f', 'o', 'r', '/']

def headsDir : Str := ['r', 'e', 'f', 's', '/', 'h', 'e', 'a', 'd', 's', '/']

def star : Str := ['*']

def textOf (s : Str) : String := String.ofList s

/-- The object id of no object: a ref that did not exist, or that is to be deleted. -/
def isZero (oid : Str) : Bool := !isEmpty oid && all oid (· == '0')

structure Policy where
  /-- The refs that no push moves unless `pushers` names the principal, and that no push deletes. -/
  protectedRefs : List Str
  pushers : SortedMap Str (List Str)
  /-- Who may propose a merge, by pattern of the target. -/
  mergeInto : SortedMap Str (List Str)
  agentPattern : Option Str
  allowNonFastForward : List Str

inductive Verdict
  | allow
  | refuse (reason : String)
deriving DecidableEq

/-! ### Patterns -/

def after (part : List Char) : List Char → Option (List Char)
  | [] => if part.isEmpty then some [] else none
  | c :: s => if part.isPrefixOf (c :: s) then some ((c :: s).drop part.length) else after part s

/-- The parts of a pattern behind its first star, matched from left to right. -/
def globRest : List (List Char) → List Char → Bool
  | [], _ => true
  | [last], s => last.length ≤ s.length && last.isSuffixOf s
  | part :: rest, s =>
    if part.isEmpty then globRest rest s
    else match after part s with
      | some s' => globRest rest s'
      | none => false

/-- `*` matches any run of characters, slashes included. A pattern without one is a name. -/
def globMatch (pattern name : Str) : Bool :=
  match splitOn '*' pattern with
  | first :: part :: rest =>
    name.startsWith first && globRest (part :: rest) (drop first.length name)
  | _ => pattern == name

/-- The name is cut into pieces: the parts of a pattern in their order, with a run of any characters
for the star between two of them. -/
def Cut : List (List Char) → List Char → Prop
  | [], _ => False
  | [part], s => s = part
  | part :: rest, s => ∃ run s', s = part ++ run ++ s' ∧ Cut rest s'

section Patterns

variable {part s s' : List Char}

theorem after_none (h : after part s = none) (run s' : List Char) : s ≠ run ++ part ++ s' := by
  induction s generalizing run with
  | nil => cases part <;> simp_all [after]
  | cons c s ih =>
    rw [after] at h
    split at h
    · cases h
    · next hpre =>
      rintro heq
      cases run with
      | nil => exact hpre (List.isPrefixOf_iff_prefix.mpr ⟨s', heq.symm⟩)
      | cons d run => exact ih h run (cons.inj heq).2

theorem after_some (h : after part s = some s') :
    (∃ run, s = run ++ part ++ s') ∧ ∀ run t, s = run ++ part ++ t → t <:+ s' := by
  induction s with
  | nil =>
    rw [after] at h
    split at h
    · next hemp =>
      cases h
      obtain rfl := List.isEmpty_iff.mp hemp
      refine ⟨⟨[], rfl⟩, fun run t heq => ?_⟩
      exact (append_eq_nil_iff.mp heq.symm).2 ▸ nil_suffix
    · cases h
  | cons c s ih =>
    rw [after] at h
    split at h
    · next hpre =>
      cases h
      obtain ⟨t, ht⟩ := isPrefixOf_iff_prefix.mp hpre
      rw [← ht, drop_left]
      refine ⟨⟨[], rfl⟩, fun run u heq => ?_⟩
      have hlen := congrArg length heq
      simp only [length_append] at hlen
      exact suffix_of_suffix_length_le ⟨run ++ part, heq.symm⟩ ⟨part, rfl⟩ (by omega)
    · next hpre =>
      obtain ⟨⟨run, hrun⟩, hmo⟩ := ih h
      refine ⟨⟨c :: run, congrArg (cons c) hrun⟩, fun run' t heq => ?_⟩
      cases run' with
      | nil => exact absurd (List.isPrefixOf_iff_prefix.mpr ⟨t, heq.symm⟩) hpre
      | cons d run' => exact hmo run' t (cons.inj heq).2

/-- The greedy search finds the parts behind the first star if they can be found at all. -/
theorem globRest_iff (part : List Char) (rest : List (List Char)) (s : List Char) :
    globRest (part :: rest) s ↔ ∃ run s', s = run ++ s' ∧ Cut (part :: rest) s' := by
  induction rest generalizing part s with
  | nil =>
    rw [globRest, and_eq_true, isSuffixOf_iff_suffix, decide_eq_true_eq]
    constructor
    · rintro ⟨-, run, rfl⟩
      exact ⟨run, part, rfl, rfl⟩
    · rintro ⟨run, _, rfl, rfl⟩
      exact ⟨by simp, run, rfl⟩
  | cons next rest ih =>
    unfold globRest
    split
    · next hemp =>
      obtain rfl := List.isEmpty_iff.mp hemp
      rw [ih]
      constructor
      · rintro ⟨run, s', rfl, hcut⟩
        exact ⟨[], run ++ s', rfl, run, s', rfl, hcut⟩
      · rintro ⟨run, _, rfl, run', s', rfl, hcut⟩
        exact ⟨run ++ run', s', by simp, hcut⟩
    · cases haft : after part s with
      | none =>
        refine ⟨nofun, fun ⟨run, _, heq, run', s', hs', _⟩ => ?_⟩
        exact absurd (by rw [heq, hs']; simp) (after_none haft run (run' ++ s'))
      | some t =>
        obtain ⟨⟨front, rfl⟩, hmo⟩ := after_some haft
        rw [ih]
        constructor
        · rintro ⟨run, s', rfl, hcut⟩
          exact ⟨front, part ++ run ++ s', by simp, run, s', rfl, hcut⟩
        · rintro ⟨run, _, heq, run', s', rfl, hcut⟩
          -- what another choice leaves is the end of what the first occurrence leaves
          obtain ⟨more, rfl⟩ := hmo run (run' ++ s') (by rw [heq]; simp)
          exact ⟨more ++ run', s', by simp, hcut⟩

end Patterns

/-- **A pattern matches exactly the names that can be cut into its parts.** -/
theorem globMatch_iff (pattern name : Str) :
    globMatch pattern name ↔ Cut (splitOn '*' pattern) name := by
  have hj : ['*'].intercalate (splitOn '*' pattern) = pattern := intercalate_splitOn '*'
  unfold globMatch
  match hparts : splitOn '*' pattern with
  | [] => exact absurd hparts (splitOn_ne_nil _ _)
  | [part] =>
    obtain rfl : part = pattern := by simpa [hparts] using hj
    exact beq_iff_eq.trans eq_comm
  | first :: part :: rest =>
    refine (and_eq_true_iff.trans (and_congr Str.startsWith_iff (globRest_iff ..))).trans ⟨?_, ?_⟩
    · rintro ⟨⟨s, rfl⟩, run, s', hs, hcut⟩
      rw [drop_left] at hs
      exact ⟨run, s', by rw [hs, append_assoc], hcut⟩
    · rintro ⟨run, s', rfl, hcut⟩
      exact ⟨⟨run ++ s', by simp⟩, run, s', by simp, hcut⟩

/-- The policy and the targets of proposals name branches without `refs/heads/`. -/
def fullRef (name : Str) : Str := if name.startsWith refsDir then name else headsDir.append name

/-! ### The verdict -/

def renderList (who : List Str) : String :=
  if who.isEmpty then "no one" else ", ".intercalate (who.map textOf)

def listed (who : List Str) (principal : Str) : Bool := who.any fun p => p == star || p == principal

namespace Policy

variable (p : Policy)

def isProtected (full : Str) : Bool := p.protectedRefs.any fun q => globMatch (fullRef q) full

def allowsNonFastForward (full : Str) : Bool :=
  p.allowNonFastForward.any fun q => globMatch (fullRef q) full

def listFor (m : SortedMap Str (List Str)) (full : Str) : Option (List Str) :=
  (m.rows.find? fun r => globMatch (fullRef r.1) full).map Prod.snd

def pushersFor (full : Str) : Option (List Str) := listFor p.pushers full

def mergersFor (full : Str) : Option (List Str) := listFor p.mergeInto full

def judgeMerge (principal target : Str) : Verdict :=
  match p.mergersFor target with
  | some who =>
    if listed who principal then .allow
    else .refuse ("only " ++ renderList who ++ " may propose merges into " ++ textOf target)
  | none =>
    if p.isProtected target then
      .refuse (textOf target ++ " is protected and no principal is allowed to merge into it " ++
        "(set mergeInto in the FlintRepo)")
    else .allow

def judgeShape (principal refName : Str) : Verdict :=
  match p.agentPattern with
  | some pattern =>
    if !isEmpty pattern && !globMatch (fullRef pattern) refName then
      .refuse (textOf principal ++ " may push only refs matching " ++ textOf (fullRef pattern) ++
        " in this repository")
    else .allow
  | none => .allow

def judge (principal refName newOid : Str) : Verdict :=
  match Str.stripPrefix forDir refName with
  | some target => p.judgeMerge principal (fullRef target)
  | none =>
    if !refName.startsWith refsDir then .refuse (textOf refName ++ " is not under refs/")
    else if isZero newOid && p.isProtected refName then
      .refuse (textOf refName ++
        " is protected and protected refs are never deleted through the server")
    else match p.pushersFor refName with
      | some who =>
        if listed who principal then .allow
        else .refuse (textOf refName ++ " may be pushed only by " ++ renderList who)
      | none =>
        if p.isProtected refName then
          .refuse (textOf refName ++ " is protected: push to refs/for/" ++
            textOf ((Str.stripPrefix headsDir refName).getD refName) ++ " to propose a merge")
        else p.judgeShape principal refName

/-! ### What is open to a principal -/

def MergeListed (principal target : Str) : Prop :=
  ∃ r ∈ p.mergeInto.rows, globMatch (fullRef r.1) target ∧ listed r.2 principal

instance (principal target : Str) : Decidable (p.MergeListed principal target) := by
  unfold MergeListed
  infer_instance

def MergeGoverned (target : Str) : Prop :=
  ∃ r ∈ p.mergeInto.rows, globMatch (fullRef r.1) target

/-- The rules beside the protection let the principal push the ref: its `pushers` list the
principal, or it has none and the right shape; a proposal goes by its target. -/
inductive OpenTo (principal : Str) : Str → Prop
  | pusher {full : Str} {who : List Str} (hdir : Str.stripPrefix forDir full = none)
    (hpus : p.pushersFor full = some who) (hwho : listed who principal) :
    OpenTo principal full
  | shape {full : Str} (hdir : Str.stripPrefix forDir full = none)
    (hpus : p.pushersFor full = none)
    (hshape : ∀ pattern ∈ p.agentPattern, isEmpty pattern = false →
      globMatch (fullRef pattern) full) :
    OpenTo principal full
  | merger {full target : Str} {who : List Str} (hfor : Str.stripPrefix forDir full = some target)
    (hmrg : p.mergersFor (fullRef target) = some who) (hwho : listed who principal) :
    OpenTo principal full
  | proposal {full target : Str} (hfor : Str.stripPrefix forDir full = some target)
    (hmrg : p.mergersFor (fullRef target) = none)
    (hunp : p.isProtected (fullRef target) = false) :
    OpenTo principal full

variable {p} {principal target full oid : Str}

theorem listFor_eq_some {m : SortedMap Str (List Str)} {who : List Str}
    (h : listFor m full = some who) :
    ∃ r ∈ m.rows, globMatch (fullRef r.1) full ∧ r.2 = who := by
  obtain ⟨r, hr, rfl⟩ := map_eq_some_iff.mp h
  exact ⟨r, mem_of_find?_eq_some hr, by simpa using find?_some hr, rfl⟩

theorem listFor_eq_none {m : SortedMap Str (List Str)} (h : listFor m full = none) :
    ∀ r ∈ m.rows, ¬globMatch (fullRef r.1) full := by
  intro r hr
  exact find?_eq_none.mp (map_eq_none_iff.mp h) r hr

theorem fullRef_startsWith (name : Str) : (fullRef name).startsWith refsDir := by
  unfold fullRef
  split
  · assumption
  · rw [Str.startsWith_iff]
    exact ⟨List.append ['h', 'e', 'a', 'd', 's', '/'] name, rfl⟩

theorem judgeShape_allow_iff : p.judgeShape principal full = .allow ↔
    ∀ pattern ∈ p.agentPattern, isEmpty pattern = false → globMatch (fullRef pattern) full := by
  unfold judgeShape
  cases p.agentPattern with
  | none | some pattern => simp

theorem judgeMerge_allow_iff : p.judgeMerge principal target = .allow ↔
    (∃ who, p.mergersFor target = some who ∧ listed who principal) ∨
      (p.mergersFor target = none ∧ p.isProtected target = false) := by
  unfold judgeMerge
  cases hmrg : p.mergersFor target with
  | some who | none => simp

theorem judge_for (target : Str) :
    p.judge principal (forDir.append target) oid = p.judgeMerge principal (fullRef target) := by
  have hstr : Str.stripPrefix forDir (forDir.append target) = some target := by
    have hsts : (forDir.append target).startsWith forDir :=
      Str.startsWith_iff.mpr ⟨target, rfl⟩
    rw [Str.stripPrefix, if_pos hsts]
    rfl
  rw [judge, hstr]

theorem judge_allow_iff (hoid : isZero oid = false) (hrf : full.startsWith refsDir)
    (hunp : p.isProtected full = false) :
    p.judge principal full oid = .allow ↔ p.OpenTo principal full := by
  unfold judge
  cases hstr : Str.stripPrefix forDir full with
  | some target =>
    rw [judgeMerge_allow_iff]
    constructor
    · rintro (⟨who, hmrg, hwho⟩ | ⟨hmrg, hop⟩)
      · exact .merger hstr hmrg hwho
      · exact .proposal hstr hmrg hop
    · intro hop
      cases hop with
      | pusher hdir _ _ | shape hdir _ _ => exact absurd (hstr.symm.trans hdir) (by simp)
      | merger hfor hmrg hwho =>
        obtain rfl := mem_unique hstr hfor
        exact .inl ⟨_, hmrg, hwho⟩
      | proposal hfor hmrg hop =>
        obtain rfl := mem_unique hstr hfor
        exact .inr ⟨hmrg, hop⟩
  | none =>
    simp only [hrf, hoid, hunp, Bool.not_true, Bool.false_and, false_eq_true, if_false]
    constructor
    · intro hallow
      cases hpus : p.pushersFor full with
      | some who =>
        refine .pusher hstr hpus ?_
        simpa [hpus] using hallow
      | none =>
        have hshape : p.judgeShape principal full = .allow := by simpa [hpus] using hallow
        exact .shape hstr hpus (judgeShape_allow_iff.mp hshape)
    · intro hop
      cases hop with
      | pusher _ hpus hwho => simp [hpus, hwho]
      | shape _ hpus hshape =>
        rw [hpus]
        exact judgeShape_allow_iff.mpr hshape
      | merger hfor _ _ | proposal hfor _ _ => exact absurd (hstr.symm.trans hfor) (by simp)

/-! ### Proposals against pushes -/

/-- **A proposal and a push of its target.** A principal that may propose is listed by `mergeInto`,
or may push the target, exactly when `mergeInto` has an entry for the target, or it is protected, or
open to the principal. -/
theorem proposal_within_push_policy (p : Policy) (principal target oid : Str)
    (hoid : isZero oid = false) :
    (p.judge principal (forDir.append target) oid = .allow →
        p.MergeListed principal (fullRef target) ∨
          p.judge principal (fullRef target) oid = .allow) ↔
      p.MergeGoverned (fullRef target) ∨ p.isProtected (fullRef target) ∨
        p.OpenTo principal (fullRef target) := by
  rw [judge_for, judgeMerge_allow_iff]
  have hrf := fullRef_startsWith target
  constructor
  · intro hwin
    by_cases hgov : p.MergeGoverned (fullRef target)
    · exact .inl hgov
    by_cases hprot : p.isProtected (fullRef target)
    · exact .inr (.inl hprot)
    -- neither an entry nor protection: the proposal is allowed, so the push has to be
    rw [not_eq_true] at hprot
    have hmrg : p.mergersFor (fullRef target) = none := by
      cases hmrg : p.mergersFor (fullRef target) with
      | none => rfl
      | some who =>
        obtain ⟨r, hr, hmatch, -⟩ := listFor_eq_some hmrg
        exact absurd ⟨r, hr, hmatch⟩ hgov
    rcases hwin (.inr ⟨hmrg, hprot⟩) with ⟨r, hr, hmatch, -⟩ | hpu
    · exact absurd ⟨r, hr, hmatch⟩ hgov
    · exact .inr (.inr ((judge_allow_iff hoid hrf hprot).mp hpu))
  · rintro hcase (⟨who, hmrg, hwho⟩ | ⟨hmrg, hunp⟩)
    · obtain ⟨r, hr, hmatch, rfl⟩ := listFor_eq_some hmrg
      exact .inl ⟨r, hr, hmatch, hwho⟩
    · rcases hcase with ⟨r, hr, hmatch⟩ | hprot | hop
      · exact absurd hmatch (listFor_eq_none hmrg r hr)
      · exact absurd (hprot.symm.trans hunp) (by simp)
      · exact .inr ((judge_allow_iff hoid hrf hunp).mpr hop)

def onlyPusher : Policy := ⟨[], .ofList [(.single 'r', [.single 'a'])], .empty, none, []⟩

/-- What `a` may propose, `a` may push. -/
theorem pusher_may_propose :
    isZero (.single '1') = false ∧
      onlyPusher.judge (.single 'a') (forDir.append (.single 'r')) (.single '1') = .allow ∧
      (onlyPusher.MergeListed (.single 'a') (fullRef (.single 'r')) ∨
        onlyPusher.judge (.single 'a') (fullRef (.single 'r')) (.single '1') = .allow) := by
  refine ⟨by decide, by decide, ?_⟩
  have hop : onlyPusher.OpenTo (.single 'a') (fullRef (.single 'r')) :=
    .pusher (by decide) (by decide : _ = some [Str.single 'a']) (by decide)
  exact (proposal_within_push_policy onlyPusher (.single 'a') (.single 'r') (.single '1')
    (by decide)).mpr (.inr (.inr hop)) (by decide)

/-- `b` may not push the branch `r`, which is for `a` alone, and may move it by a proposal; and so
where only branches like `w*` are for principals that are not listed. -/
theorem proposal_past_pushers :
    (onlyPusher.judge (.single 'b') (forDir.append (.single 'r')) (.single '1') = .allow ∧
      ¬onlyPusher.MergeListed (.single 'b') (fullRef (.single 'r')) ∧
      onlyPusher.judge (.single 'b') (fullRef (.single 'r')) (.single '1') ≠ .allow) ∧
    let shaped : Policy := ⟨[], .empty, .empty, some ['w', '*'], []⟩
    shaped.judge (.single 'b') (forDir.append (.single 'r')) (.single '1') = .allow ∧
      ¬shaped.MergeListed (.single 'b') (fullRef (.single 'r')) ∧
      shaped.judge (.single 'b') (fullRef (.single 'r')) (.single '1') ≠ .allow := by
  decide

end Policy

end Flint.Forge
