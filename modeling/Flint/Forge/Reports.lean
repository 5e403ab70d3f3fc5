import Flint.Forge.Batch

/-!
# The reports of a batch

What a batch publishes is the snapshot's refs, with each command that is reported `ok` applied in
the order of arrival. `Leads` is this as a relation: each `ok` is `Exact` against the refs that the
ones before it have left.

A direct push has to give the value of its ref. What a proposal came with as the old value is not
looked at (`proposal_old_value_not_read`).
-/

namespace Flint.Forge

open Outcome SortedMap CommandResult RefUpdate SortedSet Judged List Option Prod KeyedTable

def CommandResult.move (refs : Refs) : CommandResult → Refs
  | .ok name altRef _ newOid => refs.patchOne (altRef.getD name, newOid)
  | .ng _ _ => refs

def applyResults (refs : Refs) (results : List CommandResult) : Refs := results.foldl move refs

structure Exact (disagreed : SortedSet Str) (refs : Refs) (cmd : RefUpdate)
    (altRef old new : Option Str) :
    Prop where
  agreed : altRef.getD cmd.name ∉ disagreed
  old_eq : norm old = norm (refs.get? (altRef.getD cmd.name))
  /-- A direct push gave this value, and the ref gets the value it names. -/
  direct : Str.stripPrefix forDir cmd.name = none →
    altRef = none ∧ norm (some cmd.oldOid) = norm (refs.get? cmd.name) ∧ new = cmd.value
  proposal : ∀ target, Str.stripPrefix forDir cmd.name = some target →
    altRef = some (fullRef target)

inductive Leads (disagreed : SortedSet Str) : Refs → List (RefUpdate × CommandResult) → Refs → Prop
  | nil (refs : Refs) : Leads disagreed refs [] refs
  | ng {refs refs' : Refs} {cmd : RefUpdate} {reason : String}
    {l : List (RefUpdate × CommandResult)}
    (h : Leads disagreed refs l refs') : Leads disagreed refs
    ((cmd, .ng cmd.name reason) :: l) refs'
  | ok {refs refs' : Refs} {cmd : RefUpdate} {altRef old new : Option Str}
    {l : List (RefUpdate × CommandResult)} (hex : Exact disagreed refs cmd altRef old new)
    (h : Leads disagreed (refs.patchOne (altRef.getD cmd.name, new)) l refs') :
    Leads disagreed refs ((cmd, .ok cmd.name altRef old new) :: l) refs'

section Leads

variable {disagreed : SortedSet Str} {refs refs' refs'' : Refs}
  {l m : List (RefUpdate × CommandResult)}

variable (h : Leads disagreed refs l refs')

include h

theorem Leads.append (h' : Leads disagreed refs' m refs'') :
    Leads disagreed refs (l ++ m) refs'' := by
  induction h with
  | nil _ => exact h'
  | ng _ ih => exact .ng (ih h')
  | ok hex _ ih => exact .ok hex (ih h')

theorem Leads.eq_applyResults : refs' = applyResults refs (l.map snd) := by
  induction h with
  | nil _ => rfl
  | ng _ ih | ok _ _ ih => exact ih

theorem Leads.name_eq : ∀ t ∈ l, t.2.name = t.1.name := by
  induction h with
  | nil _ => exact nofun
  | ng _ ih | ok _ _ ih =>
    intro t ht
    rcases mem_cons.mp ht with rfl | ht
    · rfl
    · exact ih t ht

theorem Leads.exact {pre post : List (RefUpdate × CommandResult)} {cmd : RefUpdate} {name : Str}
    {altRef old new : Option Str} (hl : l = pre ++ (cmd, .ok name altRef old new) :: post) :
    Exact disagreed (applyResults refs (pre.map snd)) cmd altRef old new := by
  induction h generalizing pre with
  | nil _ => exact absurd hl (by simp)
  | @ng refs _ cmd' reason l _ ih =>
    cases pre with
    | nil => exact absurd (cons.inj hl).1 (by simp)
    | cons t pre =>
      obtain ⟨rfl, htl⟩ := cons.inj hl
      have hex := ih htl
      exact hex
  | @ok refs _ cmd' altRef' old' new' l hex _ ih =>
    cases pre with
    | nil =>
      obtain ⟨heq, -⟩ := cons.inj hl
      obtain ⟨rfl, hok⟩ := mk.inj heq
      obtain ⟨-, rfl, rfl, rfl⟩ := ok.inj hok
      exact hex
    | cons t pre =>
      obtain ⟨rfl, htl⟩ := cons.inj hl
      exact ih htl

theorem Leads.get?_eq {ref : Str}
    (hoth : ∀ t ∈ l, ∀ name altRef old new, t.2 = .ok name altRef old new →
      altRef.getD name ≠ ref) :
    refs'.get? ref = refs.get? ref := by
  induction h with
  | nil _ => rfl
  | ng _ ih => exact ih fun t ht => hoth t (.tail _ ht)
  | @ok refs _ cmd altRef old new _ _ _ ih =>
    have hne : altRef.getD cmd.name ≠ ref := hoth _ (.head _) _ _ _ _ rfl
    calc _ = (refs.patchOne (altRef.getD cmd.name, new)).get? ref :=
          ih fun t ht => hoth t (.tail _ ht)
      _ = refs.get? ref := by rw [get?_patchOne, if_neg hne.symm]

end Leads

/-! ### One command -/

theorem norm_eq_self {oid : Str} (h : isZero oid = false) : norm (some oid) = oid := by
  rw [norm, if_neg (by rw [h]; exact Bool.false_ne_true)]

theorem norm_zeroOid (n : ℕ) : norm (some (zeroOid n)) = absent := by
  cases n with
  | zero => rfl
  | succ n =>
    have hz : isZero (zeroOid (n + 1)) := by
      simp [isZero, zeroOid, replicate_succ]
    rw [norm, if_pos hz]

theorem norm_value (u : RefUpdate) : norm u.value = norm (some u.newOid) := by
  unfold value
  split
  · next hz => rw [norm, norm, if_pos hz]
  · rfl

theorem norm_old (u : RefUpdate) : norm u.old = norm (some u.oldOid) := by
  unfold old
  split
  · next hemp =>
    rw [isEmpty_iff.mp hemp]
    rfl
  · rfl

theorem isZero_norm (oid : Option Str) : isZero (norm oid) = false := by
  cases oid with
  | none => rfl
  | some oid =>
    rw [norm]
    split
    · rfl
    · next h => simpa using h

structure Viewed (disagreed : SortedSet Str) (refs : Refs) (eff : Refs) : Prop where
  value : ∀ name, name ∉ disagreed → valueOf eff name = norm (refs.get? name)
  normal : ∀ name, isZero (valueOf eff name) = false

section Judge

variable {R : Rules} {disagreed : SortedSet Str} {refs eff : Refs} {push : PushRequest}
  {cmd update : RefUpdate} {altRef : Option Str} {created : Option (Str × Str)}

theorem judgeMove_accepted {base : Str}
    (h : judgeMove R cmd base = .ok (.accepted update altRef created)) :
    update = ⟨cmd.name, base, cmd.newOid⟩ ∧ altRef = none := by
  rw [judgeMove] at h
  obtain ⟨forward, -, h⟩ := bind_ok.mp h
  split at h
  · cases h
  · obtain ⟨here, -, h⟩ := bind_ok.mp h
    split at h
    · cases h
    · obtain ⟨rfl, rfl, -⟩ := accepted.inj (Except.ok.inj h)
      exact ⟨rfl, rfl⟩

/-- A commit that the server makes. -/
def Git.Makes (git : Git) (oid : Str) : Prop :=
  ∃ tree parents message author, git.commitTree tree parents message author = .ok oid

theorem judgeDiverged_accepted {targetRef base head : Str}
    (h : judgeDiverged R push targetRef base head = .ok (.accepted update altRef created)) :
    update.name = targetRef ∧ update.oldOid = base ∧ R.git.Makes update.newOid ∧
      altRef = some targetRef := by
  rw [judgeDiverged] at h
  obtain ⟨outcome, -, h⟩ := bind_ok.mp h
  cases outcome with
  | conflict paths => cases h
  | clean tree =>
    obtain ⟨commit, hcom, h⟩ := bind_ok.mp h
    obtain ⟨rfl, rfl, -⟩ := accepted.inj (Except.ok.inj h)
    exact ⟨rfl, rfl, ⟨_, _, _, _, hcom⟩, rfl⟩

theorem judgeMerge_accepted {target : Str}
    (h : judgeMerge R eff disagreed push cmd target = .ok (.accepted update altRef created)) :
    update.name = fullRef target ∧ fullRef target ∉ disagreed ∧ altRef = some (fullRef target) ∧
      (update.newOid = cmd.newOid ∨ R.git.Makes update.newOid) ∧
      (update.oldOid = valueOf eff (fullRef target) ∨
        valueOf eff (fullRef target) = absent ∧ ∃ n, update.oldOid = zeroOid n) := by
  simp only [judgeMerge] at h
  split at h
  · cases h
  next hagr =>
  split at h
  · cases h
  split at h
  · next hemp =>
    -- the target does not exist
    split at h
    · cases h
    · obtain ⟨here, -, h⟩ := bind_ok.mp h
      split at h
      · cases h
      · obtain ⟨rfl, rfl, -⟩ := accepted.inj (Except.ok.inj h)
        exact ⟨rfl, hagr, rfl, .inl rfl, .inr ⟨isEmpty_iff.mp hemp, _, rfl⟩⟩
  · obtain ⟨here, -, h⟩ := bind_ok.mp h
    split at h
    · cases h
    obtain ⟨contained, -, h⟩ := bind_ok.mp h
    split at h
    · cases h
    obtain ⟨forward, -, h⟩ := bind_ok.mp h
    split at h
    · obtain ⟨rfl, rfl, -⟩ := accepted.inj (Except.ok.inj h)
      exact ⟨rfl, hagr, rfl, .inl rfl, .inl rfl⟩
    · obtain ⟨hna, hold, hmakes, halt⟩ := judgeDiverged_accepted h
      exact ⟨hna, hagr, halt, .inr hmakes, .inl hold⟩

theorem judge_exact (hvi : Viewed disagreed refs eff)
    (h : judge R eff disagreed push cmd = .ok (.accepted update altRef created)) :
    update.name = altRef.getD cmd.name ∧ (update.newOid = cmd.newOid ∨ R.git.Makes update.newOid) ∧
      Exact disagreed refs cmd altRef update.old update.value := by
  unfold judge at h
  split at h
  · cases h
  split at h
  · next target hstr =>
    obtain ⟨hna, hagr, rfl, hnew, hold⟩ := judgeMerge_accepted h
    have hv := hvi.value (fullRef target) hagr
    refine ⟨hna, hnew, hagr, ?_, fun hdir => absurd (hstr.symm.trans hdir) (by simp), ?_⟩
    · show norm update.old = norm (refs.get? (fullRef target))
      rw [norm_old, ← hv]
      rcases hold with hold | ⟨habs, n, hold⟩
      · rw [hold, norm_eq_self (hvi.normal _)]
      · rw [hold, norm_zeroOid, habs]
    · intro target' hstr'
      rw [mem_unique hstr' hstr]
  · next hstr =>
    split at h
    · cases h
    next hagr =>
    split at h
    · cases h
    next hfr =>
    rw [not_not] at hfr
    obtain ⟨rfl, rfl⟩ := judgeMove_accepted h
    have hv := hvi.value cmd.name hagr
    refine ⟨rfl, .inl rfl, hagr, ?_, fun _ => ⟨rfl, hfr.trans hv, rfl⟩, ?_⟩
    · show norm (old _) = norm (refs.get? cmd.name)
      rw [norm_old, norm_eq_self (hvi.normal _), hv]
    · exact fun target hstr' => absurd (hstr.symm.trans hstr') (by simp)

theorem Viewed.accept (hvi : Viewed disagreed refs eff) (u : RefUpdate) :
    Viewed disagreed (refs.patchOne (u.name, u.value))
      (eff.insert u.name (norm (some u.newOid))) := by
  have hins : ∀ name, valueOf (eff.insert u.name (norm (some u.newOid))) name =
      if name = u.name then norm (some u.newOid) else valueOf eff name := by
    intro name
    rw [valueOf, get?_insert]
    split
    · rfl
    · rfl
  refine ⟨fun name hagr => ?_, fun name => ?_⟩
  · rw [hins, get?_patchOne]
    split
    · exact (norm_value u).symm
    · exact hvi.value name hagr
  · rw [hins]
    split
    · exact isZero_norm _
    · exact hvi.normal name

end Judge

/-! ### One push -/

section Push

variable {R : Rules} {disagreed : SortedSet Str} {S : Refs} {j : Judging} {push : PushRequest}
  {cmd : RefUpdate} {t t' : Turn} {done : List RefUpdate}

theorem published_append (S : Refs) (accepted : List RefUpdate) (u : RefUpdate) :
    published S (accepted ++ [u]) = (published S accepted).patchOne (u.name, u.value) := by
  rw [published, foldl_append]
  rfl

structure TurnInv (disagreed : SortedSet Str) (S : Refs) (j : Judging) (push : PushRequest)
    (done : List RefUpdate) (t : Turn) : Prop where
  length : done.length = t.results.length
  leads : Leads disagreed (published S j.accepted) (done.zip t.results) (published S t.now.accepted)
  viewed : Viewed disagreed (published S t.now.accepted) t.now.eff
  accepted : j.accepted <+: t.now.accepted
  mergeTips : j.mergeTips <+: t.now.mergeTips
  before : push.atomic → ∀ name,
    (t.effBefore.get? name).getD (t.now.eff.get? name) = j.eff.get? name

theorem turnInv_start (hvi : Viewed disagreed (published S j.accepted) j.eff) :
    TurnInv disagreed S j push [] ⟨j, [], .empty⟩ where
  length := rfl
  leads := .nil _
  viewed := hvi
  accepted := prefix_rfl
  mergeTips := prefix_rfl
  before := fun _ _ => rfl

variable (h : TurnInv disagreed S j push done t)

include h

theorem TurnInv.refuse (reason : String) :
    TurnInv disagreed S j push (done ++ [cmd]) (t.refuse cmd reason) where
  length := by simp [Turn.refuse, h.length]
  leads := by
    rw [Turn.refuse, zip_append h.length]
    exact h.leads.append (.ng (.nil _))
  viewed := h.viewed
  accepted := h.accepted
  mergeTips := h.mergeTips
  before := h.before

theorem TurnInv.accept {update : RefUpdate} {altRef : Option Str} {created : Option (Str × Str)}
    (hjd : judge R t.now.eff disagreed push cmd = .ok (.accepted update altRef created)) :
    TurnInv disagreed S j push (done ++ [cmd]) (t.accept push cmd update altRef created) := by
  obtain ⟨hna, -, hex⟩ := judge_exact h.viewed hjd
  refine ⟨by simp [Turn.accept, h.length], ?_, ?_, ?_, ?_, fun hatomic name => ?_⟩
  · show Leads _ _ ((done ++ [cmd]).zip (t.results ++ [okOf cmd update altRef]))
      (published S (t.now.accepted ++ [update]))
    rw [zip_append h.length, published_append, hna]
    exact h.leads.append (.ok hex (.nil _))
  · show Viewed _ (published S (t.now.accepted ++ [update])) _
    rw [published_append]
    exact h.viewed.accept update
  · exact h.accepted.trans (prefix_append _ _)
  · exact h.mergeTips.trans (prefix_append _ _)
  · have hbef := h.before hatomic name
    show ((if push.atomic ∧ t.effBefore.get? update.name = none then
      t.effBefore.insert update.name (t.now.eff.get? update.name) else t.effBefore).get? name).getD
        ((t.now.eff.insert update.name (norm (some update.newOid))).get? name) = j.eff.get? name
    rw [get?_insert]
    by_cases heq : name = update.name
    · subst heq
      -- the first command that moves the ref has recorded its value
      cases hrcd : t.effBefore.get? update.name with
      | none =>
        rw [if_pos ⟨hatomic, rfl⟩, get?_insert, if_pos rfl]
        rw [hrcd] at hbef
        exact hbef
      | some v =>
        rw [if_neg (by simp), hrcd]
        rw [hrcd] at hbef
        exact hbef
    · rw [if_neg heq]
      split
      · rw [get?_insert, if_neg heq]
        exact hbef
      · exact hbef

theorem TurnInv.judgeCommand (hjd : judgeCommand R disagreed push t cmd = .ok t') :
    TurnInv disagreed S j push (done ++ [cmd]) t' := by
  unfold Forge.judgeCommand at hjd
  split at hjd
  · cases hjd
    exact h.refuse _
  · cases hjd
  · cases hjd
    exact h.refuse _
  · next hacc =>
    cases hjd
    exact h.accept hacc

omit h

theorem turnInv_commands (hvi : Viewed disagreed (published S j.accepted) j.eff)
    (h : push.commands.foldlM (judgeCommand R disagreed push) ⟨j, [], .empty⟩ = .ok t) :
    TurnInv disagreed S j push push.commands t := by
  -- what is done and what is to come are the commands of the push
  let P : List RefUpdate → Turn → Prop := fun rest t =>
    ∃ done, done ++ rest = push.commands ∧ TurnInv disagreed S j push done t
  have hst : P push.commands ⟨j, [], .empty⟩ := ⟨[], rfl, turnInv_start hvi⟩
  have hs : ∀ cmd rest t t', P (cmd :: rest) t →
      judgeCommand R disagreed push t cmd = .ok t' → P rest t' := by
    rintro cmd rest t t' ⟨done, hdn, hinv⟩ hjd
    exact ⟨done ++ [cmd], by rw [← hdn, append_assoc]; rfl, hinv.judgeCommand hjd⟩
  obtain ⟨done, hdn, hinv⟩ := foldlM_ok hs hst h
  rw [append_nil] at hdn
  rwa [hdn] at hinv

/-- What every command of the push that is accepted keeps, in the view it is judged against. -/
def Kept (R : Rules) (disagreed : SortedSet Str) (S : Refs) (push : PushRequest)
    (P : List RefUpdate → Prop) : Prop :=
  ∀ cmd ∈ push.commands, ∀ accepted eff update altRef created,
    Viewed disagreed (published S accepted) eff →
    judge R eff disagreed push cmd = .ok (.accepted update altRef created) →
    P accepted → P (accepted ++ [update])

theorem judgePush_kept {P : List RefUpdate → Prop} (hkp : Kept R disagreed S push P) {j' : Judging}
    {report : PushReport} (hvi : Viewed disagreed (published S j.accepted) j.eff)
    (hj : P j.accepted) (h : judgePush R disagreed j push = .ok (j', report)) : P j'.accepted := by
  obtain ⟨t, hcmds, h⟩ := bind_ok.mp h
  split at h
  · -- the push is taken back
    cases pure_ok.mp h
    have hacc := (turnInv_commands hvi hcmds).accepted
    exact (prefix_iff_eq_take.mp hacc) ▸ hj
  · cases pure_ok.mp h
    let Q : List RefUpdate → Turn → Prop := fun rest t =>
      P t.now.accepted ∧ rest ⊆ push.commands ∧ ∃ done, TurnInv disagreed S j push done t
    have hs : ∀ cmd rest t t', Q (cmd :: rest) t →
        judgeCommand R disagreed push t cmd = .ok t' → Q rest t' := by
      rintro cmd rest t t' ⟨hP, hsub, done, hinv⟩ hjd
      refine ⟨?_, fun c hc => hsub (.tail cmd hc), done ++ [cmd], hinv.judgeCommand hjd⟩
      unfold judgeCommand at hjd
      split at hjd
      · cases hjd
        exact hP
      · cases hjd
      · cases hjd
        exact hP
      · next hacc =>
        cases hjd
        exact hkp cmd (hsub (.head _)) _ _ _ _ _ hinv.viewed hacc hP
    exact (foldlM_ok hs ⟨hj, Subset.refl _, [], turnInv_start hvi⟩ hcmds).1

theorem leads_of_ng {refs : Refs} {l : List (RefUpdate × CommandResult)}
    (h : ∀ t ∈ l, ∃ reason, t.2 = .ng t.1.name reason) : Leads disagreed refs l refs := by
  induction l with
  | nil => exact .nil refs
  | cons t l ih =>
    obtain ⟨cmd, r⟩ := t
    obtain ⟨reason, hr⟩ := h (cmd, r) (.head _)
    rw [show r = .ng cmd.name reason from hr]
    exact .ng (ih fun t ht => h t (.tail _ ht))

theorem takeBack_eq (refused : List Str) (r : CommandResult) :
    ∃ reason, r.takeBack refused = .ng r.name reason := by
  cases r with
  | ok name altRef old new | ng name reason => exact ⟨_, rfl⟩

theorem mem_refusedWhole {results : List CommandResult} {r : CommandResult}
    (h : r ∈ refusedWhole results) : r.isNg := by
  obtain ⟨r', -, rfl⟩ := mem_map.mp h
  obtain ⟨reason, hreason⟩ := takeBack_eq _ r'
  rw [hreason]
  rfl

theorem leads_refusedWhole {refs : Refs} {results : List CommandResult}
    (hnms : ∀ t ∈ done.zip results, t.2.name = t.1.name) :
    Leads disagreed refs (done.zip (refusedWhole results)) refs := by
  refine leads_of_ng fun t ht => ?_
  rw [refusedWhole, zip_map_right] at ht
  obtain ⟨t', ht', rfl⟩ := mem_map.mp ht
  obtain ⟨reason, hreason⟩ := takeBack_eq _ t'.2
  exact ⟨reason, hreason.trans (by rw [hnms t' ht']; rfl)⟩

structure PushSpec (disagreed : SortedSet Str) (S : Refs) (j : Judging) (push : PushRequest)
    (j' : Judging) (report : PushReport) : Prop where
  id : report.id = push.id
  length : push.commands.length = report.results.length
  leads : Leads disagreed (published S j.accepted) (push.commands.zip report.results)
    (published S j'.accepted)
  viewed : Viewed disagreed (published S j'.accepted) j'.eff
  atomic : push.atomic → report.results.any isNg →
    j' = j ∧ ∀ r ∈ report.results, r.isNg

theorem judgePush_spec {j' : Judging} {report : PushReport}
    (hvi : Viewed disagreed (published S j.accepted) j.eff)
    (h : judgePush R disagreed j push = .ok (j', report)) :
    PushSpec disagreed S j push j' report := by
  obtain ⟨t, hcmds, h⟩ := bind_ok.mp h
  have hinv := turnInv_commands hvi hcmds
  split at h
  · next hback =>
    cases pure_ok.mp h
    -- everything that was shared is as it was
    have heff : restoreEff t.now.eff t.effBefore = j.eff := by
      refine ext_get? fun name => ?_
      rw [restoreEff, get?_patch]
      exact hinv.before hback.1 name
    have hacc : t.now.accepted.take j.accepted.length = j.accepted :=
      (prefix_iff_eq_take.mp hinv.accepted).symm
    have htips : t.now.mergeTips.take j.mergeTips.length = j.mergeTips :=
      (prefix_iff_eq_take.mp hinv.mergeTips).symm
    rw [heff, hacc, htips]
    refine ⟨rfl, ?_, leads_refusedWhole hinv.leads.name_eq, hvi, fun _ _ => ⟨rfl, ?_⟩⟩
    · rw [hinv.length, refusedWhole, length_map]
    · exact fun r hr => mem_refusedWhole hr
  · next hkp =>
    cases pure_ok.mp h
    refine ⟨rfl, hinv.length, hinv.leads, hinv.viewed, fun hatomic hng => ?_⟩
    exact absurd ⟨hatomic, hng⟩ hkp

end Push

/-! ### The batch -/

section Batch

variable {R : Rules} {disagreed : SortedSet Str} {S : Refs} {j j' : Judging}
  {pushes : List PushRequest} {reports : List PushReport}

def turns (pushes : List PushRequest) (reports : List PushReport) :
    List (RefUpdate × CommandResult) :=
  (pushes.flatMap PushRequest.commands).zip (reports.flatMap PushReport.results)

def Answered (pushes : List PushRequest) (reports : List PushReport) : Prop :=
  Forall₂ (fun push report => report.id = push.id ∧
    push.commands.length = report.results.length) pushes reports

theorem judgePushes_spec (hvi : Viewed disagreed (published S j.accepted) j.eff)
    (h : judgePushes R disagreed j pushes = .ok (j', reports)) :
    Answered pushes reports ∧
      Leads disagreed (published S j.accepted) (turns pushes reports) (published S j'.accepted) ∧
      Viewed disagreed (published S j'.accepted) j'.eff := by
  induction pushes generalizing j reports with
  | nil =>
    cases h
    exact ⟨.nil, .nil _, hvi⟩
  | cons push pushes ih =>
    obtain ⟨⟨j₁, report⟩, hpu, h⟩ := bind_ok.mp h
    obtain ⟨⟨j₂, rest⟩, hrs, h⟩ := bind_ok.mp h
    cases pure_ok.mp h
    have hsp := judgePush_spec hvi hpu
    obtain ⟨hans, hleads, hvw⟩ := ih hsp.viewed hrs
    refine ⟨.cons ⟨hsp.id, hsp.length⟩ hans, ?_, hvw⟩
    rw [turns, flatMap_cons, flatMap_cons, zip_append hsp.length]
    exact hsp.leads.append hleads

theorem judgePushes_kept {P : List RefUpdate → Prop}
    (hkp : ∀ push ∈ pushes, Kept R disagreed S push P)
    (hvi : Viewed disagreed (published S j.accepted) j.eff) (hj : P j.accepted)
    (h : judgePushes R disagreed j pushes = .ok (j', reports)) : P j'.accepted := by
  induction pushes generalizing j reports with
  | nil =>
    obtain ⟨rfl, -⟩ := mk.inj (Except.ok.inj h)
    exact hj
  | cons push pushes ih =>
    obtain ⟨⟨j₁, report⟩, hpu, h⟩ := bind_ok.mp h
    obtain ⟨⟨j₂, rest⟩, hrs, h⟩ := bind_ok.mp h
    cases pure_ok.mp h
    have hj₁ := judgePush_kept (hkp push (.head _)) hvi hj hpu
    exact ih (fun p hp => hkp p (.tail push hp)) (judgePush_spec hvi hpu).viewed
      hj₁ hrs

theorem judgePushes_append {pre post : List PushRequest} {push : PushRequest}
    (h : judgePushes R disagreed j (pre ++ push :: post) = .ok (j', reports)) :
    ∃ j₁ before j₂ report rest, judgePushes R disagreed j pre = .ok (j₁, before) ∧
      judgePush R disagreed j₁ push = .ok (j₂, report) ∧ reports = before ++ report :: rest := by
  induction pre generalizing j reports with
  | nil =>
    obtain ⟨⟨j₁, report⟩, hpu, h⟩ := bind_ok.mp h
    obtain ⟨⟨j₂, rest⟩, hrs, h⟩ := bind_ok.mp h
    cases pure_ok.mp h
    exact ⟨j, [], j₁, report, rest, rfl, hpu, rfl⟩
  | cons first pre ih =>
    obtain ⟨⟨j₁, report⟩, hpu, h⟩ := bind_ok.mp h
    obtain ⟨⟨j₂, rest⟩, hrs, h⟩ := bind_ok.mp h
    cases pure_ok.mp h
    obtain ⟨j₃, before, j₄, report', rest', hpre, hjd, rfl⟩ := ih hrs
    refine ⟨j₃, report :: before, j₄, report', rest', ?_, hjd, rfl⟩
    rw [judgePushes, hpu, ok_bind, hpre]
    rfl

theorem viewed_agree (here snap : Refs) : Viewed (agree here snap).2 snap (agree here snap).1 := by
  have hget : ∀ name, (agree here snap).1.get? name =
      if name ∈ here.keys ++ snap.keys then agreedValue here snap name else none := by
    intro name
    refine (get?_ofList_filterMap _ _ name).trans ?_
    exact if_congr (mem_rows.trans mem_ofList) rfl rfl
  refine ⟨fun name hagr => ?_, fun name => ?_⟩
  · rw [valueOf, hget]
    split
    · next hmem =>
      cases hv : agreedValue here snap name with
      | none =>
        refine absurd (mem_ofList.mpr (mem_filter.mpr ⟨?_, ?_⟩)) hagr
        · exact mem_rows.mpr (mem_ofList.mpr hmem)
        · rw [hv, isNone_none]
      | some oid =>
        unfold agreedValue at hv
        split at hv
        · next heq =>
          rw [← some.inj hv, heq]
          rfl
        · cases hv
    · next hmem =>
      -- a name that neither has
      have hno : snap.get? name = none := by
        rw [mem_append, not_or, SortedMap.mem_keys, SortedMap.mem_keys] at hmem
        exact not_isSome_iff_eq_none.mp hmem.2
      rw [hno]
      rfl
  · rw [valueOf, hget]
    split
    · unfold agreedValue
      split
      · exact isZero_norm _
      · rfl
    · rfl

theorem runBatch_ok {E : Env} {s s' : Server} (h : runBatch R E s pushes = (s', .ok reports)) :
    ∃ j, judgePushes R (agree s.localRefs s.snap).2 ⟨(agree s.localRefs s.snap).1, [], []⟩ pushes =
      .ok (j, reports) ∧ s'.snap = published s.snap j.accepted := by
  unfold runBatch at h
  split at h
  · cases h
  split at h
  · next hemp =>
    obtain ⟨rfl, hreps⟩ := mk.inj h
    rw [isEmpty_iff.mp hemp, ← Except.ok.inj hreps]
    exact ⟨_, rfl, rfl⟩
  · simp only at h
    split at h
    · cases h
    · next j reports' hjd =>
      split at h
      · next hno =>
        obtain ⟨rfl, hreps⟩ := mk.inj h
        rw [← Except.ok.inj hreps]
        exact ⟨j, hjd, by rw [isEmpty_iff.mp hno]; rfl⟩
      · unfold publish at h
        split at h
        · cases h
        · have hln : land E { s with snap := published s.snap j.accepted } j reports' =
              (s', .ok reports) := by
            simp only at h
            split at h
            · next hcas => simpa [hcas, CasAnswer.landed] using h
            · next hcas => simpa [hcas, CasAnswer.landed] using h
            · cases h
            · cases h
          unfold land at hln
          split at hln
          · obtain ⟨rfl, hreps⟩ := mk.inj hln
            rw [← Except.ok.inj hreps]
            exact ⟨j, hjd, rfl⟩
          · cases hln

def RefUpdate.moves (cmd : RefUpdate) : Str :=
  match Str.stripPrefix forDir cmd.name with
  | some target => fullRef target
  | none => cmd.name

theorem Exact.moves_eq {refs : Refs} {cmd : RefUpdate} {altRef old new : Option Str}
    (h : Exact disagreed refs cmd altRef old new) : altRef.getD cmd.name = cmd.moves := by
  unfold moves
  split
  · next target hstr => rw [h.proposal target hstr, getD_some]
  · next hstr => rw [(h.direct hstr).1, getD_none]

structure ReportsExact (disagreed : SortedSet Str) (S P : Refs) (pushes : List PushRequest)
    (reports : List PushReport) : Prop where
  answered : Answered pushes reports
  names : ∀ t ∈ turns pushes reports, t.2.name = t.1.name
  /-- What is published are the refs before with the `ok` commands applied, in the order of arrival.
  -/
  refs : P = applyResults S ((turns pushes reports).map snd)
  /-- An `ok` command replaces the value that the ones before it have left. -/
  exact : ∀ pre cmd name altRef old new post,
    turns pushes reports = pre ++ (cmd, .ok name altRef old new) :: post →
      Exact disagreed (applyResults S (pre.map snd)) cmd altRef old new
  stale : ∀ pre cmd r post, turns pushes reports = pre ++ (cmd, r) :: post →
    Str.stripPrefix forDir cmd.name = none →
    norm (some cmd.oldOid) ≠ norm ((applyResults S (pre.map snd)).get? cmd.name) → r.isNg
  unsettled : ∀ t ∈ turns pushes reports, t.1.moves ∈ disagreed → t.2.isNg
  /-- A ref that no `ok` command moves is as it was. -/
  others : ∀ ref, (∀ t ∈ turns pushes reports, t.2.isNg = false → t.1.moves ≠ ref) →
    P.get? ref = S.get? ref

theorem Leads.reportsExact {P : Refs} (hans : Answered pushes reports)
    (h : Leads disagreed S (turns pushes reports) P) :
    ReportsExact disagreed S P pushes reports where
  answered := hans
  names := h.name_eq
  refs := h.eq_applyResults
  exact := fun _ _ _ _ _ _ _ hl => h.exact hl
  stale := by
    intro pre cmd r post hl hdir hstl
    cases r with
    | ng name reason => rfl
    | ok name altRef old new => exact absurd ((h.exact hl).direct hdir).2.1 hstl
  unsettled := by
    intro t ht hmem
    obtain ⟨pre, post, hl⟩ := append_of_mem ht
    obtain ⟨cmd, r⟩ := t
    cases r with
    | ng name reason => rfl
    | ok name altRef old new =>
      have hex := h.exact hl
      exact absurd (hex.moves_eq ▸ hmem) hex.agreed
  others := by
    intro ref hoth
    refine h.get?_eq fun t ht name altRef old new hok => ?_
    obtain ⟨pre, post, hl⟩ := append_of_mem ht
    obtain ⟨cmd, r⟩ := t
    obtain rfl : r = .ok name altRef old new := hok
    have hna : name = cmd.name := h.name_eq _ ht
    rw [hna, (h.exact hl).moves_eq]
    exact hoth _ ht rfl

/-- **The reports of a batch are exact.** What an answered batch leaves in the bucket is what its
reports say, command by command; and an atomic push with a refused command has all of them refused
and leaves the judging as it was. -/
theorem batch_reports_exact (R : Rules) (E : Env) (s s' : Server) (pushes : List PushRequest)
    (reports : List PushReport) (h : runBatch R E s pushes = (s', .ok reports)) :
    ReportsExact (agree s.localRefs s.snap).2 s.snap s'.snap pushes reports ∧
      ∀ pre push post, pushes = pre ++ push :: post →
        ∃ j before j' report rest,
          judgePushes R (agree s.localRefs s.snap).2 ⟨(agree s.localRefs s.snap).1, [], []⟩ pre =
            .ok (j, before) ∧
          judgePush R (agree s.localRefs s.snap).2 j push = .ok (j', report) ∧
          reports = before ++ report :: rest ∧
          (push.atomic → report.results.any isNg →
            j' = j ∧ ∀ r ∈ report.results, r.isNg) := by
  obtain ⟨j, hjd, hsn⟩ := runBatch_ok h
  have hvi := viewed_agree s.localRefs s.snap
  constructor
  · obtain ⟨hans, hleads, -⟩ := judgePushes_spec hvi hjd
    rw [hsn]
    exact hleads.reportsExact hans
  · rintro pre push post rfl
    obtain ⟨j₁, before, j₂, report, rest, hpre, hpu, hreps⟩ := judgePushes_append hjd
    refine ⟨j₁, before, j₂, report, rest, hpre, hpu, hreps, ?_⟩
    obtain ⟨-, -, hvw⟩ := judgePushes_spec hvi hpre
    exact (judgePush_spec hvw hpu).atomic

end Batch

def linearRules : Rules where
  git := ⟨fun a b => .ok (decide (a < b)), fun _ => .ok true, fun _ _ _ => .ok (.clean absent),
    fun _ _ _ _ => .ok (.single '9')⟩
  policy := ⟨[], .empty, .empty, none, []⟩
  defaultBranch := .single 'm'

def quietEnv : Env := ⟨fun _ _ => .ok none, .ok (), fun _ _ => .ok (), fun _ => .ok (), .done,
  fun refs _ => .ok refs⟩

def mainRef : Str := headsDir.append (.single 'm')

def mainAtOne : Server := ⟨none, .ofList [(mainRef, .single '1')], .ofList [(mainRef, .single '1')]⟩

/-- An atomic push with a stale command is refused whole, and the next push moves the branch. -/
theorem batch_reported :
    let stale : PushRequest := ⟨1, absent, [], true, [⟨mainRef, .single '1', .single '3'⟩,
      ⟨mainRef, .single '1', .single '4'⟩], []⟩
    let push : PushRequest := ⟨2, absent, [], false, [⟨mainRef, .single '1', .single '2'⟩], []⟩
    ∃ s' reports, runBatch linearRules quietEnv mainAtOne [stale, push] = (s', .ok reports) ∧
      s'.snap.get? mainRef = some (.single '2') ∧
      reports.map (fun r => r.results.map isNg) = [[true, true], [false]] ∧
      ReportsExact (agree mainAtOne.localRefs mainAtOne.snap).2 mainAtOne.snap s'.snap [stale, push]
        reports := by
  refine ⟨_, _, rfl, by decide, by decide, ?_⟩
  exact (batch_reports_exact linearRules quietEnv mainAtOne _ _ _ rfl).1

/-- A proposal that came with the old value `9` is `ok`: neither its target nor the ref it names has
this value. -/
theorem proposal_old_value_not_read :
    let cmd : RefUpdate := ⟨forDir.append (.single 'm'), .single '9', .single '2'⟩
    (runBatch linearRules quietEnv mainAtOne [⟨1, absent, [], false, [cmd], []⟩]).2.toOption =
        some [⟨1, [.ok cmd.name (some mainRef) (some (.single '1')) (some (.single '2'))]⟩] ∧
      norm (some cmd.oldOid) ≠ norm (mainAtOne.snap.get? mainRef) ∧
      norm (some cmd.oldOid) ≠ norm (mainAtOne.snap.get? cmd.name) := by
  decide

end Flint.Forge
