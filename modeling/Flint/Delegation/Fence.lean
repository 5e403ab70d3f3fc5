import Flint.Basic.Outcome
import Flint.Delegation.Views

/-!
# The fence keeps other holders out

`Inv` ties the manager to the guards that are held. The count in the entry of a file is at least the
number of guards held on it, so the entry stays in the map as long as one of them is; a file with a
count above zero has no granted record; and a guard whose mutation went ahead has no foreign record
beside it that is not revoked.
-/

namespace Flint.Delegation

open StateIds (StateId Other Bytes)
open DelegationManager Outcome Function System List

inductive Call
  | tryGrant (ident : FileId) (clientId : UInt64) (fh : Bytes) (precheck : Bool) (mint : StateId)
      (now : ℕ)
  | mutationFence (ident : FileId) (mutator : Option UInt64) (truncate : Bool)
      (holderLeaseExpired : UInt64 → Bool)
  | dropGuard (n : ℕ)
  | noteRecallAcked (stateid : StateId)
  | returnDelegation (stateid : StateId) (now : ℕ)
  | revoke (stateid : StateId) (now : ℕ)
  | resolveDisown (stateid : StateId) (now : ℕ)
  | freeRevoked (stateid : StateId)
  | cleanupClientDelegations (clientId : UInt64)

def Call.drops : Call → Option ℕ
  | .dropGuard n => some n
  | _ => none

structure System where
  manager : DelegationManager
  held : List (Option MutationGuard)

namespace System

variable (maxPerClient maxGlobal : UInt64)

def new (cooldown : ℕ) : System := ⟨withLimits maxPerClient maxGlobal cooldown, []⟩

def step (s : System) : Call → System
  | .tryGrant ident clientId fh precheck mint now =>
    match s.manager.tryGrant ident clientId fh precheck mint now with
    | some (_, m) => { s with manager := m }
    | none => s
  | .mutationFence ident mutator truncate holderLeaseExpired =>
    match s.manager.mutationFence mutator truncate holderLeaseExpired ident with
    | some (outcome, m) => ⟨m, s.held ++ [some outcome.guard]⟩
    | none => s
  | .dropGuard n =>
    match s.held[n]? with
    | some (some g) => ⟨(s.manager.dropGuard g).2, s.held.set n none⟩
    -- nobody holds this guard
    | _ => s
  | .noteRecallAcked stateid => { s with manager := s.manager.noteRecallAcked stateid }
  | .returnDelegation stateid now =>
    { s with manager := (s.manager.returnDelegation stateid now).2 }
  | .revoke stateid now => { s with manager := (s.manager.revoke stateid now).2 }
  | .resolveDisown stateid now => { s with manager := (s.manager.resolveDisown stateid now).2 }
  | .freeRevoked stateid => { s with manager := (s.manager.freeRevoked stateid).2 }
  | .cleanupClientDelegations clientId =>
    { s with manager := (s.manager.cleanupClientDelegations clientId).2 }

def guardsOn (s : System) (ident : FileId) : ℕ := s.held.countP fun o => o.any (·.ident = ident)

/-! ### The invariant -/

structure Inv (s : System) : Prop where
  linked : s.manager.Linked
  arc : ∀ {n : ℕ} {g : MutationGuard}, s.held[n]? = some (some g) →
    s.manager.files.get? g.ident = some g.entry
  counted : ∀ ident, s.guardsOn ident ≤ (s.manager.view ident).liveGuards
  shared : ∀ {ident}, 0 < (s.manager.view ident).liveGuards →
    ∀ r ∈ s.manager.recordsOn ident, r.state ≠ .granted
  /-- A mutation that went ahead has nothing foreign beside it. -/
  exclusive : ∀ {n : ℕ} {g : MutationGuard}, s.held[n]? = some (some g) → g.checked →
    ∀ r ∈ s.manager.recordsOn g.ident, some r.clientId ≠ g.mutator → r.state = .revoked

variable {s : System}

theorem inv_new (cooldown : ℕ) : (new maxPerClient maxGlobal cooldown).Inv where
  linked := linked_withLimits maxPerClient maxGlobal cooldown
  arc h := by cases h
  counted _ := Nat.le_refl 0
  shared h := absurd h (Nat.lt_irrefl 0)
  exclusive h := by cases h

variable {n : ℕ} {g : MutationGuard}

theorem Inv.guards_pos (h : s.Inv) (hg : s.held[n]? = some (some g)) :
    0 < (s.manager.view g.ident).liveGuards := by
  apply lt_of_lt_of_le _ (h.counted g.ident)
  apply countP_pos_iff.mpr
  exact ⟨some g, mem_of_getElem? hg, by simp⟩

variable {m : DelegationManager}

theorem Inv.settling (h : s.Inv) (hm : Settling s.manager m) : Inv { s with manager := m } where
  linked := hm.linked
  arc hg := hm.arcs (h.arc hg) (h.guards_pos hg)
  counted ident := (h.counted ident).trans (hm.settles ident).guards.ge
  shared := by
    intro ident hpos r' hr' hgrd
    obtain ⟨r, hr, hset⟩ := (hm.settles ident).records r' hr'
    exact h.shared ((hm.settles ident).guards ▸ hpos) r hr (hset.of_granted hgrd)
  exclusive := by
    intro n g hg hchk r' hr' hoth
    obtain ⟨r, hr, hset⟩ := (hm.settles g.ident).records r' hr'
    rw [hset.clientId] at hoth
    exact hset.of_revoked (h.exclusive hg hchk r hr hoth)

theorem Inv.granted (h : s.Inv) {ident : FileId} {e : FileEntry}
    (hz : (s.manager.view ident).liveGuards = 0)
    (hm : Follows s.manager m (update s.manager.view ident e)) (he : e.liveGuards = 0) :
    Inv { s with manager := m } := by
  have hfi : ∀ a, a ≠ ident → m.view a = s.manager.view a := fun a ha => by
    rw [hm.view, update_of_ne ha]
  have hid : m.view ident = e := by
    rw [hm.view, update_self]
  -- the file of a guard is another one
  have hne : ∀ {n : ℕ} {g : MutationGuard}, s.held[n]? = some (some g) → g.ident ≠ ident := by
    rintro n g hg rfl
    exact absurd (h.guards_pos hg) (by omega)
  refine ⟨hm.linked, ?_, ?_, ?_, ?_⟩
  · intro n g hg
    refine hm.arcs (h.arc hg) ?_
    rw [hfi _ (hne hg)]
    exact h.guards_pos hg
  · intro a
    by_cases ha : a = ident
    · subst ha
      change s.guardsOn a ≤ (m.view a).liveGuards
      rw [hid, he, ← hz]
      exact h.counted a
    · exact (h.counted a).trans_eq (congrArg FileEntry.liveGuards (hfi a ha).symm)
  · intro a hpos
    have ha : a ≠ ident := by
      rintro rfl
      change 0 < (m.view a).liveGuards at hpos
      rw [hid, he] at hpos
      exact absurd hpos (Nat.lt_irrefl 0)
    change ∀ r ∈ (m.view a).records, r.state ≠ .granted
    rw [hfi a ha] at hpos ⊢
    exact h.shared hpos
  · intro n g hg hchk
    change ∀ r ∈ (m.view g.ident).records, _
    rw [hfi _ (hne hg)]
    exact h.exclusive hg hchk

variable {truncate : Bool} {r r' : DelegRecord}

theorem not_granted_of_recalled (h : Recalled truncate r r') : r'.state ≠ .granted := by
  cases h with
  | kept h => exact h
  | recalled => exact nofun

theorem revoked_of_recalled (h : Recalled truncate r r') (hr : r.state = .revoked) :
    r'.state = .revoked := by
  cases h with
  | kept => exact hr
  | recalled h => exact absurd (hr.symm.trans h) (by decide)

theorem clientId_of_recalled (h : Recalled truncate r r') : r'.clientId = r.clientId := by
  cases h <;> rfl

theorem held_snoc {g' : MutationGuard} (hg : (s.held ++ [some g'])[n]? = some (some g)) :
    s.held[n]? = some (some g) ∨ g = g' := by
  rw [getElem?_append] at hg
  split at hg
  · exact .inl hg
  · have hmem := mem_of_getElem? hg
    exact .inr (Option.some.inj (mem_singleton.mp hmem))

theorem Inv.fenced (h : s.Inv) {ident : FileId} {mutator : Option UInt64} {outcome : FenceOutcome}
    (hm : Fenced s.manager ident mutator truncate outcome m) :
    Inv ⟨m, s.held ++ [some outcome.guard]⟩ := by
  refine ⟨hm.linked, ?_, ?_, ?_, ?_⟩
  · intro n g hg
    rcases held_snoc hg with hg | rfl
    · exact hm.arcs (h.arc hg)
    · rw [hm.guard_ident]
      exact hm.entry
  · intro a
    change (s.held ++ [some outcome.guard]).countP _ ≤ (m.view a).liveGuards
    rw [countP_append, countP_singleton]
    by_cases ha : a = ident
    · subst ha
      rw [hm.guards]
      apply Nat.add_le_add (h.counted a)
      split <;> decide
    · have hoth : ¬(some outcome.guard).any (·.ident = a) := by
        simpa [hm.guard_ident] using Ne.symm ha
      rw [if_neg hoth, hm.others a ha]
      exact h.counted a
  · intro a hpos
    by_cases ha : a = ident
    · subst ha
      intro r' hr'
      obtain ⟨r, -, hrcl⟩ := hm.recalled r' hr'
      exact not_granted_of_recalled hrcl
    · change ∀ r ∈ (m.view a).records, r.state ≠ .granted
      change 0 < (m.view a).liveGuards at hpos
      rw [hm.others a ha] at hpos ⊢
      exact h.shared hpos
  · intro n g hg hchk
    rcases held_snoc hg with hg | rfl
    · by_cases ha : g.ident = ident
      · -- a guard that is already there: the consult adds no record
        intro r' hr' hoth
        rw [ha] at hr'
        obtain ⟨r, hr, hrcl⟩ := hm.recalled r' hr'
        rw [clientId_of_recalled hrcl] at hoth
        rw [← ha] at hr
        exact revoked_of_recalled hrcl (h.exclusive hg hchk r hr hoth)
      · change ∀ r ∈ (m.view g.ident).records, _
        rw [hm.others _ ha]
        exact h.exclusive hg hchk
    · rw [hm.guard_ident, hm.guard_mutator]
      exact hm.exclusive (hm.armed.mp hchk)

theorem held_set {k : ℕ} (hg : (s.held.set k none)[n]? = some (some g)) :
    n ≠ k ∧ s.held[n]? = some (some g) := by
  rw [getElem?_set] at hg
  split at hg
  · split at hg <;> cases hg
  · next hne => exact ⟨Ne.symm hne, hg⟩

theorem recordsOn_dropGuard {d : MutationGuard}
    (hm : Follows s.manager (s.manager.dropGuard d).2 (update s.manager.view d.ident
      { s.manager.view d.ident with liveGuards := (s.manager.view d.ident).liveGuards - 1 }))
    (a : FileId) : (s.manager.dropGuard d).2.recordsOn a = s.manager.recordsOn a := by
  unfold recordsOn
  rw [hm.view]
  by_cases ha : a = d.ident
  · subst ha
    rw [update_self]
  · rw [update_of_ne ha]

theorem Inv.dropped (h : s.Inv) {k : ℕ} {d : MutationGuard} (hd : s.held[k]? = some (some d)) :
    Inv ⟨(s.manager.dropGuard d).2, s.held.set k none⟩ := by
  have hm := dropGuard_spec h.linked (h.arc hd)
  obtain ⟨hlt, hget⟩ := List.getElem?_eq_some_iff.mp hd
  have hcnt : ∀ a, (s.held.set k none).countP (fun o => o.any (·.ident = a)) ≤
      ((s.manager.dropGuard d).2.view a).liveGuards := by
    intro a
    have hle := h.counted a
    unfold guardsOn at hle
    rw [countP_set hlt, hm.view, hget]
    by_cases ha : a = d.ident
    · subst ha
      rw [update_self]
      simpa using Nat.sub_le_sub_right hle 1
    · rw [update_of_ne ha]
      simpa [Ne.symm ha] using hle
  refine ⟨hm.linked, ?_, hcnt, ?_, ?_⟩
  · intro n g hg
    refine hm.arcs (h.arc (held_set hg).2) ((hcnt g.ident).trans_lt' ?_)
    exact countP_pos_iff.mpr ⟨some g, mem_of_getElem? hg, by simp⟩
  · intro a hpos
    change ∀ r ∈ (s.manager.dropGuard d).2.recordsOn a, r.state ≠ .granted
    rw [recordsOn_dropGuard hm]
    apply h.shared
    change 0 < ((s.manager.dropGuard d).2.view a).liveGuards at hpos
    rw [hm.view] at hpos
    by_cases ha : a = d.ident
    · subst ha
      rw [update_self] at hpos
      exact hpos.trans_le (Nat.sub_le _ 1)
    · rwa [update_of_ne ha] at hpos
  · intro n g hg hchk
    change ∀ r ∈ (s.manager.dropGuard d).2.recordsOn g.ident, _
    rw [recordsOn_dropGuard hm]
    exact h.exclusive (held_set hg).2 hchk

inductive Stepped (s : System) : System → Prop
  | settled {m : DelegationManager} (hm : Settling s.manager m) : Stepped s { s with manager := m }
  | granted {m : DelegationManager} {ident : FileId} {e : FileEntry}
      (hz : (s.manager.view ident).liveGuards = 0)
      (hm : Follows s.manager m (update s.manager.view ident e)) (he : e.liveGuards = 0)
      (hall : ∀ r ∈ e.records, r.state = .granted) : Stepped s { s with manager := m }
  | fenced {m : DelegationManager} {ident : FileId} {mutator : Option UInt64} {truncate : Bool}
      {outcome : FenceOutcome} (hm : Fenced s.manager ident mutator truncate outcome m) :
      Stepped s ⟨m, s.held ++ [some outcome.guard]⟩
  | dropped {k : ℕ} {d : MutationGuard} (hd : s.held[k]? = some (some d)) :
      Stepped s ⟨(s.manager.dropGuard d).2, s.held.set k none⟩

theorem Inv.stepped (h : s.Inv) (call : Call) : Stepped s (s.step call) := by
  cases call with
  | tryGrant ident clientId fh precheck mint now =>
    unfold step
    dsimp only
    split
    · next answer m hgr =>
      cases answer with
      | error refusal => exact .settled (tryGrant_refused h.linked hgr)
      | ok stateid =>
        obtain ⟨hz, -, e, hm, he, hall⟩ := tryGrant_granted h.linked hgr
        exact .granted hz hm he hall
    · exact .settled h.linked.settling_refl
  | mutationFence ident mutator truncate holderLeaseExpired =>
    obtain ⟨outcome, m, hfen, hm⟩ := mutationFence_spec h.linked mutator truncate
      holderLeaseExpired ident
    simp only [step, hfen]
    exact .fenced hm
  | dropGuard n =>
    unfold step
    dsimp only
    split
    · next hd => exact .dropped hd
    · exact .settled h.linked.settling_refl
  | noteRecallAcked => exact .settled (noteRecallAcked_settling h.linked _)
  | returnDelegation => exact .settled (returnDelegation_settling h.linked _ _)
  | revoke => exact .settled (revoke_settling h.linked _ _)
  | resolveDisown => exact .settled (resolveDisown_settling h.linked _ _)
  | freeRevoked => exact .settled (freeRevoked_settling h.linked _)
  | cleanupClientDelegations => exact .settled (cleanupClientDelegations_settling h.linked _)

theorem Inv.step (h : s.Inv) (call : Call) : (s.step call).Inv := by
  have hs := h.stepped call
  generalize s.step call = s' at hs
  cases hs with
  | settled hm => exact h.settling hm
  | granted hz hm he => exact h.granted hz hm he
  | fenced hm => exact h.fenced hm
  | dropped hd => exact h.dropped hd

theorem inv_run (cooldown : ℕ) (calls : List Call) :
    (run step (new maxPerClient maxGlobal cooldown) calls).Inv :=
  run_invariant (P := Inv) (fun _ call h => Inv.step h call) (inv_new _ _ _) calls

/-! ### Along a run -/

theorem held_step (hg : s.held[n]? = some (some g)) {call : Call} (hca : call.drops ≠ some n) :
    (s.step call).held[n]? = some (some g) := by
  cases call with
  | tryGrant ident clientId fh precheck mint now =>
    unfold step
    dsimp only
    split <;> exact hg
  | mutationFence ident mutator truncate holderLeaseExpired =>
    unfold step
    dsimp only
    split
    · exact (getElem?_append_left (List.getElem?_eq_some_iff.mp hg).1).trans hg
    · exact hg
  | dropGuard k =>
    have hne : k ≠ n := fun hkn => hca (congrArg some hkn)
    unfold step
    dsimp only
    split
    · exact (getElem?_set_ne hne).trans hg
    · exact hg
  | noteRecallAcked | returnDelegation | revoke | resolveDisown | freeRevoked
  | cleanupClientDelegations => exact hg

theorem held_run {calls : List Call} (hg : s.held[n]? = some (some g))
    (hcs : ∀ call ∈ calls, call.drops ≠ some n) :
    (run step s calls).held[n]? = some (some g) := by
  induction calls generalizing s with
  | nil => exact hg
  | cons call calls ih =>
    have hs := held_step hg (hcs call (.head _))
    exact ih hs fun c hc => hcs c (.tail call hc)

def RevokedFromRecall (s s' : System) : Prop :=
  ∀ ident, ∀ r ∈ s'.manager.recordsOn ident, r.state = .revoked →
    r ∈ s.manager.recordsOn ident ∨
      ∃ r₀ ∈ s.manager.recordsOn ident, (r₀.state = .recallPending ∨ r₀.state = .recallAcked) ∧
        r = { r₀ with state := .revoked }

theorem Inv.revokedFromRecall (h : s.Inv) (call : Call) : RevokedFromRecall s (s.step call) := by
  have hs := h.stepped call
  generalize s.step call = s' at hs
  intro a r' hr' hrev
  cases hs with
  | settled hm =>
    obtain ⟨r, hr, hset⟩ := (hm.settles a).records r' hr'
    cases hset with
    | same => exact .inl hr
    | acked => cases hrev
    | revoked hrecall => exact .inr ⟨r, hr, hrecall, rfl⟩
  | @granted m ident _ _ hm _ hall =>
    change r' ∈ (m.view a).records at hr'
    rw [hm.view] at hr'
    by_cases ha : a = ident
    · subst ha
      rw [update_self] at hr'
      exact absurd ((hall r' hr').symm.trans hrev) (by decide)
    · rw [update_of_ne ha] at hr'
      exact .inl hr'
  | @fenced m ident _ _ _ hm =>
    by_cases ha : a = ident
    · subst ha
      obtain ⟨r, hr, hrcl⟩ := hm.recalled r' hr'
      cases hrcl with
      | kept => exact .inl hr
      | recalled => cases hrev
    · change r' ∈ (m.view a).records at hr'
      rw [hm.others a ha] at hr'
      exact .inl hr'
  | dropped hd =>
    change r' ∈ (s.manager.dropGuard _).2.recordsOn a at hr'
    rw [recordsOn_dropGuard (dropGuard_spec h.linked (h.arc hd))] at hr'
    exact .inl hr'

/-- **The fence keeps other holders out.** From the moment a consult lets a mutation go ahead until
its guard is dropped, no other client has a record on the file that is not a tombstone. -/
theorem fence_excludes_foreign_holders (cooldown : ℕ) (calls : List Call) :
    let s := run step (new maxPerClient maxGlobal cooldown) calls
    (∀ ident mutator truncate holderLeaseExpired outcome m (later : List Call),
      s.manager.mutationFence mutator truncate holderLeaseExpired ident = some (outcome, m) →
      outcome.Proceeds → (∀ call ∈ later, call.drops ≠ some s.held.length) →
      ∀ r ∈ (run step (s.step (.mutationFence ident mutator truncate holderLeaseExpired))
          later).manager.recordsOn ident,
        some r.clientId ≠ mutator → r.state = .revoked) ∧
    (∀ (n : ℕ) g, s.held[n]? = some (some g) →
      ∀ r ∈ s.manager.recordsOn g.ident, r.state ≠ .granted) ∧
    (∀ call, RevokedFromRecall s (s.step call)) ∧
    ∀ ident clientId fh precheck mint now, (∃ r ∈ s.manager.recordsOn ident, r.state ≠ .granted) →
      ∀ stateid m, s.manager.tryGrant ident clientId fh precheck mint now ≠
        some (.ok stateid, m) := by
  intro s
  have h : s.Inv := inv_run maxPerClient maxGlobal cooldown calls
  refine ⟨?_, ?_, h.revokedFromRecall, ?_⟩
  · intro ident mutator truncate holderLeaseExpired outcome m later hfen hproc hlat
    obtain ⟨outcome', m', hfen', hm⟩ := mutationFence_spec h.linked mutator truncate
      holderLeaseExpired ident
    obtain ⟨rfl, rfl⟩ := Prod.mk.inj (Option.mem_unique hfen' hfen)
    -- the guard is the last one made, and it is held all along
    have hhd : (s.step (.mutationFence ident mutator truncate holderLeaseExpired)).held[
        s.held.length]? = some (some outcome'.guard) := by
      simp [step, hfen]
    have hla := held_run hhd hlat
    have hinv := run_invariant (P := Inv) (fun _ call h => Inv.step h call)
      (h.step (.mutationFence ident mutator truncate holderLeaseExpired)) later
    have hexcl := hinv.exclusive hla (hm.armed.mpr hproc)
    rwa [hm.guard_ident, hm.guard_mutator] at hexcl
  · intro n g hg
    exact h.shared (h.guards_pos hg)
  · rintro ident clientId fh precheck mint now ⟨r, hr, hne⟩ stateid m hgr
    exact hne ((tryGrant_granted h.linked hgr).2.1 r hr)

/-- The only holder of a file mutates it: the recall is on its way, the mutation goes ahead, and a
grant to another client is refused meanwhile. -/
theorem sole_holder_proceeds :
    let file : FileId := ⟨1, 7⟩
    let mint : StateId := ⟨1, ⟨1, 0⟩⟩
    let s := run step (new 4 4 30) [.tryGrant file 5 [1] true mint 0]
    let fence : Call := .mutationFence file (some 5) false fun _ => false
    let later : List Call := [.noteRecallAcked mint, .tryGrant file 6 [1] true ⟨1, ⟨2, 0⟩⟩ 1]
    ((s.manager.mutationFence (some 5) false (fun _ => false) file).map fun p => p.1) =
        some (.conflict ⟨0, file, some 5, true⟩ [⟨mint, 5, [1], false⟩] [] false) ∧
      (run step (s.step fence) later).manager.recordsOn file =
        [⟨mint, 5, [1], file, .recallAcked, false⟩] ∧
      ∀ r ∈ (run step (s.step fence) later).manager.recordsOn file,
        some r.clientId ≠ some 5 → r.state = .revoked := by
  refine ⟨by decide, by decide, ?_⟩
  exact (fence_excludes_foreign_holders 4 4 30 [.tryGrant ⟨1, 7⟩ 5 [1] true ⟨1, ⟨1, 0⟩⟩ 0]).1
    ⟨1, 7⟩ (some 5) false (fun _ => false) (.conflict ⟨0, ⟨1, 7⟩, some 5, true⟩
      [⟨⟨1, ⟨1, 0⟩⟩, 5, [1], false⟩] [] false) _ _ rfl ⟨rfl, rfl⟩ (by decide)

end System

end Flint.Delegation
