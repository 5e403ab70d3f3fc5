import Flint.StateIds.Calls

/-!
# Share reservations

An open says what it will do with the file (`shareAccess`) and what it denies to the others
(`shareDeny`). The manager compares a new open with those that the list of owners of the filehandle
leads to (`shareConflict`), and records it if none stands against it.
-/

namespace Flint.StateIds

open StateIdManager Outcome

/-! ### Masks -/

def Has (mask : UInt32) (i : ℕ) : Prop := mask.toBitVec.getLsbD i

variable {a b : UInt32} {i : ℕ}

theorem has_or : Has (a ||| b) i ↔ Has a i ∨ Has b i := by
  unfold Has
  rw [UInt32.toBitVec_or, BitVec.getLsbD_or, Bool.or_eq_true]

theorem has_and : Has (a &&& b) i ↔ Has a i ∧ Has b i := by
  unfold Has
  rw [UInt32.toBitVec_and, BitVec.getLsbD_and, Bool.and_eq_true]

theorem eq_zero_iff_has : a = 0 ↔ ∀ i, ¬Has a i := by
  constructor
  · rintro rfl i
    simp [Has]
  · intro h
    apply UInt32.toBitVec_inj.mp
    ext i hi
    have := h i
    simp only [Has, Bool.not_eq_true] at this
    simpa [BitVec.getLsbD_eq_getElem hi] using this

theorem and_eq_zero_iff : a &&& b = 0 ↔ ∀ i, Has a i → ¬Has b i := by
  rw [eq_zero_iff_has]
  simp only [has_and, not_and]

theorem has_of_and_not_eq_zero (h : a &&& ~~~b = 0) (ha : Has a i) : Has b i := by
  have hnot := and_eq_zero_iff.mp h i ha
  unfold Has at ha hnot ⊢
  have hi : i < 32 := by
    by_contra hge
    rw [BitVec.getLsbD_of_ge _ _ (not_lt.mp hge)] at ha
    cases ha
  simpa [hi] using hnot

def OpenState.Compatible (a b : OpenState) : Prop :=
  a.shareDeny &&& b.shareAccess = 0 ∧ a.shareAccess &&& b.shareDeny = 0

theorem OpenState.Compatible.symm {a b : OpenState} (h : a.Compatible b) : b.Compatible a := by
  unfold Compatible
  rw [UInt32.and_comm b.shareDeny, UInt32.and_comm b.shareAccess]
  exact ⟨h.2, h.1⟩

theorem OpenState.Compatible.of_bits {a b c d : OpenState} (hb : b.Compatible d)
    (hc : c.Compatible d)
    (hacs : ∀ i, Has a.shareAccess i → Has b.shareAccess i ∨ Has c.shareAccess i)
    (hdeny : ∀ i, Has a.shareDeny i → Has b.shareDeny i ∨ Has c.shareDeny i) : a.Compatible d := by
  constructor
  · apply and_eq_zero_iff.mpr
    intro i hi
    rcases hdeny i hi with hi | hi
    · exact and_eq_zero_iff.mp hb.1 i hi
    · exact and_eq_zero_iff.mp hc.1 i hi
  · apply and_eq_zero_iff.mpr
    intro i hi
    rcases hacs i hi with hi | hi
    · exact and_eq_zero_iff.mp hb.2 i hi
    · exact and_eq_zero_iff.mp hc.2 i hi

structure OpenState.Within (a b : OpenState) : Prop where
  access : ∀ i, Has a.shareAccess i → Has b.shareAccess i
  deny : ∀ i, Has a.shareDeny i → Has b.shareDeny i

theorem OpenState.Within.refl (a : OpenState) : a.Within a := ⟨fun _ h => h, fun _ h => h⟩

theorem OpenState.Compatible.within {a b d : OpenState} (h : b.Compatible d) (hab : a.Within b) :
    a.Compatible d :=
  h.of_bits h (fun i hi => .inl (hab.access i hi)) (fun i hi => .inl (hab.deny i hi))

variable {m : StateIdManager}

theorem Sound.apply_within (h : Sound m) {call : Call}
    (hca : ∀ key access deny verifier ident, call ≠ .recordOpen key access deny verifier ident)
    {k : OpenKey} {s : OpenState} (hs : (m.apply call).openStates.get? k = some s) :
    ∃ s₀, m.openStates.get? k = some s₀ ∧ s.Within s₀ := by
  have heff := h.effect call
  generalize m.apply call = m' at heff hs
  cases heff with
  | same hsm => exact ⟨s, hsm.opens k ▸ hs, .refl s⟩
  | made | merged => exact absurd rfl (hca _ _ _ _ _)
  | downgraded key st hst hacs hdeny hrst =>
    rw [hrst.opens] at hs
    split at hs
    · next hk =>
      subst hk
      cases hs
      exact ⟨st, hst, fun i hi => has_of_and_not_eq_zero hacs hi,
        fun i hi => has_of_and_not_eq_zero hdeny hi⟩
    · exact ⟨s, hs, .refl s⟩
  | closed key st _ hcls =>
    rw [hcls.opens] at hs
    split at hs
    · cases hs
    · exact ⟨s, hs, .refl s⟩
  | retired other _ hret => exact ⟨s, hret.opens k ▸ hs, .refl s⟩
  | revoked other hrev => exact ⟨s, hrev.opens k ▸ hs, .refl s⟩
  | purged hpur =>
    rw [hpur.opens] at hs
    split at hs
    · cases hs
    · exact ⟨s, hs, .refl s⟩
  | @restarted tag _ hpm =>
    have hld := (loadRecords_loaded tag m.rows (h.distinct hpm)).1
    obtain ⟨s₀, -, hs₀, -, -, rfl⟩ := (h.restart_opens hpm hld k s).mp hs
    exact ⟨s₀, hs₀, fun _ hi => hi, fun _ hi => hi⟩

/-! ### What the comparison sees -/

def OpenKey.holder (key : OpenKey) : UInt64 × Bytes := (key.clientId, key.owner)

variable {key : OpenKey}

theorem Sound.shareConflict_iff (h : Sound m) {fh : Bytes} {clientId : UInt64} {owner : Bytes}
    {access deny : UInt32} :
    m.shareConflict fh clientId owner access deny ↔
      ∃ key st, m.openStates.get? key = some st ∧ key.fh = fh ∧ key.holder ≠ (clientId, owner) ∧
        (st.shareDeny &&& access ≠ 0 ∨ st.shareAccess &&& deny ≠ 0) := by
  unfold shareConflict
  rw [List.any_eq_true]
  constructor
  · rintro ⟨⟨c, o⟩, -, hsn⟩
    rw [Bool.and_eq_true, decide_eq_true_eq] at hsn
    obtain ⟨hne, hmsk⟩ := hsn
    cases hst : m.openStates.get? ⟨c, o, fh⟩ with
    | none =>
      rw [hst] at hmsk
      cases hmsk
    | some st =>
      rw [hst] at hmsk
      refine ⟨⟨c, o, fh⟩, st, hst, rfl, hne, ?_⟩
      simpa using hmsk
  · rintro ⟨key, st, hst, rfl, hne, hmsk⟩
    refine ⟨key.holder, h.listed key st hst, ?_⟩
    rw [Bool.and_eq_true, decide_eq_true_eq]
    refine ⟨hne, ?_⟩
    rw [show m.openStates.get? ⟨key.holder.1, key.holder.2, key.fh⟩ = some st from hst]
    simpa using hmsk

def SharesCompatible (m : StateIdManager) : Prop :=
  ∀ key key' st st', m.openStates.get? key = some st → m.openStates.get? key' = some st' →
    key.fh = key'.fh → key.holder ≠ key'.holder → st.Compatible st'

def Arbitrated (m : StateIdManager) : Call → Prop
  | .recordOpen key access deny _ _ =>
    m.shareConflict key.fh key.clientId key.owner access deny = false
  | _ => True

theorem Sound.compatible_of_arbitrated (h : Sound m) {access deny : UInt32}
    (hfr : m.shareConflict key.fh key.clientId key.owner access deny = false) (other : Other)
    (seqid : UInt32) (verifier : Option UInt64) :
    ∀ k s, m.openStates.get? k = some s → k.fh = key.fh → k.holder ≠ key.holder →
      (⟨other, seqid, access, deny, verifier⟩ : OpenState).Compatible s := by
  intro k s hs hfh hhol
  by_contra hcla
  rw [← Bool.not_eq_true, h.shareConflict_iff] at hfr
  refine hfr ⟨k, s, hs, hfh, hhol, ?_⟩
  unfold OpenState.Compatible at hcla
  rw [not_and_or, UInt32.and_comm deny, UInt32.and_comm access] at hcla
  exact hcla.symm

theorem SharesCompatible.update {m' : StateIdManager} (h : SharesCompatible m) {st : OpenState}
    (hops : ∀ k, m'.openStates.get? k = if k = key then some st else m.openStates.get? k)
    (hst : ∀ k s, m.openStates.get? k = some s → k.fh = key.fh → k.holder ≠ key.holder →
      st.Compatible s) : SharesCompatible m' := by
  have hop : ∀ k s, m'.openStates.get? k = some s →
      k = key ∧ s = st ∨ m.openStates.get? k = some s := by
    intro k s hs
    rw [hops] at hs
    split at hs
    · next hk => exact .inl ⟨hk, (Option.some.inj hs).symm⟩
    · exact .inr hs
  intro k k' s s' hs hs' hfh hhol
  rcases hop k s hs with ⟨rfl, rfl⟩ | hs
  · rcases hop k' s' hs' with ⟨rfl, -⟩ | hs'
    · exact absurd rfl hhol
    · exact hst k' s' hs' hfh.symm hhol.symm
  · rcases hop k' s' hs' with ⟨rfl, rfl⟩ | hs'
    · exact (hst k s hs hfh hhol).symm
    · exact h k k' s s' hs hs' hfh hhol

theorem SharesCompatible.mono {m' : StateIdManager} (h : SharesCompatible m)
    (hops : ∀ k s, m'.openStates.get? k = some s →
      ∃ s₀, m.openStates.get? k = some s₀ ∧ s.Within s₀) : SharesCompatible m' := by
  intro k k' s s' hs hs' hfh hhol
  obtain ⟨s₀, hs₀, hwin⟩ := hops k s hs
  obtain ⟨s₀', hs₀', hwin'⟩ := hops k' s' hs'
  exact ((h k k' s₀ s₀' hs₀ hs₀' hfh hhol).within hwin).symm.within hwin' |>.symm

theorem SharesCompatible.apply (hsnd : Sound m) (h : SharesCompatible m) {call : Call}
    (hca : Arbitrated m call) : SharesCompatible (m.apply call) := by
  by_cases hop : ∃ key access deny verifier ident, call = .recordOpen key access deny verifier ident
  · obtain ⟨key, access, deny, verifier, ident, rfl⟩ := hop
    obtain ⟨sid, m', heq, hch⟩ := recordOpen_change m key access deny verifier ident
    have hfr := hsnd.compatible_of_arbitrated hca
    rw [StateIdManager.apply, heq]
    cases hch with
    | merged cur hcur _ hrst =>
      -- the union of the masks the open had and those it was compared with
      refine h.update hrst.opens ?_
      intro k s hs hfh hhol
      refine (h key k cur s hcur hs hfh.symm hhol.symm).of_bits
        (hfr cur.stateidOther cur.seqid none k s hs hfh hhol) ?_ ?_
      · exact fun i hi => has_or.mp hi
      · exact fun i hi => has_or.mp hi
    | made _ hopd => exact h.update hopd.opens (hfr _ _ _)
  · -- every other call closes opens or narrows them
    refine h.mono fun k s hs => hsnd.apply_within ?_ hs
    intro key access deny verifier ident heq
    exact hop ⟨key, access, deny, verifier, ident, heq⟩

/-- When an OPEN is recorded only if no open stands against it, opens of one filehandle with
different holders are compatible, and the comparison sees every open. -/
theorem share_reservations_compatible (tag : Option UInt32) (calls : List Call)
    (hcs : Steps apply Arbitrated (new tag .empty) calls) :
    SharesCompatible (run apply (new tag .empty) calls) ∧
      ∀ fh clientId owner access deny,
        (run apply (new tag .empty) calls).shareConflict fh clientId owner access deny ↔
          ∃ key st, (run apply (new tag .empty) calls).openStates.get? key = some st ∧
            key.fh = fh ∧ key.holder ≠ (clientId, owner) ∧
            (st.shareDeny &&& access ≠ 0 ∨ st.shareAccess &&& deny ≠ 0) := by
  have hinv := run_invariant_of_steps (P := fun m => Sound m ∧ SharesCompatible m)
    (fun m call h hca => ⟨h.1.apply call, SharesCompatible.apply h.1 h.2 hca⟩)
    ⟨sound_new tag, fun _ _ _ _ hst => by cases hst⟩ hcs
  exact ⟨hinv.2, fun _ _ _ _ _ => hinv.1.shareConflict_iff⟩

/-- Two readers open a file, the first against writers, and open it again; the first narrows its
open, and the server starts again. -/
def readersCalls : List Call :=
  let calls : List Call :=
    [.recordOpen ⟨1, [1], [7]⟩ 3 2 none none, .downgradeOpen ⟨1, ⟨1, 1⟩⟩ 1 2,
      .recordOpen ⟨2, [2], [7]⟩ 1 0 none none, .recordOpen ⟨2, [2], [7]⟩ 1 0 none none]
  calls ++ [.restart none (run apply (new none .empty) calls).records]

theorem readers_compatible_after_restart :
    SharesCompatible (run apply (new none .empty) readersCalls) ∧
      (run apply (new none .empty) readersCalls).shareConflict [7] 3 [3] 2 0 :=
  ⟨(share_reservations_compatible none readersCalls
    ⟨rfl, trivial, rfl, rfl, trivial, trivial⟩).1, by decide⟩

end Flint.StateIds
