import Flint.Basic.Outcome
import Flint.Replica.Record

/-!
# The base of a rebuild is old enough

A leg may have missed writes from some time before it was seen to fail. So the epoch it is rebuilt
from has to be recorded at least `tBack` before the leg left `inSync`.

The choice goes by `since`, which is not always the time when the leg left `inSync`: a leg that
becomes a standby gets a new stamp, and keeps it when it is demoted. Then the floor has to stand in
for the stamp, and a stale leg that is rejoined without a revert has none (`base_within_back_off`).
-/

namespace Flint.Replica

open VolumeSyncRecord hiding update
open LegTransition Outcome List Option

variable {υ ν : Type}

def AtOrBelow (seq : ν → Option ℕ) (epochs : List (EpochEntry ν)) (floor : ν) (e : EpochEntry ν) :
    Prop :=
  e ∈ epochs ∧ ∃ n f, seq e.name = some n ∧ seq floor = some f ∧ n ≤ f

structure LegInv (seq : ν → Option ℕ) (tBack now : ℕ) (epochs : List (EpochEntry ν))
    (leg : ReplicaSyncRecord υ ν) (left : ℕ) (bases : List ν) : Prop where
  since : ∀ t, leg.since = some t → t ≤ now
  stamped : leg.syncState ≠ .inSync → ∃ t, leg.since = some t ∧ (t ≤ left ∨ ∃ floor,
    leg.baseFloor = some floor ∧ ∀ e, AtOrBelow seq epochs floor e → e.recordedAt + tBack ≤ left)
  floor : leg.syncState ≠ .inSync → ∀ b ∈ bases, ∃ floor, leg.baseFloor = some floor ∧
    ∀ f, seq floor = some f → ∃ n, seq b = some n ∧ f ≤ n

/-- The floor can stand in for the stamp of the leg. -/
def Restampable (seq : ν → Option ℕ) (tBack : ℕ) (epochs : List (EpochEntry ν))
    (leg : ReplicaSyncRecord υ ν) : Prop :=
  ∃ floor, leg.baseFloor = some floor ∧
    ∀ e, AtOrBelow seq epochs floor e → ∀ t, leg.since = some t → e.recordedAt + tBack ≤ t

def LegTransition.base? : LegTransition υ ν → Option ν
  | .applyRevert base _ => some base
  | _ => none

def LegTransition.Restamps (leg : ReplicaSyncRecord υ ν) : LegTransition υ ν → Prop
  | .markStandby _ => leg.syncState = .stale
  | .markHotRejoinIntent _ => leg.syncState = .standby
  | _ => False

def SameStamp (leg leg' : ReplicaSyncRecord υ ν) : Prop :=
  leg'.syncState = leg.syncState ∧ leg'.since = leg.since ∧ leg'.baseFloor = leg.baseFloor

def leftAt (leg leg' : ReplicaSyncRecord υ ν) (now left : ℕ) : ℕ :=
  if leg.syncState = .inSync ∧ leg'.syncState ≠ .inSync then now else left

def basesOf (leg : ReplicaSyncRecord υ ν) (base : Option ν) (bases : List ν) : List ν :=
  if leg.syncState = .inSync then [] else base.toList ++ bases

/-- What has to hold when a step at `now` has made the leg `leg'`. -/
abbrev LegInv.Next (seq : ν → Option ℕ) (tBack now : ℕ) (epochs : List (EpochEntry ν)) (left : ℕ)
    (base : Option ν) (bases : List ν) (leg leg' : ReplicaSyncRecord υ ν) : Prop :=
  LegInv seq tBack now epochs leg' (leftAt leg leg' now left) (basesOf leg base bases)

namespace LegInv

variable {seq : ν → Option ℕ} {tBack past now left : ℕ} {epochs : List (EpochEntry ν)}
  {leg : ReplicaSyncRecord υ ν} {bases : List ν}

theorem lowerBase_le {floor : Option ν} {base : ν} {f : ℕ}
    (h : seq (lowerBase seq floor base) = some f) :
    (∃ n, seq base = some n ∧ f ≤ n) ∧ ∀ g, floor = some g → ∃ n, seq g = some n ∧ f ≤ n := by
  revert h
  fun_cases lowerBase seq floor base <;> grind

variable {leg' : ReplicaSyncRecord υ ν}

theorem of_inSync (hs : leg.syncState = .inSync) (hsince : ∀ t, leg.since = some t → t ≤ now) :
    LegInv seq tBack now epochs leg left bases :=
  ⟨hsince, fun hno => absurd hs hno, fun hno => absurd hs hno⟩

/-- A leg that leaves `inSync` is stamped, and no base was chosen for it yet. -/
theorem of_leaves {t : ℕ} (hs : leg.syncState = .inSync) (hs' : leg'.syncState ≠ .inSync)
    (ht : leg'.since = some t) (hle : t ≤ now) :
    Next seq tBack now epochs left none bases leg leg' := by
  rw [Next, leftAt, if_pos ⟨hs, hs'⟩, basesOf, if_pos hs]
  exact ⟨fun u hu => some.inj (ht.symm.trans hu) ▸ hle, fun _ => ⟨t, ht, .inl hle⟩, nofun⟩

theorem Next.congr {base : Option ν} {leg'' : ReplicaSyncRecord υ ν}
    (h : Next seq tBack now epochs left base bases leg leg') (hsm : SameStamp leg' leg'') :
    Next seq tBack now epochs left base bases leg leg'' := by
  obtain ⟨hs, ht, hf⟩ := hsm
  rw [Next, leftAt, hs, ← leftAt]
  exact ⟨by rw [ht]; exact h.since, by rw [hs, ht, hf]; exact h.stamped,
    by rw [hs, hf]; exact h.floor⟩

variable (h : LegInv seq tBack past epochs leg left bases)

include h

theorem or_since (hs : leg.syncState ≠ .inSync) : leg.since.or (some now) = leg.since := by
  obtain ⟨t, ht, -⟩ := h.stamped hs
  rw [ht, some_or]

variable (hnow : past ≤ now)

include hnow

/-- A leg that stays out keeps its floor, and its stamp unless the floor can stand in for it. -/
theorem stays (hs : leg.syncState ≠ .inSync)
    (hflo : leg'.baseFloor = leg.baseFloor) (hsince : leg'.since = leg.since ∨
      leg'.since = some now ∧ Restampable seq tBack epochs leg) :
    Next seq tBack now epochs left none bases leg leg' := by
  rw [Next, leftAt, if_neg fun hboth => hs hboth.1, basesOf, if_neg hs]
  obtain ⟨t, ht, hold⟩ := h.stamped hs
  have hfloor := h.floor hs
  rw [← hflo] at hold hfloor
  rcases hsince with heq | ⟨heq, floor, hf, hrest⟩
  · exact ⟨fun u hu => Nat.le_trans (h.since u (heq ▸ hu)) hnow,
      fun _ => ⟨t, heq.trans ht, hold⟩, fun _ => hfloor⟩
  · refine ⟨fun u hu => some.inj (heq.symm.trans hu) ▸ Nat.le_refl _, fun _ => ⟨now, heq, .inr
      ⟨floor, hflo.trans hf, fun e he => hold.elim (Nat.le_trans (hrest e he t ht)) ?_⟩⟩,
      fun _ => hfloor⟩
    rintro ⟨floor', hf', hle⟩
    cases hf'.symm.trans (hflo.trans hf)
    exact hle e he

theorem later : Next seq tBack now epochs left none bases leg leg := by
  by_cases hs : leg.syncState = .inSync
  · exact of_inSync hs fun t ht => Nat.le_trans (h.since t ht) hnow
  · exact h.stays hnow hs rfl (.inl rfl)

theorem markStandby (e : ν) (hstm : leg.syncState = .stale → Restampable seq tBack epochs leg) :
    Next seq tBack now epochs left none bases leg (leg.markStandby e now) := by
  cases hs : leg.syncState with
  | inSync => exact of_leaves hs nofun (if_neg (by simp [hs])) (Nat.le_refl _)
  | standby => exact h.stays hnow (by simp [hs]) rfl (.inl (if_pos hs))
  | stale => exact h.stays hnow (by simp [hs]) rfl (.inr ⟨if_neg (by simp [hs]), hstm hs⟩)

theorem markStale : Next seq tBack now epochs left none bases leg (leg.markStale now) := by
  fun_cases leg.markStale now with
  | case1 hs =>
    have hout : leg.syncState ≠ .inSync := by simp [hs]
    exact h.stays hnow hout rfl (.inl (h.or_since hout))
  | case2 hs => exact of_leaves hs nofun rfl (Nat.le_refl _)
  | case3 => exact h.later hnow

/-- A revert lowers the floor to its base if that is older. -/
theorem applyRevert (base : ν) (head : υ) :
    Next seq tBack now epochs left (some base) bases leg (leg.applyRevert seq base head) := by
  have hsince : ∀ t, leg.since = some t → t ≤ now := fun t ht => Nat.le_trans (h.since t ht) hnow
  by_cases hs : leg.syncState = .inSync
  · exact of_inSync hs hsince
  rw [Next, leftAt, if_neg fun hboth => hs hboth.1, basesOf, if_neg hs]
  obtain ⟨t, ht, hold⟩ := h.stamped hs
  refine ⟨hsince, fun _ => ⟨t, ht, hold.imp_right ?_⟩, fun _ b hb => ⟨_, rfl, fun f hf => ?_⟩⟩
  · rintro ⟨floor, hfloor, hle⟩
    refine ⟨_, rfl, fun e ⟨he, n, f, hn, hf, hnf⟩ => hle e ⟨he, ?_⟩⟩
    obtain ⟨g, hg, hfg⟩ := (lowerBase_le hf).2 floor hfloor
    exact ⟨n, g, hn, hg, Nat.le_trans hnf hfg⟩
  · rcases mem_cons.mp hb with rfl | hb
    · exact (lowerBase_le hf).1
    · obtain ⟨floor, hfloor, hle⟩ := h.floor hs b hb
      obtain ⟨g, hg, hfg⟩ := (lowerBase_le hf).2 floor hfloor
      exact (hle g hg).imp fun n hn => hn.imp_right (Nat.le_trans hfg)

theorem apply [DecidableEq ν] (t : LegTransition υ ν)
    (hstm : t.Restamps leg → Restampable seq tBack epochs leg) :
    Next seq tBack now epochs left t.base? bases leg (leg.apply seq now t) := by
  cases t with
  | markStale => exact h.markStale hnow
  | applyRevert base head => exact h.applyRevert hnow base head
  | markStandby e => exact h.markStandby hnow e hstm
  | markInSync e =>
    refine of_inSync rfl fun t ht => ?_
    simp only [ReplicaSyncRecord.apply, ReplicaSyncRecord.markInSync] at ht
    split at ht
    · exact Nat.le_trans (h.since t ht) hnow
    · exact some.inj ht ▸ Nat.le_refl _
  | markHotRejoinIntent e =>
    rw [ReplicaSyncRecord.apply]
    fun_cases leg.markHotRejoinIntent e now with
    | case2 _ hs => exact h.stays hnow (by simp [hs.1]) rfl (.inr ⟨rfl, hstm hs.1⟩)
    | case3 => exact (h.later hnow).congr ⟨rfl, rfl, rfl⟩
    | case1 | case4 => exact h.later hnow
  | clearHotRejoin demote =>
    have hsm : ∀ leg : ReplicaSyncRecord υ ν, SameStamp leg (if leg.hotRejoin.isSome then
        { leg with hotRejoin := none, hotRejoinAt := none } else leg) := fun leg => by
      split <;> exact ⟨rfl, rfl, rfl⟩
    cases demote with
    | true => exact (h.markStale hnow).congr (hsm _)
    | false => exact (h.later hnow).congr (hsm _)
  | refuseHotRejoin =>
    by_cases hs : leg.syncState = .inSync
    · have hle : leg.since.getD now ≤ now := by
        cases ht : leg.since with
        | none => exact Nat.le_refl _
        | some t => exact Nat.le_trans (h.since t ht) hnow
      exact of_leaves hs nofun or_some hle
    · exact h.stays hnow hs rfl (.inl (h.or_since hs))

omit h hnow

theorem epochs_imp {epochs' : List (EpochEntry ν)} (h : LegInv seq tBack now epochs leg left bases)
    (hmem : ∀ floor, leg.baseFloor = some floor → ∀ e, AtOrBelow seq epochs' floor e → e ∈ epochs) :
    LegInv seq tBack now epochs' leg left bases := by
  refine ⟨h.since, fun hs => ?_, h.floor⟩
  obtain ⟨t, ht, hold⟩ := h.stamped hs
  refine ⟨t, ht, hold.imp_right fun ⟨floor, hfloor, hle⟩ => ⟨floor, hfloor, fun e he => ?_⟩⟩
  exact hle e ⟨hmem floor hfloor e he, he.2⟩

end LegInv

/-! ### Runs -/

structure Tracked (υ ν : Type) where
  record : VolumeSyncRecord υ ν
  now : ℕ
  left : ℕ → ℕ
  bases : ℕ → List ν

section Runs

variable [DecidableEq υ] [DecidableEq ν] {seq : ν → Option ℕ} {tBack : ℕ}

def Transition.base? (r : VolumeSyncRecord υ ν) (i : ℕ) : Transition υ ν → Option ν
  | .leg uuid t => if r.find uuid = i then t.base? else none
  | _ => none

namespace Tracked

def start (uuids : List υ) : Tracked υ ν := ⟨.initial uuids, 0, fun _ => 0, fun _ => []⟩

def step (seq : ν → Option ℕ) (s : Tracked υ ν) (a : Transition υ ν × ℕ) : Tracked υ ν where
  record := s.record.apply seq a.2 a.1
  now := a.2
  left i :=
    match s.record.replicas[i]?, (s.record.apply seq a.2 a.1).replicas[i]? with
    | some leg, some leg' => leftAt leg leg' a.2 (s.left i)
    | _, _ => s.left i
  bases i :=
    match s.record.replicas[i]? with
    | some leg => basesOf leg (a.1.base? s.record i) (s.bases i)
    | none => s.bases i

def Above (seq : ν → Option ℕ) (r : VolumeSyncRecord υ ν) (epoch : ν) : Prop :=
  ∀ leg ∈ r.replicas, ∀ floor, leg.baseFloor = some floor →
    ∀ n f, seq epoch = some n → seq floor = some f → f < n

/-- A stamp is replaced only when the floor can stand in for it, and epochs are recorded in
sequence. -/
def Guarded (seq : ν → Option ℕ) (tBack : ℕ) (s : Tracked υ ν) (a : Transition υ ν × ℕ) : Prop :=
  s.now ≤ a.2 ∧
  match a.1 with
  | .leg uuid t => ∀ leg, s.record.replicas[s.record.find uuid]? = some leg →
      t.Restamps leg → Restampable seq tBack s.record.epochs leg
  | .markHotRejoined uuid ef _ _ => Above seq s.record ef ∧
      ∀ leg, s.record.replicas[s.record.find uuid]? = some leg →
        leg.syncState = .stale → Restampable seq tBack s.record.epochs leg
  | .applyEpochCut epoch _ => Above seq s.record epoch
  | _ => True

def Inv (seq : ν → Option ℕ) (tBack : ℕ) (s : Tracked υ ν) : Prop :=
  ∀ i leg, s.record.replicas[i]? = some leg →
    LegInv seq tBack s.now s.record.epochs leg (s.left i) (s.bases i)

variable {s : Tracked υ ν} {now : ℕ}

variable {t : Transition υ ν}

theorem Inv.next (h : s.Inv seq tBack) (hlegs : ∀ (i : ℕ) (leg' : ReplicaSyncRecord υ ν),
      (s.record.apply seq now t).replicas[i]? = some leg' →
      ∃ leg, s.record.replicas[i]? = some leg ∧
        (∀ left bases, LegInv seq tBack s.now s.record.epochs leg left bases →
          LegInv.Next seq tBack now s.record.epochs left (t.base? s.record i) bases leg leg') ∧
        ∀ floor, leg'.baseFloor = some floor → ∀ e,
          AtOrBelow seq (s.record.apply seq now t).epochs floor e → e ∈ s.record.epochs) :
    (s.step seq (t, now)).Inv seq tBack := by
  intro i leg' hleg'
  obtain ⟨leg, hold, hnx, hmem⟩ := hlegs i leg' hleg'
  have hinv := hnx _ _ (h i leg hold)
  simp only [step] at hleg' ⊢
  rw [hold, hleg']
  exact LegInv.epochs_imp hinv hmem

theorem Inv.update {uuid : υ} {f : ReplicaSyncRecord υ ν → ReplicaSyncRecord υ ν}
    (h : s.Inv seq tBack) (hnow : s.now ≤ now)
    (hrepl : (s.record.apply seq now t).replicas = (s.record.update uuid f).replicas)
    (heps : (s.record.apply seq now t).epochs = s.record.epochs)
    (hbs : ∀ i, i ≠ s.record.find uuid → t.base? s.record i = none)
    (hleg : ∀ leg, s.record.replicas[s.record.find uuid]? = some leg → ∀ left bases,
      LegInv seq tBack s.now s.record.epochs leg left bases →
      LegInv.Next seq tBack now s.record.epochs left (t.base? s.record (s.record.find uuid)) bases
        leg (f leg)) :
    (s.step seq (t, now)).Inv seq tBack := by
  refine h.next fun i leg' hleg' => ?_
  rw [hrepl, VolumeSyncRecord.update, getElem?_modify] at hleg'
  obtain ⟨leg, hold, rfl⟩ := map_eq_some_iff.mp hleg'
  refine ⟨leg, hold, fun left bases hl => ?_, fun floor _ e he => heps ▸ he.1⟩
  split
  · next hi =>
    subst hi
    exact hleg leg hold left bases hl
  · next hi =>
    rw [hbs i (Ne.symm hi)]
    exact hl.later hnow

theorem Inv.keeps (h : s.Inv seq tBack) (hnow : s.now ≤ now)
    (hbs : ∀ i, t.base? s.record i = none) (hlegs : ∀ (i : ℕ) (leg' : ReplicaSyncRecord υ ν),
      (s.record.apply seq now t).replicas[i]? = some leg' →
      ∃ leg, s.record.replicas[i]? = some leg ∧ SameStamp leg leg')
    (hmem : ∀ leg ∈ s.record.replicas, ∀ floor, leg.baseFloor = some floor →
      ∀ e, AtOrBelow seq (s.record.apply seq now t).epochs floor e → e ∈ s.record.epochs) :
    (s.step seq (t, now)).Inv seq tBack := by
  refine h.next fun i leg' hleg' => ?_
  obtain ⟨leg, hold, hsm⟩ := hlegs i leg' hleg'
  refine ⟨leg, hold, fun left bases hl => ?_, ?_⟩
  · rw [hbs]
    exact (hl.later hnow).congr hsm
  · rw [hsm.2.2]
    exact hmem leg (mem_of_getElem? hold)

variable {r : VolumeSyncRecord υ ν} {cut : List υ}

theorem Above.mem {epoch floor : ν} {leg : ReplicaSyncRecord υ ν} (h : Above seq r epoch)
    (hleg : leg ∈ r.replicas) (hflo : leg.baseFloor = some floor) {e : EpochEntry ν}
    (he : AtOrBelow seq (r.applyEpochCut epoch cut now).epochs floor e) : e ∈ r.epochs := by
  grind [Above, AtOrBelow, applyEpochCut]

theorem exists_of_applyEpochCut {epoch : ν} {now i : ℕ} {leg' : ReplicaSyncRecord υ ν}
    (h : (r.applyEpochCut epoch cut now).replicas[i]? = some leg') :
    ∃ leg, r.replicas[i]? = some leg ∧ SameStamp leg leg' := by
  rw [applyEpochCut, getElem?_map] at h
  obtain ⟨leg, hleg, rfl⟩ := map_eq_some_iff.mp h
  exact ⟨leg, hleg, by split <;> simp [SameStamp]⟩

theorem find_applyEpochCut {epoch : ν} (uuid : υ) :
    (r.applyEpochCut epoch cut now).find uuid = r.find uuid := by
  rw [find, find, applyEpochCut, findIdx_map]
  congr
  funext leg
  dsimp only [Function.comp]
  split <;> rfl

omit [DecidableEq υ] in
theorem retireFrom_spec {pinSeq : Option ℕ} {names : List ν} {r : VolumeSyncRecord υ ν} :
    (r.retireFrom seq pinSeq names).replicas = r.replicas ∧
      ∀ e ∈ (r.retireFrom seq pinSeq names).epochs, e ∈ r.epochs := by
  fun_induction retireFrom seq pinSeq r names <;> grind

omit [DecidableEq υ] in
theorem retireEpochs_spec {names : List ν} {r : VolumeSyncRecord υ ν} :
    (r.retireEpochs seq names).replicas = r.replicas ∧
      ∀ e ∈ (r.retireEpochs seq names).epochs, e ∈ r.epochs := by
  fun_cases retireEpochs seq r names
  · exact retireFrom_spec
  · exact retireFrom_spec
  · exact ⟨rfl, fun _ => id⟩

omit [DecidableEq υ] [DecidableEq ν] in
theorem unpin_spec (r : VolumeSyncRecord υ ν) :
    r.unpin.replicas = r.replicas ∧ r.unpin.epochs = r.epochs := by
  rw [unpin]
  split <;> exact ⟨rfl, rfl⟩

theorem apply_leg (seq : ν → Option ℕ) (r : VolumeSyncRecord υ ν) (now : ℕ) (uuid : υ)
    (t : LegTransition υ ν) :
    (r.apply seq now (.leg uuid t)).replicas = (r.update uuid (·.apply seq now t)).replicas ∧
      (r.apply seq now (.leg uuid t)).epochs = r.epochs := by
  cases t with
  | markInSync e =>
    rw [apply]
    split
    · exact unpin_spec _
    · next hfd =>
      -- without such a leg the update changes nothing
      refine ⟨?_, rfl⟩
      rw [VolumeSyncRecord.update, modify_eq_self (Nat.le_of_not_lt hfd)]
  | _ => exact ⟨rfl, rfl⟩

theorem Inv.step (h : s.Inv seq tBack) (a : Transition υ ν × ℕ) (ha : s.Guarded seq tBack a) :
    (s.step seq a).Inv seq tBack := by
  obtain ⟨t, now⟩ := a
  obtain ⟨hnow, hgd⟩ := ha
  cases t with
  | leg uuid t =>
    obtain ⟨hrepl, heps⟩ := apply_leg seq s.record now uuid t
    refine h.update hnow hrepl heps (fun i hi => if_neg (Ne.symm hi)) fun leg hleg _ _ hl => ?_
    rw [Transition.base?, if_pos rfl]
    exact hl.apply hnow t (hgd leg hleg)
  | noteCopySource dst src =>
    refine h.keeps hnow (fun _ => rfl) (fun i leg' hleg' => ?_) ?_
    · rw [apply] at hleg'
      split at hleg'
      · rw [VolumeSyncRecord.update, getElem?_modify] at hleg'
        obtain ⟨leg, hold, rfl⟩ := map_eq_some_iff.mp hleg'
        exact ⟨leg, hold, by grind [ReplicaSyncRecord.noteCopySource, SameStamp]⟩
      · exact ⟨leg', hleg', rfl, rfl, rfl⟩
    · intro leg _ floor _ e he
      rw [apply] at he
      split at he <;> exact he.1
  | markHotRejoined uuid ef cut head =>
    refine h.next fun i leg' hleg' => ?_
    obtain ⟨habv, hstm⟩ := hgd
    rw [apply, VolumeSyncRecord.update, find_applyEpochCut,
      getElem?_modify] at hleg'
    obtain ⟨leg₁, hcut, rfl⟩ := map_eq_some_iff.mp hleg'
    obtain ⟨leg, hold, hsm⟩ := exists_of_applyEpochCut hcut
    have hmem : ∀ floor, leg₁.baseFloor = some floor → ∀ e,
        AtOrBelow seq (s.record.applyEpochCut ef cut now).epochs floor e → e ∈ s.record.epochs :=
      fun floor hf e he => habv.mem (mem_of_getElem? hold) (hsm.2.2 ▸ hf) he
    split
    · next hi =>
      subst hi
      refine ⟨leg, hold, fun left bases hl => ?_, hmem⟩
      refine (hl.markStandby hnow ef (hstm leg hold)).congr ?_
      grind [ReplicaSyncRecord.markHotRejoined, ReplicaSyncRecord.markStandby, SameStamp]
    · exact ⟨leg, hold, fun left bases hl => (hl.later hnow).congr hsm, hmem⟩
  | drainForMaintenance uuid deadline =>
    by_cases hdrain : s.record.drainable uuid now
    · have hdrained : s.record.apply seq now (.drainForMaintenance uuid deadline) =
          s.record.update uuid fun leg => { leg.markStale now with maintDrain := some deadline } :=
        if_pos hdrain
      exact h.update hnow (congrArg _ hdrained) (hdrained ▸ rfl) (fun _ _ => rfl)
        fun leg _ _ _ hl => (hl.markStale hnow).congr ⟨rfl, rfl, rfl⟩
    · refine h.keeps hnow (fun _ => rfl) (fun i leg' hleg' => ?_) fun leg _ floor _ e he => ?_
      · rw [apply, if_neg hdrain] at hleg'
        exact ⟨leg', hleg', rfl, rfl, rfl⟩
      · rw [apply, if_neg hdrain] at he
        exact he.1
  | applyEpochCut epoch cut =>
    exact h.keeps hnow (fun _ => rfl) (fun i leg' hleg' => exists_of_applyEpochCut hleg')
      fun leg hleg floor hflo e he => hgd.mem hleg hflo he
  | retireEpochs names =>
    refine h.keeps hnow (fun _ => rfl) (fun i leg' hleg' => ?_) fun leg _ floor _ e he =>
      retireEpochs_spec.2 e he.1
    rw [apply, retireEpochs_spec.1] at hleg'
    exact ⟨leg', hleg', rfl, rfl, rfl⟩

omit [DecidableEq υ] [DecidableEq ν] in
theorem inv_start (uuids : List υ) : (start uuids : Tracked υ ν).Inv seq tBack := by
  intro i leg hleg
  simp only [start, initial, getElem?_map] at hleg
  obtain ⟨uuid, -, rfl⟩ := map_eq_some_iff.mp hleg
  exact ⟨nofun, fun h => absurd rfl h, fun h => absurd rfl h⟩

end Tracked

omit [DecidableEq υ] [DecidableEq ν] in
theorem exists_of_selectBaseEpoch {r : VolumeSyncRecord υ ν} {leg : ReplicaSyncRecord υ ν}
    {present : ν → Bool} {name : ν} (h : selectBaseEpoch seq r leg present tBack = some name) :
    ∃ e ∈ r.epochs, e.name = name ∧ (∀ t, leg.since = some t → e.recordedAt + backOff tBack ≤ t) ∧
      ∀ floor, leg.baseFloor = some floor → AtOrBelow seq r.epochs floor e := by
  obtain ⟨e, he, rfl⟩ := map_eq_some_iff.mp h
  have hmem : e ∈ r.epochs.filter (baseCandidate seq leg present tBack) := by
    split at he
    · exact mem_of_getLast? he
    · exact mem_of_head? he
  obtain ⟨hlis, hcd⟩ := mem_filter.mp hmem
  simp only [baseCandidate, Bool.and_eq_true, Option.all_eq_true, decide_eq_true_eq] at hcd
  refine ⟨e, hlis, rfl, hcd.1.2, fun floor hflo => ⟨hlis, ?_⟩⟩
  have hbel := hcd.2
  rw [hflo] at hbel
  dsimp only [some_or] at hbel
  split at hbel
  · next f hf =>
    obtain ⟨n, hn, hle⟩ := (Option.any_eq_true _ _).mp hbel
    exact ⟨n, f, hn, hf, of_decide_eq_true hle⟩
  · cases hbel

namespace Tracked

/-- The base of a leg that is not in sync was recorded `tBack` before the leg left `inSync`, and is
not newer than what the leg was reverted to since. -/
theorem base_old_enough (seq : ν → Option ℕ) (tBack : ℕ) (uuids : List υ)
    (l : List (Transition υ ν × ℕ)) (hl : Steps (step seq) (Guarded seq tBack) (start uuids) l)
    (hback : tBack ≤ maxDuration) (i : ℕ) (leg : ReplicaSyncRecord υ ν) (present : ν → Bool)
    (name : ν) :
    let s := run (step seq) (start uuids) l
    s.record.replicas[i]? = some leg → leg.syncState ≠ .inSync →
    selectBaseEpoch seq s.record leg present tBack = some name →
    ∃ e ∈ s.record.epochs, e.name = name ∧ e.recordedAt + tBack ≤ s.left i ∧
      ∀ b ∈ s.bases i, ∃ n m, seq name = some n ∧ seq b = some m ∧ n ≤ m := by
  intro s hleg hstt hselect
  have hinv : s.Inv seq tBack :=
    run_invariant_of_steps (fun _ a h ha => h.step a ha) (inv_start uuids) hl
  have hl := hinv i leg hleg
  obtain ⟨e, he, rfl, hstm, hbel⟩ := exists_of_selectBaseEpoch hselect
  rw [backOff, if_pos hback] at hstm
  refine ⟨e, he, rfl, ?_, fun b hb => ?_⟩
  · obtain ⟨t, ht, hlf | ⟨floor, hflo, hold⟩⟩ := hl.stamped hstt
    · exact Nat.le_trans (hstm t ht) hlf
    · exact hold e (hbel floor hflo)
  · obtain ⟨floor, hflo, hle⟩ := hl.floor hstt b hb
    obtain ⟨-, n, f, hn, hf, hnf⟩ := hbel floor hflo
    obtain ⟨m, hm, hfm⟩ := hle f hf
    exact ⟨n, m, hn, hm, Nat.le_trans hnf hfm⟩

def demotion : List (Transition ℕ ℕ × ℕ) :=
  [(.applyEpochCut 1 [0, 1], 10), (.leg 1 .markStale, 15), (.leg 1 (.applyRevert 1 7), 16),
    (.leg 1 (.markStandby 1), 20), (.leg 1 .markStale, 30)]

theorem demoted_base_old_enough :
    let s := run (step some) (start [0, 1]) demotion
    ∃ e ∈ s.record.epochs, e.name = 1 ∧ e.recordedAt + 5 ≤ s.left 1 ∧
      ∀ b ∈ s.bases 1, ∃ n m, some 1 = some n ∧ some b = some m ∧ n ≤ m := by
  refine base_old_enough some 5 [0, 1] demotion ?_ (by decide) 1 _ (fun _ => true) 1 rfl
    (by decide) (by decide)
  refine ⟨⟨by decide, fun leg hleg floor hflo => ?_⟩, ⟨by decide, fun _ _ => False.elim⟩,
    ⟨by decide, fun _ _ => False.elim⟩,
    ⟨by decide, fun leg hleg _ => ?_⟩, ⟨by decide, fun _ _ => False.elim⟩, trivial⟩
  · -- no leg has a floor yet
    obtain ⟨uuid, -, rfl⟩ := mem_map.mp hleg
    cases hflo
  · obtain rfl := some.inj hleg
    refine ⟨1, rfl, fun e he t ht => ?_⟩
    obtain rfl := mem_singleton.mp he.1
    obtain rfl := some.inj ht
    decide

/-- The leg is rejoined and demoted, with no revert: its stamp is the one of the rejoin, and the
base is from 2 before the leg left `inSync`, not from 5. -/
theorem base_within_back_off :
    let s := run (step some) (start [0, 1])
      [(.applyEpochCut 1 [0, 1], 10), (.leg 1 .markStale, 12),
        (.leg 1 (.markHotRejoinIntent 2), 13),
        (.markHotRejoined 1 2 [0] 7, 20), (.leg 1 (.clearHotRejoin true), 21)]
    (s.record.replicas[1]?).map
          (fun leg => (leg.syncState, selectBaseEpoch some s.record leg (· = 1) 5)) =
        some (.stale, some 1) ∧
      s.record.epochs = [⟨1, 10⟩, ⟨2, 20⟩] ∧ s.left 1 = 12 := by
  decide +kernel

end Tracked

end Runs

end Flint.Replica
