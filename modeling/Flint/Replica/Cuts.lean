import Flint.Replica.BaseEpoch

/-!
# The order of the epochs

Epoch cycles, stage admissions and rebuilds that lack an epoch cut in the same way: they load the
record, plan the number after the newest, take the snapshots, and write the record later, after
writes of others. The write makes its epoch the current one and the mark of the legs, whatever the
record has by then.
-/

namespace Flint.Replica

open Outcome ReplicaSyncRecord List

variable {υ : Type}

inductive Cutter (υ : Type)
  | cycle (interval : ℕ)
  | admission (standby : υ)
  | onDemand

structure CutPlan (υ : Type) where
  cutter : Cutter υ
  epoch : ℕ
  targets : List υ
  recorded : Bool := false

def VolumeSyncRecord.latestEpochSeq (r : VolumeSyncRecord υ ℕ) : ℕ :=
  (r.epochs.map EpochEntry.name).max?.getD 0

structure Cutting (υ : Type) where
  record : VolumeSyncRecord υ ℕ
  plans : List (CutPlan υ)

inductive CutAction (υ : Type)
  | plan (cutter : Cutter υ) (legs : List υ)
  | record (k : ℕ)
  | join (k : ℕ)
  | stale (uuid : υ)
  | standby (uuid : υ) (epoch : ℕ)
  | retire (names : List ℕ)

namespace Cutting

def start (uuids : List υ) : Cutting υ := ⟨.initial uuids, []⟩

variable [DecidableEq υ]

def due (r : VolumeSyncRecord υ ℕ) (now : ℕ) : Cutter υ → Bool
  | .cycle interval => r.epochs.getLast?.all fun e => e.recordedAt + interval ≤ now
  | .admission standby => (r.replicas[r.find standby]?).any (·.syncState = .standby)
  | .onDemand => r.replicas.any fun leg =>
    leg.syncState = .stale && leg.hotRejoin.isNone && !leg.maintDrainLive now

/-- `legs` are those with an address; for an admission, those that are attached. -/
def planCut (r : VolumeSyncRecord υ ℕ) (cutter : Cutter υ) (legs : List υ) (now : ℕ) :
    Option (CutPlan υ) :=
  let targets := (r.replicas.filter fun leg =>
    leg.syncState = .inSync ∧ leg.lvolUuid ∈ legs).map lvolUuid
  if due r now cutter && !targets.isEmpty then
    some ⟨cutter, r.latestEpochSeq + 1, targets, false⟩
  else none

def step (s : Cutting υ) (a : CutAction υ × ℕ) : Cutting υ :=
  match a.1 with
  | .plan cutter legs => { s with plans := s.plans ++ (planCut s.record cutter legs a.2).toList }
  | .record k =>
    match s.plans[k]? with
    | some p => ⟨s.record.applyEpochCut p.epoch p.targets a.2,
        s.plans.set k { p with recorded := true }⟩
    | none => s
  | .join k =>
    match s.plans[k]? with
    | some ⟨.admission uuid, epoch, _, true⟩ =>
      { s with record := s.record.apply some a.2 (.leg uuid (.markInSync epoch)) }
    | _ => s
  | .stale uuid => { s with record := s.record.apply some a.2 (.leg uuid .markStale) }
  | .standby uuid epoch =>
    { s with record := s.record.apply some a.2 (.leg uuid (.markStandby epoch)) }
  | .retire names => { s with record := s.record.retireEpochs some names }

/-- A cut is recorded before any newer one is, and a leg that is admitted is not in sync. -/
def Timely (s : Cutting υ) (a : CutAction υ × ℕ) : Prop :=
  match a.1 with
  | .record k => ∀ p ∈ s.plans[k]?, s.record.latestEpochSeq ≤ p.epoch
  | .join k =>
    match s.plans[k]? with
    | some ⟨.admission uuid, _, _, _⟩ =>
      ∀ leg ∈ s.record.replicas[s.record.find uuid]?, leg.syncState ≠ .inSync
    | _ => True
  | _ => True

instance (s : Cutting υ) (a : CutAction υ × ℕ) : Decidable (s.Timely a) := by
  unfold Timely
  split
  · infer_instance
  · split <;> infer_instance
  · infer_instance

/-- The numbers of the epochs increase, and the current epoch is the newest. -/
structure Ordered (r : VolumeSyncRecord υ ℕ) : Prop where
  increasing : (r.epochs.map EpochEntry.name).Pairwise (· < ·)
  newest : r.currentEpoch = (r.epochs.map EpochEntry.name).getLast?

/-- The mark of a leg that stays in sync does not go back. -/
def Advances (r r' : VolumeSyncRecord υ ℕ) : Prop :=
  ∀ (i : ℕ) leg leg', r.replicas[i]? = some leg → r'.replicas[i]? = some leg' →
    leg.syncState = .inSync → leg'.syncState = .inSync →
      ∀ n ∈ leg.lastEpoch, ∃ n' ∈ leg'.lastEpoch, n ≤ n'

structure Inv (s : Cutting υ) : Prop where
  ordered : Ordered s.record
  marks : ∀ leg ∈ s.record.replicas, leg.syncState = .inSync →
    ∀ n ∈ leg.lastEpoch, n ≤ s.record.currentEpoch.getD 0
  plans : ∀ p ∈ s.plans, p.recorded → p.epoch ≤ s.record.currentEpoch.getD 0

/-- What a write does to a leg: it keeps its mark, or gets one between `lo` and `hi`. -/
def Stamped (lo hi : Option ℕ) (leg leg' : ReplicaSyncRecord υ ℕ) : Prop :=
  leg'.syncState = .inSync →
    leg.syncState = .inSync ∧ leg'.lastEpoch = leg.lastEpoch ∨
      ∃ n ∈ leg'.lastEpoch, n ≤ hi.getD 0 ∧ (leg.syncState = .inSync → lo.getD 0 ≤ n)

variable {s : Cutting υ} {r r' : VolumeSyncRecord υ ℕ} {ps : List (CutPlan υ)}

omit [DecidableEq υ] in
theorem Stamped.refl (lo hi : Option ℕ) (leg : ReplicaSyncRecord υ ℕ) : Stamped lo hi leg leg :=
  fun hsy => .inl ⟨hsy, rfl⟩

omit [DecidableEq υ] in
theorem Inv.write (h : Inv s) (hord : Ordered r')
    (hnewest : s.record.currentEpoch.getD 0 ≤ r'.currentEpoch.getD 0)
    (hlegs : ∀ (i : ℕ) leg', r'.replicas[i]? = some leg' → ∃ leg, s.record.replicas[i]? = some leg ∧
      Stamped s.record.currentEpoch r'.currentEpoch leg leg')
    (hplans : ∀ p ∈ ps, p.recorded → p.epoch ≤ r'.currentEpoch.getD 0) :
    Inv ⟨r', ps⟩ ∧ Advances s.record r' := by
  refine ⟨⟨hord, fun leg' hleg' hsy n hn => ?_, hplans⟩, ?_⟩
  · obtain ⟨i, hi⟩ := mem_iff_getElem?.mp hleg'
    obtain ⟨leg, hleg, hstm⟩ := hlegs i leg' hi
    rcases hstm hsy with ⟨hold, hkp⟩ | ⟨n', hn', hle, -⟩
    · have hle := h.marks leg (mem_of_getElem? hleg) hold n (hkp ▸ hn)
      exact Nat.le_trans hle hnewest
    · obtain rfl := Option.mem_unique hn hn'
      exact hle
  · intro i leg leg' hleg hleg' hsy hsy' n hn
    obtain ⟨leg₀, hleg₀, hstm⟩ := hlegs i leg' hleg'
    obtain rfl := Option.mem_unique hleg hleg₀
    rcases hstm hsy' with ⟨-, hkp⟩ | ⟨n', hn', -, hlo⟩
    · exact ⟨n, hkp ▸ hn, Nat.le_refl n⟩
    · have hle := h.marks leg (mem_of_getElem? hleg) hsy n hn
      exact ⟨n', hn', Nat.le_trans hle (hlo hsy)⟩

omit [DecidableEq υ] in
theorem Ordered.of_filter {name : ℕ} (h : Ordered r) (hcur : r.currentEpoch ≠ some name) :
    Ordered { r with epochs := r.epochs.filter fun e => e.name ≠ name } := by
  have hnms : (r.epochs.filter fun e => e.name ≠ name).map EpochEntry.name =
      (r.epochs.map EpochEntry.name).filter (· ≠ name) := by
    rw [filter_map]
    rfl
  refine ⟨hnms ▸ h.increasing.filter _, h.newest.trans ?_⟩
  rw [h.newest] at hcur
  rw [hnms]
  -- what is dropped is not the newest
  rcases eq_nil_or_concat (r.epochs.map EpochEntry.name) with hnil | ⟨init, n, hconcat⟩
  · rw [hnil]
    rfl
  · rw [hconcat, concat_eq_append, getLast?_concat] at hcur ⊢
    have hne : n ≠ name := fun heq => hcur (congrArg some heq)
    rw [filter_append, filter_cons_of_pos (by simpa using hne), filter_nil, getLast?_concat]

omit [DecidableEq υ] in
theorem Ordered.retireFrom {pinSeq : Option ℕ} {names : List ℕ} (h : Ordered r) :
    Ordered (r.retireFrom some pinSeq names) ∧
      (r.retireFrom some pinSeq names).currentEpoch = r.currentEpoch := by
  induction names generalizing r with
  | nil => exact ⟨h, rfl⟩
  | cons name names ih =>
    rw [VolumeSyncRecord.retireFrom]
    split
    · exact ⟨h, rfl⟩
    · next hcur =>
      dsimp only
      split
      · exact ⟨h, rfl⟩
      · exact ih (h.of_filter hcur)

omit [DecidableEq υ] in
theorem Ordered.retireEpochs (h : Ordered r) (names : List ℕ) :
    Ordered (r.retireEpochs some names) ∧
      (r.retireEpochs some names).currentEpoch = r.currentEpoch := by
  fun_cases VolumeSyncRecord.retireEpochs some r names
  · exact h.retireFrom
  · exact h.retireFrom
  · exact ⟨h, rfl⟩

theorem Ordered.applyEpochCut {n : ℕ} (h : Ordered r) (hn : r.latestEpochSeq ≤ n) (cut : List υ)
    (now : ℕ) : Ordered (r.applyEpochCut n cut now) := by
  have hle : ∀ m ∈ r.epochs.map EpochEntry.name, m ≤ n := fun m hm =>
    Nat.le_trans (le_max?_getD_of_mem hm) hn
  have hany : (r.epochs.any fun e => e.name = n) ↔ n ∈ r.epochs.map EpochEntry.name := by
    simp
  have hinc := h.increasing
  unfold VolumeSyncRecord.applyEpochCut
  by_cases hmem : n ∈ r.epochs.map EpochEntry.name
  · -- it is recorded already, and the newest
    rw [if_pos (hany.mpr hmem)]
    refine ⟨hinc, ?_⟩
    obtain ⟨init, rest, heq⟩ := append_of_mem hmem
    dsimp only
    rw [heq] at hle hinc ⊢
    cases rest with
    | nil => rw [getLast?_concat]
    | cons k rest =>
      have hlt := (pairwise_cons.mp (pairwise_append.mp hinc).2.1).1 k (.head _)
      exact absurd (hle k (by simp)) (Nat.not_le_of_lt hlt)
  · rw [if_neg (mt hany.mp hmem)]
    constructor
    · rw [map_append]
      refine pairwise_append.mpr ⟨hinc, pairwise_singleton _ _, ?_⟩
      intro m hm k hk
      rw [mem_singleton.mp hk]
      exact Nat.lt_of_le_of_ne (hle m hm) fun heq : m = n => hmem (heq ▸ hm)
    · rw [map_append]
      exact getLast?_concat.symm

theorem Inv.leg (h : Inv s) (uuid : υ) (t : LegTransition υ ℕ) (now : ℕ)
    (ht : ∀ leg, s.record.replicas[s.record.find uuid]? = some leg →
      Stamped s.record.currentEpoch s.record.currentEpoch leg (leg.apply some now t)) :
    Inv { s with record := s.record.apply some now (.leg uuid t) } ∧
      Advances s.record (s.record.apply some now (.leg uuid t)) := by
  obtain ⟨hrepl, heps⟩ := Tracked.apply_leg some s.record now uuid t
  have hcur : (s.record.apply some now (.leg uuid t)).currentEpoch = s.record.currentEpoch := by
    cases t with
    | markInSync e =>
      rw [VolumeSyncRecord.apply]
      split
      · rw [VolumeSyncRecord.unpin]
        split <;> rfl
      · rfl
    | _ => rfl
  obtain ⟨increasing, newest⟩ := h.ordered
  refine h.write ⟨heps ▸ increasing, ?_⟩ (Nat.le_of_eq (hcur ▸ rfl)) ?_ (hcur ▸ h.plans)
  · rw [heps, hcur, newest]
  · intro i leg' hleg'
    rw [hrepl, VolumeSyncRecord.update, getElem?_modify] at hleg'
    obtain ⟨leg, hleg, rfl⟩ := Option.map_eq_some_iff.mp hleg'
    refine ⟨leg, hleg, hcur.symm ▸ ?_⟩
    split
    · next hi =>
      subst hi
      exact ht leg hleg
    · exact .refl _ _ leg

theorem Inv.record (h : Inv s) {p : CutPlan υ} (hp : s.record.latestEpochSeq ≤ p.epoch)
    (k now : ℕ) : Inv ⟨s.record.applyEpochCut p.epoch p.targets now,
        s.plans.set k { p with recorded := true }⟩ ∧
      Advances s.record (s.record.applyEpochCut p.epoch p.targets now) := by
  have hle : s.record.currentEpoch.getD 0 ≤ p.epoch := by
    rw [h.ordered.newest]
    cases hla : (s.record.epochs.map EpochEntry.name).getLast? with
    | none => exact Nat.zero_le _
    | some m => exact Nat.le_trans (le_max?_getD_of_mem (mem_of_getLast? hla)) hp
  refine h.write (h.ordered.applyEpochCut hp _ now) hle ?_ fun q hq hrec => ?_
  · intro i leg' hleg'
    rw [VolumeSyncRecord.applyEpochCut, getElem?_map] at hleg'
    obtain ⟨leg, hleg, rfl⟩ := Option.map_eq_some_iff.mp hleg'
    refine ⟨leg, hleg, ?_⟩
    split
    · exact fun _ => .inr ⟨p.epoch, rfl, Nat.le_refl _, fun _ => hle⟩
    · exact .refl _ _ leg
  · rcases mem_or_eq_of_mem_set hq with hq | rfl
    · exact Nat.le_trans (h.plans q hq hrec) hle
    · exact Nat.le_refl _

theorem Inv.step (h : Inv s) {a : CutAction υ × ℕ} (ha : s.Timely a) :
    Inv (s.step a) ∧ Advances s.record (s.step a).record := by
  have hsm : Inv s ∧ Advances s.record s.record :=
    h.write h.ordered (Nat.le_refl _) (fun _ leg hleg => ⟨leg, hleg, .refl _ _ leg⟩) h.plans
  obtain ⟨action, now⟩ := a
  unfold Cutting.step
  cases action with
  | plan cutter legs =>
    refine ⟨⟨h.ordered, h.marks, fun p hp hrec => ?_⟩, hsm.2⟩
    rcases mem_append.mp hp with hp | hp
    · exact h.plans p hp hrec
    · rw [Option.mem_toList] at hp
      unfold planCut at hp
      dsimp only at hp
      split at hp
      · cases hp
        cases hrec
      · cases hp
  | record k =>
    cases hp : s.plans[k]? with
    | none => simpa only [hp] using hsm
    | some p =>
      simp only [hp]
      exact h.record (ha p hp) k now
  | join k =>
    dsimp only
    split
    · next uuid epoch targets hp =>
      have hnot : ∀ leg ∈ s.record.replicas[s.record.find uuid]?, leg.syncState ≠ .inSync := by
        simpa only [Timely, hp] using ha
      exact h.leg uuid _ now fun leg hleg _ => .inr ⟨epoch, rfl,
        h.plans _ (mem_of_getElem? hp) rfl, fun hsy => absurd hsy (hnot leg hleg)⟩
    · exact hsm
  | stale uuid =>
    refine h.leg uuid _ now fun leg hleg hsy => ?_
    rw [apply, markStale] at hsy
    split at hsy
    · cases hsy
    · cases hsy
    · next hstl => cases hstl.symm.trans hsy
  | standby uuid epoch =>
    refine h.leg uuid _ now fun leg hleg hsy => ?_
    cases hsy
  | retire names =>
    obtain ⟨hord, hcur⟩ := h.ordered.retireEpochs names
    refine h.write hord (Nat.le_of_eq (hcur ▸ rfl)) ?_ (hcur ▸ h.plans)
    intro i leg hleg
    rw [Tracked.retireEpochs_spec.1] at hleg
    exact ⟨leg, hleg, .refl _ _ leg⟩

/-- In every run whose writes are timely the epochs are in order, and no write moves a mark back. -/
theorem epochs_advance (uuids : List υ) (l : List (CutAction υ × ℕ)) (a : CutAction υ × ℕ)
    (h : Steps step Timely (start uuids) (l ++ [a])) :
    Ordered (run step (start uuids) l).record ∧
      Advances (run step (start uuids) l).record (run step (start uuids) (l ++ [a])).record := by
  obtain ⟨hl, ha, -⟩ := steps_append.mp h
  have hst : Inv (start uuids) := by
    refine ⟨⟨.nil, rfl⟩, ?_, nofun⟩
    intro leg hleg _ e he
    obtain ⟨u, -, rfl⟩ := mem_map.mp hleg
    cases he
  have hinv := run_invariant_of_steps (fun s a h ha => (h.step ha).1) hst hl
  rw [run_append]
  exact ⟨hinv.ordered, (hinv.step ha).2⟩

/-- A leg of two is lost, the other is cut for its rebuild, and it is admitted at the next epoch. -/
theorem admission_advances :
    let l : List (CutAction ℕ × ℕ) := [(.stale 1, 0), (.plan .onDemand [0], 1), (.record 0, 2),
      (.standby 1 1, 3), (.plan (.admission 1) [0], 4), (.record 1, 5), (.join 1, 6)]
    Ordered (run step (start [0, 1]) l).record ∧ Advances (run step (start [0, 1]) l).record
      (run step (start [0, 1]) (l ++ [(.retire [1], 7)])).record :=
  epochs_advance [0, 1] _ (.retire [1], 7) (by decide)

def overtaken : Cutting ℕ :=
  run step (start [0, 1]) [(.stale 1, 0), (.plan .onDemand [0], 1), (.plan (.cycle 300) [0], 2),
    (.record 1, 3), (.plan (.cycle 300) [0], 303), (.record 2, 304)]

/-- The write of the rebuild then makes epoch 1 the current one and takes the mark of the leg back.
-/
theorem late_write_goes_back :
    ¬Ordered (overtaken.step (.record 0, 305)).record ∧
      ¬Advances overtaken.record (overtaken.step (.record 0, 305)).record := by
  constructor
  · exact fun h => absurd h.newest (by decide)
  · intro h
    obtain ⟨n, hn, hle⟩ := h 0 _ _ rfl rfl rfl rfl 2 rfl
    cases hn
    exact absurd hle (by decide)

end Cutting

end Flint.Replica
