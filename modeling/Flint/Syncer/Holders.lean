import Flint.Syncer.Deposed

/-!
# One holder per epoch

Can two writers hold leases of one epoch? A write in the epoch of the cell keeps its holder, and a
write for a new holder is in an epoch that nobody has seen. So every epoch has one holder (`who`),
whatever was answered and whoever was restarted in between.
-/

namespace Flint.Syncer

open Function EpochCell Outcome Register List Option

variable {ι : Type}

def Named (who : ℕ → ι) (cell : Register (EpochCell ι)) : Prop :=
  ∀ c ∈ cell.value, c.holder = who c.epoch

structure Known (who : ℕ → ι) (cell : Register (EpochCell ι)) (o : Observed ι) : Prop where
  past : Past cell o
  holder : o.2.holder = who o.2.epoch

namespace Writer

/-- The lease, and the cells that the writer rotates, renews or releases. -/
@[simp] def own (w : Writer ι) : List (Observed ι) :=
  w.lease.toList ++
    match w.phase with
    | .observed _ _ => []
    | phase => phase.cells

structure Honest (who : ℕ → ι) (cell : Register (EpochCell ι)) (me : ι) (w : Writer ι) : Prop where
  own : ∀ o ∈ w.own, Known who cell o ∧ o.2.holder = me
  observed : ∀ o count, w.phase = .observed (some o) count → Known who cell o

/-- What a request does: the holders of the epochs that were seen stay. -/
structure Turn (who who' : ℕ → ι) (cell : Register (EpochCell ι)) (me : ι) (r : Reply ι) :
    Prop where
  kept : ∀ e, cell.AtLeast epoch e → who' e = who e
  grows : cell.Grows epoch r.workspace.cell
  named : Named who' r.workspace.cell
  honest : r.writer.Honest who' r.workspace.cell me

variable {who : ℕ → ι} {cell : Register (EpochCell ι)} {me : ι} {w w' : Writer ι}

theorem Honest.grows (h : w.Honest who cell me) {who' : ℕ → ι} {cell' : Register (EpochCell ι)}
    (hkp : ∀ e, cell.AtLeast epoch e → who' e = who e) (hgrw : cell.Grows epoch cell')
    : w.Honest who' cell' me := by
  have hkn : ∀ {o}, Known who cell o → Known who' cell' o := fun ho =>
    ⟨ho.past.grows hgrw, ho.holder.trans (hkp _ ho.past.atLeast).symm⟩
  exact ⟨fun o ho => (h.own o ho).imp_left hkn, fun o count ho => hkn (h.observed o count ho)⟩

theorem Honest.mono (h : w.Honest who cell me) (hown : w'.own ⊆ w.own)
    (hph : ∀ o count, w'.phase ≠ .observed (some o) count) : w'.Honest who cell me :=
  ⟨fun o ho => h.own o (hown ho), fun o count ho => absurd ho (hph o count)⟩

theorem Honest.toIdle (h : w.Honest who cell me) (hls : w'.lease = w.lease) (hph : w'.phase = .idle)
    : w'.Honest who cell me :=
  h.mono (by simp [hls, hph]) (by simp [hph])

theorem Honest.toCell (h : w.Honest who cell me) {phase : WriterPhase ι} {o : Observed ι}
    (hown : Writer.own { w with phase } = w.lease.toList ++ [o])
    (ho : Known who cell o ∧ o.2.holder = me) (hph : ∀ o count, phase ≠ .observed (some o) count) :
    Honest who cell me { w with phase } := by
  refine ⟨fun p hp => ?_, fun o count ho => absurd ho (hph o count)⟩
  rcases mem_append.mp (hown ▸ hp) with hp | hp
  · exact h.own p (mem_append_left _ hp)
  · exact mem_singleton.mp hp ▸ ho

variable {b : Workspace ι} (hnm : Named who b.cell)

include hnm

theorem known_read {o : Observed ι} (h : b.cell.read = some o) : Known who b.cell o := by
  refine ⟨held_read h, ?_⟩
  obtain ⟨c, hc, rfl⟩ := map_eq_some_iff.mp h
  exact hnm c hc

theorem turn_same {r : Reply ι} (hce : r.workspace.cell = b.cell)
    (h : r.writer.Honest who b.cell me) : ∃ who', Turn who who' b.cell me r :=
  ⟨who, fun _ _ => rfl, .inl hce, hce ▸ hnm, hce ▸ h⟩

variable {fate : CasFate} (h : w.Honest who b.cell me)

include h

/-- A write of the cell, in an epoch that was not seen or for its holder. -/
theorem turn_cas {x : Option (Observed ι)} {c : EpochCell ι} {r : Reply ι}
    (hc : b.cell.current x → b.cell.AtMost epoch c.epoch ∧
      (b.cell.AtLeast epoch c.epoch → c.holder = who c.epoch))
    (hce : r.workspace.cell = (casWith b.cell x c fate).1)
    (hwtr : ∀ who', w.Honest who' r.workspace.cell me → ((casWith b.cell x c fate).2 →
      Known who' r.workspace.cell (r.workspace.cell.version, c)) →
        r.writer.Honest who' r.workspace.cell me) : ∃ who', Turn who who' b.cell me r := by
  rcases casWith_cases b.cell x c fate with heq | ⟨hcur, ok, heq⟩
  · rw [heq] at hce hwtr
    dsimp only at hce
    exact turn_same hnm hce (hce ▸ hwtr who (hce ▸ h) (by simp))
  · obtain ⟨hmo, hsm⟩ := hc hcur
    rw [heq] at hce hwtr
    dsimp only at hce
    have hsf : update who c.epoch c.holder c.epoch = c.holder := update_self ..
    have hkp : ∀ e, b.cell.AtLeast epoch e → update who c.epoch c.holder e = who e := by
      intro e he
      by_cases hec : e = c.epoch
      · rw [hec, hsf]
        exact hsm (hec ▸ he)
      · exact update_of_ne hec ..
    have hgrw : b.cell.Grows epoch r.workspace.cell := .inr ⟨c, hce, hmo⟩
    refine ⟨_, hkp, hgrw, ?_, hwtr _ (h.grows hkp hgrw) fun _ => ?_⟩
    · rw [hce]
      rintro _ ⟨⟩
      exact hsf.symm
    · rw [hce]
      exact ⟨held_put c, hsf.symm⟩

theorem turn_keep {o : Observed ι} {c : EpochCell ι} {r : Reply ι} (ho : Known who b.cell o)
    (hce : r.workspace.cell = (casWith b.cell (some o) c fate).1) (hep : c.epoch = o.2.epoch)
    (hhol : c.holder = o.2.holder)
    (hwtr : ∀ who', w.Honest who' r.workspace.cell me → ((casWith b.cell (some o) c fate).2 →
      Known who' r.workspace.cell (r.workspace.cell.version, c)) →
        r.writer.Honest who' r.workspace.cell me) : ∃ who', Turn who who' b.cell me r := by
  refine turn_cas hnm h (fun hcur => ?_) hce hwtr
  rw [hep, hhol]
  exact ⟨ho.past.atMost hcur, fun _ => ho.holder⟩

theorem turn_renew : ∃ who', Turn who who' b.cell me (w.renew fate b) := by
  rw [renew]
  split
  · next attempt doc l hph hl =>
    obtain ⟨hkn, hme⟩ := h.own l (by simp [hl])
    dsimp only
    split
    · next hok =>
      refine turn_keep hnm h hkn rfl rfl rfl fun who' _ hnew => ⟨?_, by simp [hph]⟩
      simpa [hph] using ⟨hnew hok, hme⟩
    · split
      · exact turn_same hnm rfl h
      · refine turn_keep hnm h hkn rfl rfl rfl fun who' h' _ => ?_
        exact h'.mono (by simp [hph]) (by simp)
  · exact turn_same hnm rfl h

variable [DecidableEq ι]

theorem turn_claimNext {state : Option (Observed ι)} {count : Bool}
    (hph : w.phase = .observed state count) :
    ∃ who', Turn who who' b.cell me (claimNext me fate b w count state) := by
  have hclaimed : ∀ {who' cell'} {l : Observed ι}, Known who' cell' l → l.2.holder = me →
      (claimed l).Honest who' cell' me := fun hl hme =>
    ⟨by simpa [claimed] using ⟨hl, hme⟩, by simp [claimed]⟩
  cases state with
  | none =>
    refine turn_cas hnm h (x := none) (c := acquired me none) (fun hcur => ?_) rfl
      fun who' h' hnew => ?_
    · -- nothing was ever written
      refine ⟨atMost_of_current_none hcur, fun hleast => ?_⟩
      cases hleast.le_of_atMost (atMost_of_current_none (e := 0) hcur)
    · dsimp only [claimNext] at hnew ⊢
      split
      · next hok => exact hclaimed (hnew hok) rfl
      · exact h'.toIdle rfl rfl
  | some o =>
    have ho := h.observed o count hph
    rw [claimNext]
    split
    · next hadopt =>
      have hme : o.2.holder = me := by
        rw [verdict] at hadopt
        grind
      refine turn_same hnm rfl ⟨?_, by simp [restartObservation]⟩
      simpa [restartObservation] using ⟨ho, hme⟩
    · next rotate _ =>
      refine turn_cas hnm h (x := some o) (c := acquired me (some o)) (fun hcur => ?_) rfl
        fun who' h' hnew => ?_
      · have hmo := ho.past.atMost hcur
        refine ⟨fun v hv => (hmo v hv).trans (epoch_le_acquired me o), fun hleast => ?_⟩
        exact absurd (hleast.le_of_atMost hmo) (Nat.not_succ_le_self _)
      · dsimp only at hnew ⊢
        split
        · next hok =>
          split
          · exact h'.toCell rfl ⟨hnew hok, rfl⟩ (by simp)
          · exact hclaimed (hnew hok) rfl
        · exact h'.toIdle rfl rfl
    · split
      · exact turn_same hnm rfl (by rw [waiting]; split <;> exact h.toIdle rfl rfl)
      · refine turn_keep hnm h ho rfl rfl rfl fun who' h' _ => ?_
        dsimp only [waiting]
        split <;> exact h'.toIdle rfl rfl

theorem known_of_stillOurs {l c : Observed ι} (hl : l ∈ w.own)
    (hc : stillOurs l b.cell.read = some c) : Known who b.cell c ∧ c.2.holder = me := by
  obtain ⟨hrd, hours⟩ := filter_eq_some_iff.mp hc
  simp only [sameHold, Bool.and_eq_true, decide_eq_true_eq] at hours
  exact ⟨known_read hnm hrd, hours.1.2.trans (h.own l hl).2⟩

theorem turn_next : ∃ who', Turn who who' b.cell me (w.next me fate b) := by
  have hsm : ∀ {r : Reply ι}, r.workspace.cell = b.cell → r.writer.own ⊆ w.own →
      (∀ o count, r.writer.phase ≠ .observed (some o) count) → ∃ who', Turn who who' b.cell me r :=
    fun hce hown hph => turn_same hnm hce (h.mono hown hph)
  simp only [next, rotateAgain, commitAgain]
  split
  case h_1 => exact turn_same hnm rfl h
  case h_2 hph => exact turn_claimNext hnm h hph
  case h_10 attempt doc hph =>
    split
    · next c hc =>
      obtain ⟨l, hl, hours⟩ := bind_eq_some_iff.mp hc
      have hc := known_of_stillOurs hnm h (by simp [hl]) hours
      exact turn_same hnm rfl (h.toCell rfl hc (by simp))
    · exact hsm rfl (by simp) (by simp)
  case h_11 attempt doc adopted hph =>
    have hown : adopted ∈ w.own := by simp [hph]
    obtain ⟨hkn, hme⟩ := h.own adopted hown
    refine turn_keep hnm h hkn rfl rfl rfl fun who' h' hnew => ⟨?_, by simp⟩
    dsimp only at hnew ⊢
    split
    · next hok => simpa using ⟨hnew hok, hme⟩
    · simpa using h'.own adopted hown
  case h_13 current attempt hph =>
    refine turn_keep hnm h (h.own current (by simp [hph])).1 rfl rfl rfl fun who' h' _ => ?_
    dsimp only
    split
    · exact h'.toIdle rfl rfl
    · exact h'.mono (by simp [hph]) (by simp)
  case h_14 current attempt hph =>
    split
    · next c hc =>
      have hc := known_of_stillOurs hnm h (l := current) (by simp [hph]) hc
      split
      · exact turn_same hnm rfl (h.toCell rfl hc (by simp))
      · exact hsm rfl (by simp) (by simp)
    · exact hsm rfl (by simp) (by simp)
  -- the other requests read, or write the pointer
  all_goals
    next hph =>
    repeat' split
    all_goals exact hsm rfl (by simp [hph, claimed]) (by simp [claimed])

end Writer

namespace Leases

/-- In the later state nobody else has a lease of the epoch of an earlier one, nor does the cell
name somebody else in it. -/
structure Exclusive (s s' : Leases ι) : Prop where
  own : ∀ i, ∀ o ∈ (s.writers i).lease, o.2.holder = i
  lease : ∀ i, ∀ o ∈ (s.writers i).lease, ∀ j, ∀ o' ∈ (s'.writers j).lease,
    o'.2.epoch = o.2.epoch → j = i
  cell : ∀ i, ∀ o ∈ (s.writers i).lease, ∀ c ∈ s'.workspace.cell.value,
    c.epoch = o.2.epoch → c.holder = i

structure Held (who : ℕ → ι) (s : Leases ι) : Prop where
  named : Named who s.workspace.cell
  writers : ∀ i, (s.writers i).Honest who s.workspace.cell i

/-- From `s` to `s'` the holders of the epochs that were seen stay. -/
def Follows (who : ℕ → ι) (s s' : Leases ι) : Prop :=
  ∃ who', Held who' s' ∧ ∀ e, s.workspace.cell.AtLeast epoch e →
    s'.workspace.cell.AtLeast epoch e ∧ who' e = who e

variable {who : ℕ → ι} {s : Leases ι} {i : ι}

theorem held_start (b : Workspace ι) (inc : ι → Incarnation) (i : ι) :
    ∃ who, Held who (start b inc) := by
  refine ⟨fun _ => (b.cell.value.map holder).getD i, fun c hc => ?_, fun j => ⟨?_, ?_⟩⟩
  · rw [show b.cell.value = some c from hc]
    rfl
  all_goals simp [start]

theorem Held.known (h : Held who s) {o : Observed ι} (ho : o ∈ (s.writers i).lease) :
    Known who s.workspace.cell o ∧ o.2.holder = i :=
  (h.writers i).own o (by simp [mem_def.mp ho])

theorem Held.refl (h : Held who s) : Follows who s s := ⟨who, h, fun _ he => ⟨he, rfl⟩⟩

variable [DecidableEq ι]

theorem Held.setWriter (h : Held who s) {w : Writer ι} (hw : w.Honest who s.workspace.cell i) :
    Follows who s (s.setWriter i w) :=
  Held.refl ⟨h.named, (forall_update_iff s.writers fun j w => w.Honest who s.workspace.cell j).mpr
    ⟨hw, fun j _ => h.writers j⟩⟩

theorem Held.reply (h : Held who s) {r : Reply ι}
    (hr : ∃ who', Writer.Turn who who' s.workspace.cell i r) : Follows who s (s.reply i r) := by
  obtain ⟨who', hr⟩ := hr
  refine ⟨who', ⟨hr.named, ?_⟩, fun e he => ⟨hr.grows.atLeast he, hr.kept e he⟩⟩
  exact (forall_update_iff s.writers fun j w => w.Honest who' r.workspace.cell j).mpr
    ⟨hr.honest, fun j _ => (h.writers j).grows hr.kept hr.grows⟩

theorem Held.step (h : Held who s) (a : LeaseAction ι) : Follows who s (s.step a) := by
  cases a <;> rw [Leases.step]
  case next i fate => exact h.reply (Writer.turn_next h.named (h.writers i))
  case renew i fate => exact h.reply (Writer.turn_renew h.named (h.writers i))
  case restart i => exact h.setWriter ((h.writers i).mono (by simp) (by simp))
  case claim i count =>
    split
    · next hph =>
      refine h.setWriter ⟨fun o ho => (h.writers i).own o ?_, fun o _ ho => ?_⟩
      · simpa [hph] using ho
      · injection ho with hrd
        exact Writer.known_read h.named hrd
    · exact h.refl
  case commit i =>
    split
    · exact h.setWriter ((h.writers i).mono (by simp) (by simp))
    · exact h.refl
  case leave i again =>
    split
    · cases again <;> exact h.setWriter ((h.writers i).mono (by simp) (by simp))
    · exact h.refl
  case release i =>
    split
    · next l _ hl => exact h.setWriter ((h.writers i).mono (by simp [hl]) (by simp))
    · exact h.refl
  case poison =>
    split
    · exact Held.refl ⟨h.named, h.writers⟩
    · exact h.refl

theorem Held.run (h : Held who s) (l : List (LeaseAction ι)) :
    Follows who s (run Leases.step s l) := by
  refine run_invariant (P := Follows who s) ?_ h.refl l
  rintro s' a ⟨who', h', hkp⟩
  obtain ⟨who'', h'', hkp'⟩ := h'.step a
  refine ⟨who'', h'', fun e he => ?_⟩
  obtain ⟨hleast, hwho⟩ := hkp e he
  exact ⟨(hkp' e hleast).1, (hkp' e hleast).2.trans hwho⟩

/-- Every epoch of the cell has one holder, over whole runs. -/
theorem one_holder_per_epoch (b : Workspace ι) (inc : ι → Incarnation)
    (l l' : List (LeaseAction ι)) :
    Exclusive (run step (start b inc) l) (run step (start b inc) (l ++ l')) := by
  have hrun : ∀ i, ∀ o ∈ ((run step (start b inc) l).writers i).lease, o.2.holder = i ∧
      ∃ who, Held who (run step (start b inc) (l ++ l')) ∧ who o.2.epoch = i := by
    intro i o ho
    obtain ⟨who₀, h₀⟩ := held_start b inc i
    obtain ⟨who, h, -⟩ := h₀.run l
    obtain ⟨hkn, hme⟩ := h.known ho
    obtain ⟨who', h', hkp⟩ := h.run l'
    rw [run_append]
    exact ⟨hme, who', h', (hkp _ hkn.past.atLeast).2.trans (hkn.holder.symm.trans hme)⟩
  refine ⟨fun i o ho => (hrun i o ho).1, fun i o ho j o' ho' he => ?_, fun i o ho c hc he => ?_⟩
  · obtain ⟨-, who, h, hwho⟩ := hrun i o ho
    obtain ⟨hkn, hme⟩ := h.known ho'
    rw [← hme, hkn.holder, he, hwho]
  · obtain ⟨-, who, h, hwho⟩ := hrun i o ho
    rw [h.named c hc, he, hwho]

end Leases

end Flint.Syncer
