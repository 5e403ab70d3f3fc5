import Flint.Extent.Reclaiming

/-!
# Every run of the allocator

A committed transaction is a sequence of moves (`Executed.moves`) and keeps the row counter right,
so every state a run reaches is lawful (`reachable_lawful`): the physical ranges of the three tables
tile `[0, next_free)`.
-/

namespace Flint.Extent

open Outcome KeyedTable Moves List Option Span

variable {budget : Budget} {volume : String}

def Op.GivesUp (s : Volume) (g : GrantRow) : Op → Prop
  | .layoutReturn f c o l =>
    returnedGrant s (castI64 f) c.toNat o.toNat (o.toNat + l.toNat) g
  | .fenceClient c | .revokeClient c => g.clientId = c.toNat
  | .dropVolume => True
  | _ => False

/-! ### Transactions as moves -/

variable {s s' : Volume} {c : UInt64}

variable {spare : GrantRow → Prop} {f : UInt64} {start stop : Int} {rows : List ExtentRow}

theorem GrantSpec.moves (hs : Sound s) {new : List ExtentRow}
    (h : GrantSpec s f c start stop s' rows new) : Moves spare s s' := by
  obtain ⟨t, hpl, rfl⟩ := h.result
  refine .trans (.tail hpl.moves .recount)
    (grantRows_moves ⟨Int.natCast_nonneg _, h.client⟩ fun r hr => ?_)
  refine (hpl.mem_extents hs).mpr ?_
  rcases mem_append.mp (h.rows_perm.mem_iff.mp hr) with hr | hr
  · exact .inr (mem_overlappingExtents.mp hr).1
  · exact .inl hr

theorem GrantReadSpec.moves (h : GrantReadSpec s f c start stop s' rows) : Moves spare s s' := by
  rw [h.result]
  refine grantRows_moves ⟨Int.natCast_nonneg _, h.client⟩ fun r hr => ?_
  rw [h.rows_eq] at hr
  exact (mem_overlappingExtents.mp (mem_filter.mp hr).1).1

def Op.IsRecord : Op → Prop
  | .fenceRecord .. | .markFenceDelivered .. | .unfenceRecord .. | .hostAdmit .. | .hostEvict ..
  | .nodeAttach .. | .nodeDetach .. => True
  | _ => False

inductive Executed (s : Volume) : Op → Reply → Volume → Prop
  | registerKept {c r} : Executed s (.registerVolume c) r s
  | registered {c r} (ha : s.arena = none) (hmax : (c.toNat : Int) ≤ i64Max) :
      Executed s (.registerVolume c) r { s with arena := some ⟨c.toNat, 0, 0⟩ }
  | expandKept {c r} : Executed s (.expandVolume c) r s
  | expanded {c r a} (ha : s.arena = some a) (hlt : a.sizeCeiling < c.toNat)
      (hmax : (c.toNat : Int) ≤ i64Max) :
      Executed s (.expandVolume c) r { s with arena := some { a with sizeCeiling := c.toNat } }
  | granted {f c o l fresh s' start stop rows new reused} (har : RangeArgs o l start stop)
      (hsp : GrantSpec s f c start stop s' rows new) :
      Executed s (.grant f c o l fresh) (.extents (rows.map fun e => e.granted reused)) s'
  | grantedRead {f c o l exts s' start stop rows}
      (hsp : GrantReadSpec s f c start stop s' rows) :
      Executed s (.grantRead f c o l) (.extents exts) s'
  | returned {f c o l r s' start stop} (har : RangeArgs o l start stop)
      (hsp : ReturnSpec s f c start stop s') : Executed s (.layoutReturn f c o l) r s'
  | committed {f c o l r s' start stop} (hsp : CommitSpec s f c start stop s') :
      Executed s (.commitExtents f c o l) r s'
  | reclaimed {f o l now r s' start stop} (har : RangeArgs o l start stop)
      (hsp : ReclaimSpec s f start stop s') : Executed s (.reclaimComplete f o l now) r s'
  | unparked {r s'} (h : Unparks s s') : Executed s .releaseQuarantine r s'
  | swept {r s'} (h : Relation.ReflTransGen (Sweep s) s s') :
    Executed s .sweepQuarantineDelivered r s'
  | fenced {c r} : Executed s (.fenceClient c) r { s with
      grants := fenceGrants s.grants fun g => g.clientId = c.toNat && !g.fenced
      grace := s.grace.delete fun q => q.clientId = c.toNat }
  | revoked {c r s'} (hsp : RevokeSpec s c s') : Executed s (.revokeClient c) r s'
  | recorded {op r fenced hosts attaches} (hop : op.IsRecord) :
      Executed s op r { s with fenced, hosts, attaches }
  | dropped {r} : Executed s .dropVolume r { Volume.empty with grace := s.grace }

variable {op : Op} {r : Reply}

theorem registerVolume_executed {u : Unit} (h : registerVolume s c = .ok (s', u)) :
    Executed s (.registerVolume c) r s' := by
  unfold registerVolume at h
  obtain ⟨n, hn, h⟩ := bind_ok.mp h
  obtain ⟨rfl, hmax⟩ := asI64_ok hn
  cases ha : s.arena with
  | some a =>
    rw [ha] at h
    cases pure_ok.mp h
    exact .registerKept
  | none =>
    rw [ha] at h
    cases pure_ok.mp h
    exact .registered ha hmax

theorem expandVolume_executed {n : UInt64} (h : expandVolume volume s c = .ok (s', n)) :
    Executed s (.expandVolume c) r s' := by
  unfold expandVolume at h
  obtain ⟨want, hwant, h⟩ := bind_ok.mp h
  obtain ⟨rfl, hmax⟩ := asI64_ok hwant
  cases ha : s.arena with
  | none =>
    rw [ha] at h
    cases h
  | some a =>
    rw [ha] at h
    dsimp only at h
    split at h
    · cases pure_ok.mp h
      exact .expandKept
    · next hlt =>
      obtain ⟨_, -, h⟩ := bind_ok.mp h
      cases pure_ok.mp h
      exact .expanded ha (not_le.mp hlt) hmax

theorem exec_executed (hs : Sound s) (h : exec budget volume s op = .ok (s', r)) :
    Executed s op r s' := by
  cases op
  all_goals
    dsimp only [exec] at h
    obtain ⟨a, hrun, rfl⟩ := answer_ok.mp h
  case registerVolume => exact registerVolume_executed hrun
  case expandVolume => exact expandVolume_executed hrun
  case grant =>
    obtain ⟨start, stop, rows, new, reused, har, hsp, rfl⟩ := grant_ok hs hrun
    exact .granted har hsp
  case grantRead =>
    obtain ⟨start, stop, rows, -, hsp, -⟩ := grantRead_ok hrun
    exact .grantedRead hsp
  case layoutReturn =>
    obtain ⟨start, stop, har, hsp⟩ := layoutReturn_ok hs hrun
    exact .returned har hsp
  case commitExtents =>
    obtain ⟨start, stop, -, hsp⟩ := commitExtents_ok hrun
    exact .committed hsp
  case reclaimComplete =>
    obtain ⟨start, stop, har, hsp⟩ := reclaimComplete_ok hs hrun
    exact .reclaimed har hsp
  case releaseQuarantine => exact .unparked (releaseQuarantine_ok hs.positive hrun)
  case sweepQuarantineDelivered => exact .swept (sweepQuarantineDelivered_ok hs hrun)
  case revokeClient => exact .revoked (revokeClient_ok hs hrun)
  case fenceClient =>
    obtain ⟨client, hcl, hrun⟩ := bind_ok.mp hrun
    cases pure_ok.mp hrun
    obtain ⟨rfl, -⟩ := asI64_ok hcl
    exact .fenced
  case fenceRecord | markFenceDelivered | unfenceRecord | nodeAttach =>
    obtain ⟨_, -, hrun⟩ := bind_ok.mp hrun
    cases pure_ok.mp hrun
    exact .recorded trivial
  case hostAdmit | hostEvict | nodeDetach =>
    obtain ⟨rfl, -⟩ := Prod.mk.inj (Except.ok.inj hrun)
    exact .recorded trivial
  case dropVolume =>
    obtain ⟨rfl, -⟩ := Prod.mk.inj (Except.ok.inj hrun)
    exact .dropped

/-- **A committed transaction is a sequence of moves.** -/
theorem Executed.moves (hs : Sound s) (hop : op ≠ .dropVolume) (h : Executed s op r s') :
    Moves (fun g => ¬op.GivesUp s g) s s' := by
  cases h with
  | registerKept | expandKept => exact .refl
  | registered ha hmax => exact .single (.register ha ⟨Int.natCast_nonneg _, hmax⟩)
  | expanded ha hlt hmax => exact .single (.expand ha hlt hmax)
  | granted _ hsp => exact hsp.moves hs
  | grantedRead hsp => exact hsp.moves
  | returned har hsp =>
    refine .trans (returnGrants_moves fun g _ hg hspa => hspa ?_) hsp.regroup.moves
    rw [har.start_eq, har.stop_eq] at hg
    exact hg
  | committed hsp => exact hsp.moves _
  | reclaimed _ hsp =>
    obtain ⟨t, n, hcu, rfl⟩ := hsp.result
    exact .tail (Cuts.moves hcu) .recount
  | unparked h => exact h.moves
  | swept h => exact (Sweeps.unparks h).moves
  | @fenced c =>
    refine .tail (.single (.remember (s.grace.delete fun q => q.clientId = c.toNat)
      fun q hq => .inl (mem_delete.mp hq).1)) (.fence fun g _ hg hspa => hspa ?_)
    rw [Bool.and_eq_true, decide_eq_true_eq] at hg
    exact hg.1
  | @revoked c _ _ hsp =>
    refine .head (.release fun g _ hg hspa => hspa ?_) hsp.regroup.moves
    exact of_decide_eq_true (p := g.clientId = c.toNat) hg
  | recorded => exact .single .records
  | dropped => exact absurd rfl hop

theorem Executed.eq_of_drop (h : Executed s .dropVolume r s') :
    s' = { Volume.empty with grace := s.grace } := by
  cases h with
  | recorded hop => exact absurd hop id
  | dropped => rfl

theorem exec_sound (hs : Sound s) (h : exec budget volume s op = .ok (s', r)) : Sound s' := by
  have hdid := exec_executed hs h
  by_cases hop : op = .dropVolume
  · subst hop
    exact hdid.eq_of_drop ▸ Sound.empty s.grace
  · exact sound (hdid.moves hs hop) hs

/-! ### The row counter -/

theorem Counted.of_eq (harena : s'.arena.map Arena.extentRows = s.arena.map Arena.extentRows)
    (hlen : s'.extents.rows.length = s.extents.rows.length) (hs : Counted s) : Counted s' := by
  intro a' ha'
  rw [ha', map_some] at harena
  obtain ⟨a, ha, hrw⟩ := map_eq_some_iff.mp harena.symm
  rw [hlen, ← hrw]
  exact hs a ha

theorem Placed.extentRows {t : Volume} {es : List ExtentRow} (h : Placed s es t) :
    t.arena.map Arena.extentRows = s.arena.map Arena.extentRows := by
  induction h with
  | nil => rfl
  | snoc _ he ih =>
    rw [← ih]
    cases he with
    | mk u _ _ _ _ _ _ htk =>
      change u.arena.map Arena.extentRows = _
      rcases htk.arena with h | ⟨a, ha, -, h⟩
      · rw [h]
      · rw [h, ha]
        rfl

theorem GrantSpec.counted (hs : Sound s) {new : List ExtentRow}
    (h : GrantSpec s f c start stop s' rows new) (hcnt : Counted s) : Counted s' := by
  obtain ⟨t, hpl, rfl⟩ := h.result
  intro a' ha'
  have hlen := (hpl.extents_perm hs).length_eq
  rw [length_append] at hlen
  -- the arena is the placed one with the counter raised by the number of new rows
  change t.arena.map _ = some a' at ha'
  obtain ⟨b, hb, rfl⟩ := map_eq_some_iff.mp ha'
  have hrw := hpl.extentRows
  rw [hb, map_some] at hrw
  obtain ⟨a, ha, hab⟩ := map_eq_some_iff.mp hrw.symm
  have hold := hcnt a ha
  change b.extentRows + (new.length : Int) = (t.extents.rows.length : Int)
  omega

theorem Sound.rows_nil (hs : Sound s) (ha : s.arena = none) : s.extents.rows = [] := by
  have hhomes := hs.arena ha
  unfold Volume.homes at hhomes
  simp only [append_eq_nil_iff, map_eq_nil_iff] at hhomes
  exact hhomes.1.1

theorem Executed.counted (hs : Sound s) (hcnt : Counted s) (h : Executed s op r s') :
    Counted s' := by
  cases h with
  | registerKept | expandKept => exact hcnt
  | registered ha =>
    rintro a ⟨rfl⟩
    change (0 : Int) = (s.extents.rows.length : Int)
    rw [hs.rows_nil ha]
    rfl
  | expanded ha =>
    refine Counted.of_eq (s := s) ?_ rfl hcnt
    rw [ha]
    rfl
  | granted _ hsp => exact hsp.counted hs hcnt
  | grantedRead hsp =>
    rw [hsp.result]
    exact hcnt.of_eq rfl rfl
  | returned _ hsp => exact hsp.counted hcnt
  | committed hsp => exact hcnt.of_eq (by rw [hsp.frame]) hsp.length
  | reclaimed _ hsp => exact hsp.counted hcnt
  | unparked h =>
    rw [h.frame]
    exact hcnt.of_eq rfl rfl
  | swept h =>
    rw [(Sweeps.unparks h).frame]
    exact hcnt.of_eq rfl rfl
  | fenced | recorded => exact hcnt.of_eq rfl rfl
  | revoked hsp => exact hsp.counted hcnt
  | dropped => nofun

/-! ### Columns in range -/

structure ExtentRow.InRange (r : ExtentRow) : Prop where
  file : ∃ f, castI64 f = r.fileId
  start : 0 ≤ r.logicalOffset
  stop : r.logicalOffset + r.length ≤ i64Max

structure GraceRow.InRange (q : GraceRow) : Prop where
  file : ∃ f, castI64 f = q.fileId
  offset : 0 ≤ q.logicalOffset ∧ q.logicalOffset < i64Max
  client : 0 ≤ q.clientId ∧ q.clientId ≤ i64Max

/-- The values the columns take: what a checked argument can be, and a ceiling that fits. -/
structure InRange (s : Volume) : Prop where
  rows : ∀ r ∈ s.extents, r.InRange
  grants : ∀ g ∈ s.grants, 0 ≤ g.clientId ∧ g.clientId ≤ i64Max
  grace : ∀ q ∈ s.grace, q.InRange
  ceiling : ∀ a, s.arena = some a → a.sizeCeiling ≤ i64Max

theorem joinedRow_inRange {head : ExtentRow} {tail : List ExtentRow}
    (hrun : (head :: tail).IsChain Adjoins) (hpos : ∀ r ∈ head :: tail, 0 < r.length)
    (hrw : ∀ r ∈ head :: tail, r.InRange) : (joinedRow head tail).InRange := by
  have hhd := hrw head (.head _)
  refine ⟨hhd.file, hhd.start, ?_⟩
  -- the last byte of the joined row is a byte of a row of the run
  have hcvr := cover_run_logical hrun hpos
    ((joinedRow head tail).logicalOffset + (joinedRow head tail).length - 1)
  have hlen := length_le_joinedRow hrun hpos (.head _)
  have hpos' := hpos head (.head _)
  have hmem : (joinedRow head tail).logicalOffset + (joinedRow head tail).length - 1 ∈
      (joinedRow head tail).logical := by
    rw [ExtentRow.mem_logical]
    have hlo : (joinedRow head tail).logicalOffset = head.logicalOffset := rfl
    omega
  rw [if_pos hmem] at hcvr
  obtain ⟨r, hr, hb⟩ := cover_map_pos_iff.mp (hcvr ▸ Nat.one_pos)
  have h₁ := (hrw r hr).stop
  have h₂ : _ < r.logicalOffset + r.length := hb.2
  omega

theorem Move.inRange (hs : Sound s) (h : Move spare s s') (hr : InRange s) : InRange s' := by
  cases h with
  | @place e _ _ h =>
    cases h with
    | mk t hlen _ hlo hst hfi _ htk =>
      have hgrs : t.grants = s.grants := by rw [htk.frame]
      have hgra : t.grace = s.grace := by rw [htk.frame]
      refine ⟨fun r hmem => ?_, hgrs ▸ hr.grants, hgra ▸ hr.grace, fun a' ha' => ?_⟩
      · rcases mem_put.mp hmem with rfl | ⟨hmem, -⟩
        · exact ⟨hfi, hlo, hst⟩
        · exact hr.rows r hmem
      · change t.arena = some a' at ha'
        rcases htk.arena with heq | ⟨a, ha, -, heq⟩
        · exact hr.ceiling a' (heq ▸ ha')
        · rw [heq] at ha'
          cases ha'
          exact hr.ceiling a ha
  | join h =>
    cases h with
    | mk head tail others extents hold hrun _ hnew =>
      have hmem : ∀ r ∈ head :: tail ++ others, r ∈ s.extents := fun r hr => hold.mem_iff.mpr hr
      refine ⟨fun r hmem' => ?_, hr.grants, hr.grace, hr.ceiling⟩
      rcases mem_cons.mp (hnew.mem_iff.mp hmem') with rfl | hoth
      · exact joinedRow_inRange hrun
          (fun r h => hs.positive.extents r (hmem r (mem_append_left _ h)))
          fun r h => hr.rows r (hmem r (mem_append_left _ h))
      · exact hr.rows r (hmem r (mem_append_right _ hoth))
  | cut h =>
    cases h with
    | mk t others extents free quarantine hold _ hmt _ _ hnew _ =>
      refine ⟨fun r hmem => ?_, fun g hg => hr.grants g (mem_delete.mp hg).1,
        fun q hq => hr.grace q (mem_delete.mp hq).1, hr.ceiling⟩
      rcases mem_append.mp (hnew.mem_iff.mp hmem) with hkp | hoth
      · obtain ⟨hfi, -, -, -, hlo, hhi, -⟩ := kept_spec hmt hkp
        have ht := hr.rows t (hold.mem_iff.mpr (.head _))
        exact ⟨hfi ▸ ht.file, ht.start.trans hlo, hhi.trans ht.stop⟩
      · exact hr.rows r (hold.mem_iff.mpr (.tail t hoth))
  | unpark h =>
    rw [h.frame]
    exact ⟨hr.rows, hr.grants, hr.grace, hr.ceiling⟩
  | hold hrow hon hgen hlv hcl =>
    refine ⟨hr.rows, fun g hg => ?_, hr.grace, hr.ceiling⟩
    rcases mem_insertOrIgnore.mp hg with hg | ⟨rfl, -⟩
    · exact hr.grants g hg
    · exact hcl
  | release => exact ⟨hr.rows, fun g hg => hr.grants g (mem_delete.mp hg).1, hr.grace, hr.ceiling⟩
  | fence =>
    refine ⟨hr.rows, fun g hg => ?_, hr.grace, hr.ceiling⟩
    obtain ⟨x, hx, rfl | ⟨-, rfl⟩⟩ := exists_of_mem_fenceGrants hg
    · exact hr.grants g hx
    · exact hr.grants x hx
  | remember grace h =>
    refine ⟨hr.rows, hr.grants, fun q hq => ?_, hr.ceiling⟩
    rcases h q hq with hq | ⟨g, hg, -, rfl⟩
    · exact hr.grace q hq
    · -- the record of a grant is at the offset of its row
      obtain ⟨r, hrow, hon, -⟩ := hs.granted g hg
      have hrow' := hr.rows r hrow
      have hpos := hs.positive.extents r hrow
      have hlo := hrow'.start
      have hhi := hrow'.stop
      obtain ⟨f, hf⟩ := hrow'.file
      refine ⟨⟨f, hf.trans hon.1.symm⟩, ?_, hr.grants g hg⟩
      change 0 ≤ g.logicalOffset ∧ g.logicalOffset < i64Max
      rw [hon.2]
      omega
  | promote =>
    refine ⟨fun r hmem => ?_, hr.grants, hr.grace, hr.ceiling⟩
    obtain ⟨x, hx, rfl | ⟨-, rfl⟩⟩ := exists_of_mem_promoteExtents hmem
    · exact hr.rows r hx
    · exact ⟨(hr.rows x hx).file, (hr.rows x hx).start, (hr.rows x hx).stop⟩
  | recount =>
    refine ⟨hr.rows, hr.grants, hr.grace, fun a' ha' => ?_⟩
    obtain ⟨a, ha, rfl⟩ := map_eq_some_iff.mp ha'
    exact hr.ceiling a ha
  | register _ hc =>
    refine ⟨hr.rows, hr.grants, hr.grace, fun a ha => ?_⟩
    cases ha
    exact hc.2
  | expand _ _ hmax =>
    refine ⟨hr.rows, hr.grants, hr.grace, fun a ha => ?_⟩
    cases ha
    exact hmax
  | records => exact ⟨hr.rows, hr.grants, hr.grace, hr.ceiling⟩

theorem Moves.inRange (hs : Sound s) (h : Moves spare s s') (hr : InRange s) : InRange s' := by
  induction h with
  | refl => exact hr
  | tail hmvs hmv ih => exact hmv.inRange (sound hmvs hs) ih

theorem InRange.empty {grace : KeyedTable GraceRow.key} (hgra : ∀ q ∈ grace, q.InRange) :
    InRange { Volume.empty with grace } where
  rows _ h := absurd h (not_mem_empty _)
  grants _ h := absurd h (not_mem_empty _)
  grace := hgra
  ceiling _ h := absurd h (by simp [Volume.empty])

/-- The bytes below the watermark have one home each, the others none. -/
def Tiled (s : Volume) : Prop :=
  0 ≤ s.watermark ∧ ∀ b, cover s.homes b = if 0 ≤ b ∧ b < s.watermark then 1 else 0

theorem Tiled.empty (grace : KeyedTable GraceRow.key) :
    Tiled { Volume.empty with grace } := by
  refine ⟨le_refl 0, fun b => ?_⟩
  rw [if_neg (fun hb => absurd (lt_of_le_of_lt hb.1 hb.2) (lt_irrefl _))]
  rfl

theorem Conserves.tiled (h : Conserves s s') (hs : Tiled s) : Tiled s' := by
  have hmono := h.mono
  have hlo := hs.1
  refine ⟨hlo.trans hmono, fun b => ?_⟩
  rw [h.cover b, hs.2 b]
  split_ifs <;> omega

structure Lawful (s : Volume) : Prop where
  sound : Sound s
  counted : Counted s
  inRange : InRange s
  tiled : Tiled s

theorem exec_lawful (hs : Lawful s) (h : exec budget volume s op = .ok (s', r)) : Lawful s' := by
  have hsnd := exec_sound hs.sound h
  have hdid := exec_executed hs.sound h
  have hcounted := hdid.counted hs.sound hs.counted
  by_cases hop : op = .dropVolume
  · subst hop
    obtain rfl := hdid.eq_of_drop
    exact ⟨hsnd, hcounted, InRange.empty hs.inRange.grace, Tiled.empty s.grace⟩
  · have hmvs := hdid.moves hs.sound hop
    exact ⟨hsnd, hcounted, inRange hs.sound hmvs hs.inRange,
      (conserves hmvs hs.sound).tiled hs.tiled⟩

theorem Lawful.empty : Lawful .empty where
  sound := Sound.empty .empty
  counted _ ha := absurd ha (by simp [Volume.empty])
  inRange := InRange.empty fun _ h => absurd h (not_mem_empty _)
  tiled := Tiled.empty .empty

theorem step_lawful (budget : Budget) (volume : String) (op : Op) (hs : Lawful s) :
    Lawful (step budget volume s op) :=
  step_invariant hs fun _ _ h => exec_lawful hs h

theorem reachable_lawful (budget : Budget) (volume : String) (ops : List Op) :
    Lawful (runOps budget volume .empty ops) :=
  run_invariant (fun _ op hs => step_lawful budget volume op hs) Lawful.empty ops

/-- **The arena is partitioned.** In every run the physical ranges of `extents`, `extent_free` and
`extent_quarantine` are pairwise disjoint, and their union is `[0, next_free)`. -/
theorem arena_partition (budget : Budget) (reqs : List (String × Op)) (volume : String) :
    let s := Outcome.run (Db.step budget) (fun _ => .empty) reqs volume
    s.homes.Pairwise Span.Disjoint ∧ (∀ b, (∃ h ∈ s.homes, b ∈ h) ↔ 0 ≤ b ∧ b < s.watermark) ∧
      ∀ a, s.arena = some a → s.watermark = a.nextFree ∧ a.nextFree ≤ a.sizeCeiling := by
  intro s
  have hrun : s = runOps budget volume .empty (opsOn volume reqs) := Db.run_apply _ reqs volume
  have hs : Lawful s := hrun ▸ reachable_lawful ..
  refine ⟨pairwise_disjoint_of_cover_le_one hs.sound.once, fun b => ?_, fun a ha => ?_⟩
  · rw [← cover_pos_iff, hs.tiled.2 b]
    split_ifs with hb
    · exact iff_of_true Nat.one_pos hb
    · exact iff_of_false (lt_irrefl 0) hb
  · refine ⟨?_, hs.sound.ceiling a ha⟩
    unfold Volume.watermark
    rw [ha]
    rfl

end Flint.Extent
