import Flint.Extent.Runs

/-!
# The bound on extent rows

`grant` refuses to mint a row when the rows would pass the budget. No other transaction asks, and a
reclaim of a range strictly inside one row leaves a row on each side of it
(`reclaim_passes_budget`).
-/

namespace Flint.Extent

open Outcome ExtentRow List

variable {budget : Budget} {volume : String}

def WithinBudget (budget : Budget) (s : Volume) : Prop :=
  (s.extents.rows.length : Int) ≤ budget.rows

instance (budget : Budget) (s : Volume) : Decidable (WithinBudget budget s) :=
  inferInstanceAs (Decidable (_ ≤ _))

variable {s s' : Volume}

theorem WithinBudget.of_le (hs : WithinBudget budget s)
    (hle : s'.extents.rows.length ≤ s.extents.rows.length) : WithinBudget budget s' :=
  le_trans (Int.ofNat_le.mpr hle) hs

/-! ### Granting -/

theorem takeSpace_extents {s : Volume} {fresh : Bool} {len : Int} {t : Taken}
    (h : takeSpace s fresh len = .ok t) : t.vol.extents = s.extents := by
  unfold takeSpace at h
  dsimp only at h
  split at h
  · unfold takeFree at h
    obtain ⟨free, -, ht⟩ := bind_ok.mp h
    obtain rfl := pure_ok.mp ht
    rfl
  · unfold takeBump at h
    split at h
    · cases h
    · obtain ⟨_, -, ht⟩ := bind_ok.mp h
      obtain rfl := pure_ok.mp ht
      rfl

theorem allocate_length {file : Int} {fresh : Bool} {gaps : List Span} {w w' : Alloc}
    (h : gaps.foldlM (allocateGap file fresh) w = .ok w') :
    w'.vol.extents.rows.length = w.vol.extents.rows.length + gaps.length := by
  induction gaps generalizing w with
  | nil =>
    obtain rfl := pure_ok.mp h
    rfl
  | cons g gaps ih =>
    rw [foldlM_cons] at h
    obtain ⟨w₁, hone, hrs⟩ := bind_ok.mp h
    unfold allocateGap at hone
    obtain ⟨t, htk, hone⟩ := bind_ok.mp hone
    obtain ⟨extents, hins, hone⟩ := bind_ok.mp hone
    obtain rfl := pure_ok.mp hone
    have hlen := (KeyedTable.insert_perm (insertInto_ok.mp hins)).length_eq
    rw [takeSpace_extents htk, length_cons] at hlen
    have htl := ih hrs
    change w'.vol.extents.rows.length = extents.rows.length + gaps.length at htl
    rw [htl, hlen, length_cons]
    omega

theorem grant_withinBudget {a : Arena} {f c o l : UInt64} {fresh : Bool}
    {reply : List GrantedExtent} (hs : WithinBudget budget s) (ha : s.arena = some a)
    (hcnt : a.extentRows = s.extents.rows.length)
    (h : grant budget.rows volume s f c o l fresh = .ok (s', reply)) : WithinBudget budget s' := by
  unfold grant at h
  obtain ⟨start, -, h⟩ := bind_ok.mp h
  obtain ⟨stop, -, h⟩ := bind_ok.mp h
  obtain ⟨client, -, h⟩ := bind_ok.mp h
  obtain ⟨_, -, h⟩ := bind_ok.mp h
  obtain ⟨_, -, h⟩ := bind_ok.mp h
  obtain ⟨_, hbud, h⟩ := bind_ok.mp h
  obtain ⟨w, hw, h⟩ := bind_ok.mp h
  obtain ⟨_, -, h⟩ := bind_ok.mp h
  cases pure_ok.mp h
  have hlen := allocate_length hw
  unfold checkRowBudget at hbud
  rw [ha] at hbud
  have hrm := refuse_ok.mp hbud
  -- the grant rows and the counter leave the extents alone
  have hexs : ∀ t : Volume, (grantRows t client .rw
      (sortedByOffset (overlappingExtents s (castI64 f) start stop ++ w.newRows))).extents
        = t.extents := fun _ => rfl
  unfold WithinBudget
  rw [hexs]
  have hrw : (if w.newRows = [] then w.vol else w.vol.addExtentRows w.newRows.length).extents
      = w.vol.extents := by
    split <;> rfl
  rw [hrw, hlen]
  by_cases hgaps : gapsFrom stop start (overlappingExtents s (castI64 f) start stop) = []
  · rw [hgaps, length_nil, Nat.add_zero]
    exact hs
  · have hle : ¬a.extentRows + _ > budget.rows := fun hgt => hrm ⟨hgaps, hgt⟩
    rw [hcnt] at hle
    push_cast
    exact not_lt.mp hle

theorem Regroup.length_le (h : Regroup s s') : s'.extents.rows.length ≤ s.extents.rows.length := by
  induction h with
  | refl => exact le_refl _
  | tail _ hte ih =>
    refine le_trans ?_ ih
    rcases hte with hj | ⟨n, rfl⟩
    · cases hj with
      | mk head tail others extents hold _ _ hnew =>
        have hbef := hold.length_eq
        have haft := hnew.length_eq
        rw [length_append, length_cons] at hbef
        rw [length_cons] at haft
        change extents.rows.length ≤ _
        omega
    · exact le_refl _

/-! ### Reclaiming -/

def Splits (s : Volume) (file start stop : Int) : Prop :=
  ∃ r ∈ s.extents, r.fileId = file ∧ r.logicalOffset < start ∧ stop < r.logicalOffset + r.length

instance (s : Volume) (file start stop : Int) : Decidable (Splits s file start stop) := by
  unfold Splits
  infer_instance

theorem length_kept_le {t : ExtentRow} {start stop : Int} :
    (t.kept start stop).length ≤
      if t.logicalOffset < start ∧ stop < t.logicalOffset + t.length then 2 else 1 := by
  unfold kept
  rw [length_append]
  have hst : (t.cut start stop).start > t.logicalOffset → t.logicalOffset < start := by
    intro h
    change t.logicalOffset < max t.logicalOffset start at h
    omega
  have hto : (t.cut start stop).stop < t.logicalOffset + t.length →
      stop < t.logicalOffset + t.length := by
    intro h
    unfold Span.stop cut at h
    dsimp only at h
    omega
  split_ifs with h₁ h₂ hin
  · exact le_refl 2
  · exact absurd ⟨hst h₁, hto h₂⟩ hin
  all_goals simp

theorem not_meets_of_kept {t k : ExtentRow} {start stop : Int}
    (hmt : t.logicalOffset < stop ∧ start < t.logicalOffset + t.length)
    (hk : k ∈ t.kept start stop) :
    ¬(k.logicalOffset < stop ∧ start < k.logicalOffset + k.length) := by
  obtain ⟨-, -, -, -, -, -, -, hside⟩ := kept_spec hmt hk
  rintro ⟨hlo, hhi⟩
  rcases hside with hside | hside
  · exact absurd hhi (not_lt.mpr hside)
  · exact absurd hlo (not_lt.mpr hside)

section Cuts

variable {file start stop : Int} {s s' t : Volume}

theorem Cut.length_le (h : Cut file start stop s s') :
    s'.extents.rows.length ≤
      s.extents.rows.length + if Splits s file start stop then 1 else 0 := by
  cases h with
  | mk r others extents free quarantine hold hfi hmt hrng hqt hnew hgo =>
    have hbef := hold.length_eq
    have haft := hnew.length_eq
    rw [length_cons] at hbef
    rw [length_append] at haft
    have hkp := @length_kept_le r start stop
    have hmem : r ∈ s.extents := hold.mem_iff.mpr (.head _)
    change extents.rows.length ≤ _
    by_cases hin : r.logicalOffset < start ∧ stop < r.logicalOffset + r.length
    · rw [if_pos hin] at hkp
      rw [if_pos ⟨r, hmem, hfi, hin⟩]
      omega
    · rw [if_neg hin] at hkp
      omega

theorem Cut.meets_of (h : Cut file start stop s s') {r : ExtentRow} (hr : r ∈ s'.extents)
    (hmt : r.logicalOffset < stop ∧ start < r.logicalOffset + r.length) :
    r ∈ s.extents ∧ ∃ t ∈ s.extents, t.fileId = file ∧ t ≠ r ∧
      t.logicalOffset < stop ∧ start < t.logicalOffset + t.length := by
  cases h with
  | mk t others extents free quarantine hold hfi hcut hrng hqt hnew hgo =>
    cases mem_append.mp (hnew.mem_iff.mp hr) with
    | inl hkp => exact absurd hmt (not_meets_of_kept hcut hkp)
    | inr hoth =>
      have hnd : (t :: others).Nodup := hold.nodup_iff.mp s.extents.nodup
      refine ⟨hold.mem_iff.mpr (.tail t hoth), t, hold.mem_iff.mpr (.head _), hfi, ?_, hcut⟩
      rintro rfl
      exact (nodup_cons.mp hnd).1 hoth

theorem Splits.only (hs : Sound s) {x y : ExtentRow} (hx : x ∈ s.extents) (hxf : x.fileId = file)
    (hin : x.logicalOffset < start ∧ stop < x.logicalOffset + x.length) (hy : y ∈ s.extents)
    (hyf : y.fileId = file) (hmt : y.logicalOffset < stop ∧ start < y.logicalOffset + y.length)
    (hrng : start < stop) : y = x := by
  have hpos := hs.positive.extents y hy
  -- the first byte that the row and the range share
  have hby : max y.logicalOffset start ∈ y.logical := by
    rw [mem_logical]
    omega
  have hbx : max y.logicalOffset start ∈ x.logical := by
    rw [mem_logical]
    omega
  exact hs.eq_of_logical hy hx (hyf.trans hxf.symm) hby hbx

theorem Cuts.length_le (hs : Sound s) (h : Relation.ReflTransGen (Cut file start stop) s t) :
    t.extents.rows.length ≤
      s.extents.rows.length + if Splits s file start stop then 1 else 0 := by
  revert hs
  induction h using Relation.ReflTransGen.head_induction_on with
  | refl => exact fun _ => Nat.le_add_right _ _
  | @head a c hcut hrs ih =>
    intro hs
    have hsnd : Sound c := (Move.cut hcut : Move (fun _ => False) a c).sound hs
    have hone := hcut.length_le
    have hrng : start < stop := by
      cases hcut with
      | mk _ _ _ _ _ _ _ _ hrng => exact hrng
    by_cases hspl : Splits a file start stop
    · rw [if_pos hspl] at hone ⊢
      obtain ⟨x, hx, hxf, hin⟩ := hspl
      -- a second cut would meet a row besides the one that was cut
      cases hrs.cases_head with
      | inl heq => exact heq ▸ hone
      | inr hmore =>
        obtain ⟨d, hnx, -⟩ := hmore
        exfalso
        cases hnx with
        | mk r others extents free quarantine hold hrf hmt =>
          have hr : r ∈ c.extents := hold.mem_iff.mpr (.head _)
          obtain ⟨hra, y, hy, hyf, hne, hymeets⟩ := hcut.meets_of hr hmt
          have hyx := Splits.only hs hx hxf hin hy hyf hymeets hrng
          have hrx := Splits.only hs hx hxf hin hra hrf hmt hrng
          exact hne (hyx.trans hrx.symm)
    · rw [if_neg hspl] at hone ⊢
      have hspl' : ¬Splits c file start stop := by
        rintro ⟨r, hr, hrf, hin⟩
        have hra := (hcut.meets_of hr ⟨by omega, by omega⟩).1
        exact hspl ⟨r, hra, hrf, hin⟩
      have htl := ih hsnd
      rw [if_neg hspl'] at htl
      exact le_trans htl hone

end Cuts

/-! ### Every transaction -/

def Op.SplitsInRoom (budget : Budget) (s : Volume) : Op → Prop
  | .reclaimComplete f o l _ => Splits s (castI64 f) o.toNat (o.toNat + l.toNat) →
      (s.extents.rows.length : Int) < budget.rows
  | _ => True

instance (budget : Budget) (s : Volume) (op : Op) : Decidable (op.SplitsInRoom budget s) := by
  unfold Op.SplitsInRoom
  split <;> infer_instance

/-- **Every committed transaction respects the budget**, where a reclaim that splits has room. -/
theorem exec_withinBudget {s s' : Volume} {op : Op} {r : Reply} (hlaw : Lawful s)
    (hs : WithinBudget budget s) (hop : op.SplitsInRoom budget s)
    (h : exec budget volume s op = .ok (s', r)) : WithinBudget budget s' := by
  cases exec_executed hlaw.sound h with
  | granted har hsp =>
    have hsnd' := exec_sound hlaw.sound h
    obtain ⟨reply, h, -⟩ := answer_ok.mp h
    cases ha : s.arena with
    | some a => exact grant_withinBudget hs ha (hlaw.counted a ha) h
    | none =>
      -- without an arena there are no rows, before and after
      obtain ⟨t, hpl, rfl⟩ := hsp.result
      have hrw := hpl.extentRows
      rw [ha, Option.map_none] at hrw
      unfold WithinBudget
      rw [hsnd'.rows_nil (congrArg (Option.map _) (Option.map_eq_none_iff.mp hrw))]
      exact le_of_lt budget.pos
  | grantedRead hsp =>
    rw [hsp.result]
    exact hs
  | returned _ hsp => exact hs.of_le hsp.regroup.length_le
  | committed hsp => exact hs.of_le (le_of_eq hsp.length)
  | @reclaimed f _ _ _ _ _ start stop har hsp =>
    obtain ⟨t, n, hcu, rfl⟩ := hsp.result
    have hlen := Cuts.length_le hlaw.sound hcu
    have hrm : Splits s (castI64 f) start stop → (s.extents.rows.length : Int) < budget.rows := by
      rw [har.start_eq, har.stop_eq]
      exact hop
    change (t.extents.rows.length : Int) ≤ budget.rows
    by_cases hspl : Splits s (castI64 f) start stop
    · have hlt := hrm hspl
      rw [if_pos hspl] at hlen
      omega
    · rw [if_neg hspl] at hlen
      exact hs.of_le hlen
  | unparked h =>
    rw [h.frame]
    exact hs
  | swept h =>
    rw [(Sweeps.unparks h).frame]
    exact hs
  | revoked hsp => exact hs.of_le hsp.regroup.length_le
  | registerKept | registered | expandKept | expanded | fenced | recorded => exact hs
  | dropped => exact le_of_lt budget.pos

def KeepsRoom (budget : Budget) (volume : String) (s : Volume) (op : Op) : Prop :=
  ∀ s' reply, exec budget volume s op = .ok (s', reply) → op.SplitsInRoom budget s

theorem withinBudget_run {ops : List Op}
    (h : Steps (step budget volume) (KeepsRoom budget volume) .empty ops) :
    WithinBudget budget (runOps budget volume .empty ops) := by
  have hrun : Lawful (runOps budget volume .empty ops) ∧
      WithinBudget budget (runOps budget volume .empty ops) := by
    refine run_invariant_of_steps (P := fun s => Lawful s ∧ WithinBudget budget s) ?_
      ⟨Lawful.empty, le_of_lt budget.pos⟩ h
    rintro s op ⟨hlaw, hs⟩ hop
    refine ⟨step_lawful budget volume op hlaw, step_invariant hs ?_⟩
    intro s' r hxc
    exact exec_withinBudget hlaw hs (hop s' r hxc) hxc
  exact hrun.2

/-- **The rows of a volume stay within the budget**, and the counter is their number, in the runs in
which a reclaim strictly inside a row commits only below the budget. -/
theorem extent_rows_within_budget (budget : Budget) (volume : String) (ceiling : UInt64)
    (ops : List Op) (h : Outcome.Steps (step budget volume) (KeepsRoom budget volume) .empty
      (.registerVolume ceiling :: ops)) :
    ((runOps budget volume .empty (.registerVolume ceiling :: ops)).extents.rows.length : Int) ≤
        budget.rows ∧
      ∀ a, (runOps budget volume .empty (.registerVolume ceiling :: ops)).arena = some a →
        a.extentRows =
          (runOps budget volume .empty (.registerVolume ceiling :: ops)).extents.rows.length :=
  ⟨withinBudget_run h, (reachable_lawful budget volume _).counted⟩

def punchedHole : List Op :=
  [.grant 1 1 0 12288 true, .layoutReturn 1 1 0 12288, .reclaimComplete 1 4096 4096 5]

theorem punched_hole_within_two_rows : ((runOps ⟨2, by decide⟩ "v" .empty
    (.registerVolume 100000 :: punchedHole)).extents.rows.length :
        Int) ≤ 2 := by
  refine (extent_rows_within_budget ⟨2, by decide⟩ "v" 100000 punchedHole
    ⟨?_, ?_, ?_, ?_, trivial⟩).1
  all_goals exact fun _ _ _ => by decide

/-- With a budget of one row the same reclaim commits and leaves two. -/
theorem reclaim_passes_budget :
    ¬WithinBudget ⟨1, by decide⟩
      (runOps ⟨1, by decide⟩ "v" .empty (.registerVolume 100000 :: punchedHole)) := by
  decide

end Flint.Extent
