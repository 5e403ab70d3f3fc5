import Flint.Extent.Runs

/-!
# What the verifier accepts

On tables whose rows are not empty, `verify_volume_invariants_conn` accepts exactly the sound tables
whose row counter is right (`verifyVolumeInvariants_ok`). The scans compare neighbours only, which
is enough in the order they read the rows in.
-/

namespace Flint.Extent

open List hiding map_map mem_map span
open Outcome Span PhysRange Volume Option KeyedTable

variable {budget : Budget} {volume : String} {s : Volume}

/-! ### The logical scan -/

theorem verifyLogical_ok : verifyLogical volume s = .ok () ↔
    s.extents.rows.IsChain fun a b =>
      a.fileId = b.fileId → a.logicalOffset + a.length ≤ b.logicalOffset := by
  have hchn := firstAdjacent_eq_none (fun a b : ExtentRow =>
    a.fileId = b.fileId && a.logicalOffset + a.length > b.logicalOffset) s.extents.rows
  simp only [Bool.and_eq_false_imp, decide_eq_true_eq, decide_eq_false_iff_not, gt_iff_lt,
    not_lt] at hchn
  rw [← hchn]
  unfold verifyLogical
  dsimp only
  split <;> simp_all

theorem extents_sorted (s : Volume) : s.extents.rows.Pairwise fun a b =>
    a.fileId < b.fileId ∨ a.fileId = b.fileId ∧ a.logicalOffset < b.logicalOffset :=
  s.extents.sorted.imp fun h => Prod.Lex.toLex_lt_toLex.mp h

theorem pairwise_of_neighbours {l : List ExtentRow} (hst : l.Pairwise fun a b =>
      a.fileId < b.fileId ∨ a.fileId = b.fileId ∧ a.logicalOffset < b.logicalOffset)
    (hadj : l.IsChain fun a b =>
      a.fileId = b.fileId → a.logicalOffset + a.length ≤ b.logicalOffset) :
    l.Pairwise fun a b => a.fileId = b.fileId → a.logicalOffset + a.length ≤ b.logicalOffset := by
  induction l with
  | nil => exact Pairwise.nil
  | cons r l ih =>
    rw [pairwise_cons] at hst ⊢
    refine ⟨?_, ih hst.2 hadj.of_cons⟩
    cases l with
    | nil => exact nofun
    | cons t l =>
      have hrt := (isChain_cons_cons.mp hadj).1
      intro x hx hfi
      rcases mem_cons.mp hx with rfl | hx
      · exact hrt hfi
      · have h₁ := hst.1 t (.head _)
        have h₂ := (pairwise_cons.mp hst.2).1 x hx
        have h₃ := hrt (by omega)
        omega

theorem logical_of_scan (h : verifyLogical volume s = .ok ()) (file b : Int) :
    cover (s.fileMap file) b ≤ 1 := by
  have hap := pairwise_of_neighbours (extents_sorted s) (verifyLogical_ok.mp h)
  refine cover_le_one_of_pairwise_disjoint ?_ b
  unfold fileMap
  rw [pairwise_map]
  refine (hap.filter _).imp_of_mem fun {x y} hx hy hxy b hbx hby => ?_
  have hxf : x.fileId = file := of_decide_eq_true (mem_filter.mp hx).2
  have hyf : y.fileId = file := of_decide_eq_true (mem_filter.mp hy).2
  have hle := hxy (hxf.trans hyf.symm)
  have h₁ : b < x.logicalOffset + x.length := hbx.2
  have h₂ : y.logicalOffset ≤ b := hby.1
  omega

theorem scan_of_logical (hs : Sound s) : verifyLogical volume s = .ok () := by
  refine verifyLogical_ok.mpr (Pairwise.isChain ?_)
  refine (extents_sorted s).imp_of_mem fun {x y} hx hy hxy hfi => ?_
  exact hs.stop_le_start hx hy hfi (by omega)

/-! ### The physical scan -/

def PhysRange.span (p : PhysRange) : Span := ⟨p.physicalOffset, p.length⟩

theorem physRanges_spans (s : Volume) : (physRanges s).map span = s.homes := by
  unfold physRanges homes
  rw [map_append, map_append, List.map_map, List.map_map, List.map_map]
  rfl

theorem sortedPhysRanges_perm (s : Volume) : (sortedPhysRanges s).Perm (physRanges s) :=
  perm_insertionSort _ _

theorem sortedPhysRanges_sorted (s : Volume) :
    ((sortedPhysRanges s).map span).Pairwise fun a b => a.start ≤ b.start := by
  have : Std.Total fun p q : PhysRange => p.key ≤ q.key := ⟨fun p q => le_total p.key q.key⟩
  have : IsTrans PhysRange fun p q => p.key ≤ q.key := ⟨fun _ _ _ h₁ h₂ => le_trans h₁ h₂⟩
  rw [pairwise_map]
  refine (pairwise_insertionSort (fun p q : PhysRange => p.key ≤ q.key) (physRanges s)).imp
    fun {p q} hpq => ?_
  rcases Prod.Lex.toLex_le_toLex.mp hpq with h | h
  · exact le_of_lt h
  · exact le_of_eq h.1

theorem verifyPhysical_ok (hpos : s.Positive) :
    verifyPhysical volume (sortedPhysRanges s) = .ok () ↔ ∀ b, cover s.homes b ≤ 1 := by
  have hpm : ((sortedPhysRanges s).map span).Perm s.homes :=
    physRanges_spans s ▸ (sortedPhysRanges_perm s).map span
  have hlen : ∀ x ∈ (sortedPhysRanges s).map span, 0 < x.length :=
    fun x hx => hpos.of_mem_homes (hpm.mem_iff.mp hx)
  have hadj := cover_le_one_iff_adjacent hlen (sortedPhysRanges_sorted s)
  simp only [cover_perm hpm, isChain_map] at hadj
  have hchn := firstAdjacent_eq_none (fun a b : PhysRange =>
    a.physicalOffset + a.length > b.physicalOffset) (sortedPhysRanges s)
  simp only [decide_eq_false_iff_not, gt_iff_lt, not_lt] at hchn
  rw [hadj]
  change _ ↔ List.IsChain (fun a b : PhysRange => a.physicalOffset + a.length ≤ b.physicalOffset) _
  rw [← hchn]
  unfold verifyPhysical
  dsimp only
  split <;> simp_all

/-! ### The arena and the grants -/

theorem below_iff (hpos : s.Positive) : (∀ p ∈ sortedPhysRanges s,
      p.physicalOffset + p.length ≤ s.watermark) ↔
    ∀ b, 0 < cover s.homes b → b < s.watermark := by
  have hmem : ∀ x, x ∈ s.homes ↔ ∃ p ∈ sortedPhysRanges s, p.span = x := fun x => by
    rw [← physRanges_spans, List.mem_map]
    exact exists_congr fun p => and_congr_left' (sortedPhysRanges_perm s).mem_iff.symm
  constructor
  · intro h b hb
    obtain ⟨x, hx, hbx⟩ := cover_pos_iff.mp hb
    obtain ⟨p, hp, rfl⟩ := (hmem x).mp hx
    have h₁ := h p hp
    have h₂ : b < p.physicalOffset + p.length := hbx.2
    omega
  · intro h p hp
    have hx : p.span ∈ s.homes := (hmem _).mpr ⟨p, hp, rfl⟩
    have hlen : 0 < p.length := hpos.of_mem_homes hx
    have hla : p.physicalOffset + p.length - 1 ∈ p.span := by
      rw [mem_iff]
      change p.physicalOffset ≤ _ ∧ _ < p.physicalOffset + p.length
      omega
    have := h _ (cover_pos_iff.mpr ⟨_, hx, hla⟩)
    omega

theorem verifyArena_ok (hpos : s.Positive) : verifyArena volume s (sortedPhysRanges s) = .ok () ↔
    (∀ b, 0 < cover s.homes b → b < s.watermark) ∧
      (∀ a, s.arena = some a → a.nextFree ≤ a.sizeCeiling) ∧ (s.arena = none → s.homes = []) ∧
      Counted s := by
  have hnil : sortedPhysRanges s = [] ↔ s.homes = [] := by
    rw [← physRanges_spans, map_eq_nil_iff]
    exact ⟨fun h => (h ▸ sortedPhysRanges_perm s).nil_eq.symm,
      fun h => (h ▸ sortedPhysRanges_perm s).eq_nil⟩
  rw [← below_iff hpos]
  unfold verifyArena Counted watermark
  cases ha : s.arena with
  | none =>
    simp only [refuse_ok, not_not, hnil, reduceCtorEq, false_implies, implies_true,
      true_and, and_true, true_implies]
    refine ⟨fun h => ⟨?_, h⟩, And.right⟩
    rw [hnil.mpr h]
    exact nofun
  | some a =>
    simp only [bind_ok, refuse_ok, map_some, getD_some,
      some.injEq, forall_eq', reduceCtorEq, false_implies, true_and, exists_const,
      gt_iff_lt, not_lt, not_not]
    -- the scan stops at the first range past the watermark
    have hscan := find?_eq_none (l := sortedPhysRanges s)
      (p := fun p => a.nextFree < p.physicalOffset + p.length)
    simp only [decide_eq_true_eq, not_lt] at hscan
    rw [← hscan]
    cases (sortedPhysRanges s).find? fun p => a.nextFree < p.physicalOffset + p.length with
    | none => simp only [and_true, true_and, eq_comm]
    | some x => simp

theorem grantedExtent_eq_some {g : GrantRow} {r : ExtentRow} :
    grantedExtent s g = some r ↔ r ∈ s.extents ∧ g.On r := by
  unfold grantedExtent
  rw [lookup_eq_some]
  refine and_congr_right fun _ => ?_
  unfold ExtentRow.key
  rw [EmbeddingLike.apply_eq_iff_eq, Prod.mk.injEq]
  exact ⟨fun h => ⟨h.1.symm, h.2.symm⟩, fun h => ⟨h.1.symm, h.2.symm⟩⟩

theorem select_length_pos {R K : Type} [LinearOrder K] {key : R → K} {t : KeyedTable key}
    {p : R → Bool} : ¬(t.select p).length > 0 ↔ ∀ r ∈ t, p r = false := by
  rw [gt_iff_lt, length_pos_iff_exists_mem]
  simp only [mem_select, not_exists, not_and, Bool.not_eq_true]

theorem verifyGrants_ok : verifyGrants volume s = .ok () ↔
    ∀ g ∈ s.grants, ∃ r ∈ s.extents, g.On r ∧ (g.fenced = false → g.gen = r.gen) := by
  unfold verifyGrants
  simp only [bind_ok, refuse_ok, exists_const, select_length_pos, ← forall_and]
  refine forall_congr' fun g => ?_
  refine imp_congr_right fun _ => ?_
  cases h : grantedExtent s g with
  | none =>
    refine iff_of_false (by simp) ?_
    rintro ⟨r, hr, hon, -⟩
    rw [grantedExtent_eq_some.mpr ⟨hr, hon⟩] at h
    cases h
  | some e =>
    obtain ⟨he, hon⟩ := grantedExtent_eq_some.mp h
    have hstl : staleGrant s g = false ↔ (g.fenced = false → g.gen = e.gen) := by
      unfold staleGrant
      rw [h, any_some]
      cases g.fenced <;> simp
    rw [hstl]
    constructor
    · exact fun hgen => ⟨e, he, hon, hgen.2⟩
    · rintro ⟨r, hr, hon', hgen⟩
      have hre : some r = some e := (grantedExtent_eq_some.mpr ⟨hr, hon'⟩).symm.trans h
      cases hre
      exact ⟨rfl, hgen⟩

/-- **The verifier accepts exactly the sound tables with the right row counter.** -/
theorem verifyVolumeInvariants_ok (hpos : s.Positive) :
    verifyVolumeInvariants volume s = .ok () ↔ Sound s ∧ Counted s := by
  unfold verifyVolumeInvariants
  simp only [bind_ok, exists_const, verifyPhysical_ok hpos, verifyArena_ok hpos, verifyGrants_ok]
  constructor
  · rintro ⟨_, hlog, honce, ⟨hbel, hceil, hno, hcnt⟩, hgrs⟩
    exact ⟨⟨hpos, logical_of_scan hlog, honce, hbel, hceil, hno, hgrs⟩, hcnt⟩
  · rintro ⟨hs, hcnt⟩
    exact ⟨(), scan_of_logical hs, hs.once, ⟨hs.below, hs.ceiling, hs.arena, hcnt⟩, hs.granted⟩

/-- **The full scan would have passed.** On accepted tables without empty rows, the verifier accepts
what any transaction that commits leaves, with the windowed verifier or with none at its end. -/
theorem verifyVolumeInvariants_after_exec (budget : Budget) (volume : String) (s : Volume)
    (hpos : s.Positive) (hok : verifyVolumeInvariants volume s = .ok ()) (op : Op) (s' : Volume)
    (r : Reply) (h : exec budget volume s op = .ok (s', r)) :
    s'.Positive ∧ verifyVolumeInvariants volume s' = .ok () := by
  obtain ⟨hs, hcnt⟩ := (verifyVolumeInvariants_ok hpos).mp hok
  have hs' := exec_sound hs h
  exact ⟨hs'.positive, (verifyVolumeInvariants_ok hs'.positive).mpr
    ⟨hs', (exec_executed hs h).counted hs hcnt⟩⟩

def returnedRow : Volume :=
  runOps (extentRowBudget none) "v" .empty
    [.registerVolume 100000, .grant 1 1 0 12288 true, .layoutReturn 1 1 0 12288]

/-- Cutting the row in the middle: the kept head and tail, the freed cut and the counter pass. -/
theorem verified_after_reclaim : verifyVolumeInvariants "v"
    (step (extentRowBudget none) "v" returnedRow (.reclaimComplete 1 4096 4096 5)) = .ok () :=
  (verifyVolumeInvariants_after_exec (extentRowBudget none) "v" returnedRow
    (reachable_lawful _ _ _).sound.positive (by decide) (.reclaimComplete 1 4096 4096 5) _
    (.freed ⟨1, 4096, 0, 0⟩) (exec_of_reply (by decide))).2

/-- Tables the verifier accepts, with a parked range of length 0 between a mapped and a free
range. -/
def emptyParkedRange : Volume :=
  { empty with
    arena := some ⟨100, 15, 1⟩
    extents := .put .empty ⟨1, 0, 10, 0, 1, .rw⟩
    free := .put .empty ⟨10, 5, 1⟩
    quarantine := .put .empty ⟨10, 0, 1, "", 0⟩ }

/-- Freeing the mapped range coalesces across the empty one, which then lies inside a free range. -/
theorem verifier_refuses_after_reclaim :
    verifyVolumeInvariants "v" emptyParkedRange = .ok () ∧
      (exec (extentRowBudget none) "v" emptyParkedRange (.reclaimComplete 1 0 10 5)).isOk ∧
      verifyVolumeInvariants "v"
        (step (extentRowBudget none) "v" emptyParkedRange (.reclaimComplete 1 0 10 5)) ≠ .ok
          () := by
  decide

end Flint.Extent
