import Flint.Extent.Sound

/-!
# The windowed merge is a sequence of joins

`merge_extents_window` scans the rows of its window in order and closes a run whenever the next row
does not continue it. The window starts with the last row before the range, which may be the first
row of the range once more.
-/

namespace Flint.Extent

open List hiding head length
open KeyedTable Outcome Relation ExtentRow Option

def Regroup : Volume → Volume → Prop :=
  ReflTransGen fun s s' => Join s s' ∨ ∃ n, s' = s.addExtentRows n

variable {s s' : Volume}

theorem Regroup.moves {spare : GrantRow → Prop} (h : Regroup s s') : Moves spare s s' := by
  refine ReflTransGen.mono ?_ _ _ h
  rintro a b (hj | ⟨n, rfl⟩)
  · exact .join hj
  · exact .recount

/-! ### Closing a run -/

section Close

variable {file : Int} {m : Merge} {run : List ExtentRow}

/-- A run the loop has collected: rows one after the other, without grants once there are two. -/
structure IsMergeRun (file : Int) (s : Volume) (run : List ExtentRow) : Prop where
  mem : ∀ r ∈ run, r ∈ s.extents ∧ r.fileId = file
  chain : run.IsChain Adjoins
  quiet : 2 ≤ run.length → ∀ r ∈ run, ∀ g ∈ s.grants, ¬g.On r
  sorted : run.Pairwise fun a b => a.logicalOffset < b.logicalOffset

theorem closeRun_spec (hrun : IsMergeRun file m.vol run) :
    (Join m.vol (closeRun file m run).vol ∨ (closeRun file m run).vol = m.vol) ∧
      (closeRun file m run).vol.extents.rows.length + (closeRun file m run).mergedAway =
        m.vol.extents.rows.length + m.mergedAway ∧
      ∀ x ∈ m.vol.extents, (∀ r ∈ run, r.logicalOffset < x.logicalOffset) →
        x ∈ (closeRun file m run).vol.extents := by
  match run, hrun with
  | [], _ | [a], _ => exact ⟨.inr rfl, rfl, fun x hx _ => hx⟩
  | head :: e :: rest, hrun =>
    have hst := pairwise_cons.mp hrun.sorted
    -- the tail goes, row by row
    have hkey : ∀ r ∈ e :: rest, toLex (file, r.logicalOffset) = r.key := fun r hr => by
      rw [← (hrun.mem r (.tail head hr)).2]
      rfl
    have hfo : (e :: rest).foldl (fun t x => t.deleteKey (toLex (file, x.logicalOffset)))
        m.vol.extents = (e :: rest).foldl (fun t x => t.deleteKey x.key) m.vol.extents :=
      foldl_ext _ _ _ fun t x hx => by rw [hkey x hx]
    have hne : (e :: rest).Pairwise fun a b => a.key ≠ b.key :=
      hst.2.imp fun hlt heq => absurd (key_eq.mp heq).2 (ne_of_lt hlt)
    have htl := foldl_deleteKey_perm (fun r hr => (hrun.mem r (.tail head hr)).1) hne
    generalize ht : (e :: rest).foldl (fun t x => t.deleteKey x.key) m.vol.extents = t at *
    -- the head stays and is resized
    have hhd : head ∈ t := by
      have hmem := htl.mem_iff.mp (hrun.mem head (.head _)).1
      refine (mem_append.mp hmem).resolve_left fun hin => ?_
      exact lt_irrefl _ (hst.1 head hin)
    have hfi := (hrun.mem head (.head _)).2
    have hhit : ∀ x ∈ t, (decide (x.fileId = file) && decide (x.logicalOffset =
        head.logicalOffset)) = decide (x.key = head.key) := fun x _ => by
      rw [← Bool.decide_and, decide_eq_decide, key_eq, hfi]
    have hresize := update_perm (f := fun r : ExtentRow => { r with
      length := ((head :: e :: rest).map length).sum
      gen := ((e :: rest).map gen).foldl max head.gen }) (fun _ => rfl) hhd hhit
    have hold : m.vol.extents.rows.Perm (head :: (e :: rest) ++ (t.deleteKey head.key).rows) :=
      (htl.trans ((perm_cons_deleteKey hhd).append_left _)).trans
        perm_middle
    have hvol : (closeRun file m (head :: e :: rest)).vol = { m.vol with
        extents := resizeExtent t file head.logicalOffset ((head :: e :: rest).map length).sum
          (((e :: rest).map gen).foldl max head.gen) } := by
      rw [← hfo]
      rfl
    have hnew : (closeRun file m (head :: e :: rest)).vol.extents.rows.Perm
        (joinedRow head (e :: rest) :: (t.deleteKey head.key).rows) := by
      rw [hvol]
      exact hresize
    refine ⟨.inl ?_, ?_, fun x hx hlt => ?_⟩
    · rw [hvol] at hnew ⊢
      exact .mk head (e :: rest) _ _ hold hrun.chain (hrun.quiet (by simp)) hnew
    · have hlen₁ := hold.length_eq
      have hlen₂ := hnew.length_eq
      have hmgd : (closeRun file m (head :: e :: rest)).mergedAway =
        m.mergedAway + (e :: rest).length := rfl
      rw [length_append, length_cons] at hlen₁
      rw [length_cons] at hlen₂
      omega
    · refine hnew.mem_iff.mpr (.tail _ ?_)
      refine (mem_append.mp (hold.mem_iff.mp hx)).resolve_left fun hin => ?_
      exact lt_irrefl _ (hlt x hin)

end Close

/-! ### The loop -/

variable {file : Int}

theorem held_eq_false {r : ExtentRow} (hfi : r.fileId = file) :
    held s file r.logicalOffset = false ↔ ∀ g ∈ s.grants, ¬g.On r := by
  unfold held
  rw [Bool.not_eq_false', List.isEmpty_iff, eq_nil_iff_forall_not_mem]
  constructor
  · intro h g hg hon
    exact h g (mem_grantsAt.mpr ⟨hg, by rw [hon.1, hfi], hon.2⟩)
  · intro h g hg
    obtain ⟨hg, hf, ho⟩ := mem_grantsAt.mp hg
    exact h g hg ⟨by rw [hf, hfi], ho⟩

variable {a : ExtentRow}

theorem extendsRun_eq_true {b : ExtentRow} (ha : a.fileId = file) (hb : b.fileId = file)
    : extendsRun s file a b ↔
      Adjoins a b ∧ (∀ g ∈ s.grants, ¬g.On a) ∧ ∀ g ∈ s.grants, ¬g.On b := by
  unfold extendsRun
  simp only [Bool.and_eq_true, Bool.not_eq_true', decide_eq_true_eq, held_eq_false ha,
    held_eq_false hb]
  constructor
  · rintro ⟨⟨⟨⟨h₁, h₂⟩, h₃⟩, h₄⟩, h₅⟩
    exact ⟨⟨by rw [ha, hb], h₁, h₂, h₃⟩, h₄, h₅⟩
  · rintro ⟨h, h₄, h₅⟩
    exact ⟨⟨⟨⟨h.logical, h.physical⟩, h.state⟩, h₄⟩, h₅⟩

/-- **The merge loop is a sequence of joins.** -/
theorem mergeRuns_spec {rest : List ExtentRow} :
    ∀ {m : Merge} {front : List ExtentRow} {a : ExtentRow}, IsMergeRun file m.vol (front ++ [a]) →
      (∀ r ∈ rest, r ∈ m.vol.extents ∧ r.fileId = file) →
      (front ++ [a] ++ rest).Pairwise (fun x y => x.logicalOffset < y.logicalOffset) →
      ReflTransGen Join m.vol (mergeRuns file m (front ++ [a]) a rest).vol ∧
        (mergeRuns file m (front ++ [a]) a rest).vol.extents.rows.length +
            (mergeRuns file m (front ++ [a]) a rest).mergedAway =
          m.vol.extents.rows.length + m.mergedAway := by
  induction rest with
  | nil =>
    intro m front a hrun _ _
    obtain ⟨hj, hcnt, -⟩ := closeRun_spec hrun
    refine ⟨?_, hcnt⟩
    rcases hj with hj | heq
    · exact .single hj
    · change ReflTransGen Join _ (closeRun file m (front ++ [a])).vol
      rw [heq]
  | cons b rest ih =>
    intro m front a hrun hrs hst
    have ha := hrun.mem a (by simp)
    have hb := hrs b (.head _)
    rw [mergeRuns]
    split
    · next hext =>
      -- the run grows by `b`
      obtain ⟨hadj, hqa, hqb⟩ := (extendsRun_eq_true ha.2 hb.2).mp hext
      have hst' : (front ++ [a] ++ [b] ++ rest).Pairwise
          fun x y => x.logicalOffset < y.logicalOffset := by
        rw [append_assoc (front ++ [a]) [b] rest]
        exact hst
      have hrun' : IsMergeRun file m.vol (front ++ [a] ++ [b]) := by
        refine ⟨fun r hr => ?_, ?_, fun _ r hr => ?_, (pairwise_append.mp hst').1⟩
        · rcases mem_append.mp hr with hr | hr
          · exact hrun.mem r hr
          · rw [mem_singleton.mp hr]
            exact hb
        · refine hrun.chain.append (isChain_singleton b) ?_
          intro x hx y hy
          simp only [getLast?_concat, mem_def, some.injEq] at hx
          simp only [head?_cons, mem_def, some.injEq] at hy
          rw [← hx, ← hy]
          exact hadj
        · rcases mem_append.mp hr with hr | hr
          · rcases mem_append.mp hr with hr' | hr'
            · exact hrun.quiet (by
                have := length_pos_of_mem hr'
                rw [length_append, length_singleton]
                omega) r hr
            · rw [mem_singleton.mp hr']
              exact hqa
          · rw [mem_singleton.mp hr]
            exact hqb
      exact ih hrun' (fun r hr => hrs r (.tail b hr)) hst'
    · -- the run is closed, and `b` starts the next one
      obtain ⟨hj, hcnt, hkeep⟩ := closeRun_spec hrun
      obtain ⟨-, hsortRest, hcross⟩ := pairwise_append.mp hst
      have hstay : ∀ r ∈ b :: rest, r ∈ (closeRun file m (front ++ [a])).vol.extents ∧
          r.fileId = file := fun r hr =>
        ⟨hkeep r (hrs r hr).1 fun x hx => hcross x hx r hr, (hrs r hr).2⟩
      have hrun' : IsMergeRun file (closeRun file m (front ++ [a])).vol ([] ++ [b]) :=
        ⟨fun r hr => by
          rw [mem_singleton.mp hr]
          exact hstay b (.head _), isChain_singleton b,
          fun h => absurd h (by simp), pairwise_singleton _ b⟩
      obtain ⟨hjns, hcnt'⟩ := ih hrun' (fun r hr => hstay r (.tail b hr)) (by simpa using hsortRest)
      refine ⟨?_, hcnt'.trans hcnt⟩
      rcases hj with hj | heq
      · exact .head hj hjns
      · rw [heq] at hjns
        exact hjns

/-! ### The window -/

theorem mergeRuns_dup {m : Merge} (ha : 0 < a.length) (rest : List ExtentRow) :
    mergeRuns file m [a] a (a :: rest) = mergeRuns file m [a] a rest := by
  have hsf : extendsRun m.vol file a a = false := by
    unfold extendsRun
    rw [decide_eq_false (show ¬a.logicalOffset + a.length = a.logicalOffset by omega)]
    rfl
  rw [mergeRuns, hsf]
  rfl

structure IsWindow (file : Int) (s : Volume) (rows : List ExtentRow) : Prop where
  mem : ∀ r ∈ rows, r ∈ s.extents ∧ r.fileId = file
  sorted : rows.Pairwise fun a b => a.logicalOffset < b.logicalOffset

theorem overlappingExtents_isWindow (s : Volume) (file start stop : Int) :
    IsWindow file s (overlappingExtents s file start stop) where
  mem r hr := ⟨(mem_overlappingExtents.mp hr).1, (mem_overlappingExtents.mp hr).2.1⟩
  sorted := by
    refine (s.extents.select_sorted _).imp_of_mem fun {a b} ha hb hlt => ?_
    have hfi : a.fileId = b.fileId :=
      (mem_overlappingExtents.mp ha).2.1.trans (mem_overlappingExtents.mp hb).2.1.symm
    have hlt' := Prod.Lex.toLex_lt_toLex.mp hlt
    simp only [hfi, lt_self_iff_false, true_and, false_or] at hlt'
    exact hlt'

theorem window_next (s : Volume) (file start stop : Int) :
    IsWindow file s (overlappingExtents s file start stop ++
      (s.extents.first fun r => r.fileId = file && r.logicalOffset ≥ stop).toList) := by
  have hov := overlappingExtents_isWindow s file start stop
  cases hn : s.extents.first (fun r => r.fileId = file && r.logicalOffset ≥ stop) with
  | none => simpa using hov
  | some n =>
    obtain ⟨hmem, hp, -⟩ := first_eq_some hn
    simp only [Bool.and_eq_true, decide_eq_true_eq] at hp
    refine ⟨fun r hr => ?_, pairwise_append.mpr
      ⟨hov.sorted, pairwise_singleton _ n, fun x hx y hy => ?_⟩⟩
    · rcases mem_append.mp hr with hr | hr
      · exact hov.mem r hr
      · rw [mem_singleton.mp hr]
        exact ⟨hmem, hp.1⟩
    · rw [mem_singleton.mp hy]
      have := (mem_overlappingExtents.mp hx).2.2.1
      omega

variable {start stop : Int}

theorem window_prev (hs : Sound s) (hrng : start < stop) {p : ExtentRow}
    (hp : s.extents.last (fun r => r.fileId = file && r.logicalOffset < start) = some p)
    {rows : List ExtentRow} (hrw : rows = overlappingExtents s file start stop ++
      (s.extents.first fun r => r.fileId = file && r.logicalOffset ≥ stop).toList) :
    IsWindow file s (p :: rows) ∨ ∃ rest, rows = p :: rest := by
  have hwin := window_next s file start stop
  rw [← hrw] at hwin
  obtain ⟨hmem, hpp, hla⟩ := last_eq_some hp
  simp only [Bool.and_eq_true, decide_eq_true_eq] at hpp
  -- a row of the window that starts no later than `p` is `p`
  have hsm : ∀ x ∈ rows, x.logicalOffset ≤ p.logicalOffset → x = p := by
    intro x hx hle
    obtain ⟨hxm, hxf⟩ := hwin.mem x hx
    have hrch : start < x.logicalOffset + x.length := by
      rw [hrw] at hx
      rcases mem_append.mp hx with hx | hx
      · exact (mem_overlappingExtents.mp hx).2.2.2
      · obtain ⟨-, hn, -⟩ := first_eq_some (mem_toList.mp hx)
        simp only [Bool.and_eq_true, decide_eq_true_eq] at hn
        omega
    rcases lt_or_eq_of_le hle with hlt | heq
    · have := hs.stop_le_start hxm hmem (hxf.trans hpp.1.symm) hlt
      omega
    · exact eq_of_key_eq hxm hmem (key_eq.mpr ⟨hxf.trans hpp.1.symm, heq⟩)
  cases rows with
  | nil =>
    exact .inl ⟨fun r hr => by rw [mem_singleton.mp hr]; exact ⟨hmem, hpp.1⟩,
      pairwise_singleton _ p⟩
  | cons x rest =>
    rcases le_or_gt x.logicalOffset p.logicalOffset with hle | hgt
    · exact .inr ⟨rest, by rw [hsm x (.head _) hle]⟩
    · left
      refine ⟨fun r hr => ?_, pairwise_cons.mpr ⟨fun y hy => ?_, hwin.sorted⟩⟩
      · rcases mem_cons.mp hr with rfl | hr
        · exact ⟨hmem, hpp.1⟩
        · exact hwin.mem r hr
      · rcases mem_cons.mp hy with rfl | hy
        · exact hgt
        · exact hgt.trans ((pairwise_cons.mp hwin.sorted).1 y hy)

theorem IsWindow.mergeRuns {rest : List ExtentRow} (h : IsWindow file s (a :: rest)) :
    ReflTransGen Join s (mergeRuns file ⟨s, 0, []⟩ [a] a rest).vol ∧
      (Extent.mergeRuns file ⟨s, 0, []⟩ [a] a rest).vol.extents.rows.length +
        (Extent.mergeRuns file ⟨s, 0, []⟩ [a] a rest).mergedAway = s.extents.rows.length := by
  have hrun : IsMergeRun file (⟨s, 0, []⟩ : Merge).vol ([] ++ [a]) :=
    ⟨fun r hr => by rw [mem_singleton.mp hr]; exact h.mem a (.head _),
      isChain_singleton a, fun h => absurd h (by simp), pairwise_singleton _ a⟩
  exact mergeRuns_spec hrun (fun r hr => h.mem r (.tail a hr)) h.sorted

theorem addExtentRows_zero (s : Volume) : s.addExtentRows 0 = s := by
  unfold Volume.addExtentRows
  cases h : s.arena with
  | none => rw [map_none, ← h]
  | some a => rw [map_some, Int.add_zero, ← h]

/-- **What `merge_extents_window` does**: joins, and the counter follows. -/
theorem mergeExtentsWindow_ok {volume : String} (hs : Sound s) (hrng : start < stop)
    {m : Volume × ℕ} (h : mergeExtentsWindow volume s file start stop = .ok m) :
    ∃ (t : Volume) (k : ℕ), ReflTransGen Join s t ∧ m.1 = t.addExtentRows (-k) ∧
      t.extents.rows.length + k = s.extents.rows.length := by
  -- the loop over the window, whichever way it starts
  have hloop : ∀ a b rest, mergeWindow s file start stop = a :: b :: rest →
      ReflTransGen Join s (mergeRuns file ⟨s, 0, []⟩ [a] a (b :: rest)).vol ∧
        (mergeRuns file ⟨s, 0, []⟩ [a] a (b :: rest)).vol.extents.rows.length +
          (mergeRuns file ⟨s, 0, []⟩ [a] a (b :: rest)).mergedAway = s.extents.rows.length := by
    intro a b rest hw
    unfold mergeWindow at hw
    rw [append_assoc] at hw
    cases hp : s.extents.last (fun r => r.fileId = file && r.logicalOffset < start) with
    | none =>
      rw [hp, toList_none, nil_append] at hw
      have hwin := window_next s file start stop
      rw [hw] at hwin
      exact hwin.mergeRuns
    | some p =>
      rw [hp, toList_some, singleton_append] at hw
      obtain ⟨rfl, hrw⟩ := cons_eq_cons.mp hw
      rcases window_prev hs hrng hp hrw.symm with hwin | ⟨rest', hdup⟩
      · exact hwin.mergeRuns
      · obtain ⟨rfl, rfl⟩ := cons_eq_cons.mp hdup
        have hwin := window_next s file start stop
        rw [hrw] at hwin
        have hpos := hs.positive.extents b (hwin.mem b (.head _)).1
        rw [mergeRuns_dup hpos]
        exact hwin.mergeRuns
  unfold mergeExtentsWindow at h
  split at h
  · next a b rest hw =>
    obtain ⟨hjns, hcnt⟩ := hloop a b rest hw
    dsimp only at h
    split at h
    · obtain ⟨_, -, hm⟩ := bind_ok.mp h
      obtain rfl := pure_ok.mp hm
      exact ⟨_, _, hjns, rfl, hcnt⟩
    · next hno =>
      obtain rfl := pure_ok.mp h
      refine ⟨_, 0, hjns, ?_, by omega⟩
      rw [Int.natCast_zero, Int.neg_zero, addExtentRows_zero]
  · obtain rfl := pure_ok.mp h
    refine ⟨s, 0, .refl, ?_, rfl⟩
    rw [Int.natCast_zero, Int.neg_zero, addExtentRows_zero]

theorem Counted.merge {t : Volume} {k : ℕ} (hs : Counted s) (harena : t.arena = s.arena)
    (hcnt : t.extents.rows.length + k = s.extents.rows.length) :
    Counted (t.addExtentRows (-k)) := by
  intro a ha
  unfold Volume.addExtentRows at ha
  rw [harena] at ha
  obtain ⟨x, hx, rfl⟩ := map_eq_some_iff.mp ha
  have := hs x hx
  change x.extentRows + -(k : Int) = t.extents.rows.length
  omega

theorem Join.frame (h : Join s s') : s' = { s with extents := s'.extents } := by
  cases h with
  | mk => rfl

theorem joins_frame {t : Volume} (h : ReflTransGen Join s t) :
    t = { s with extents := t.extents } := by
  induction h with
  | refl => rfl
  | tail _ hj ih =>
    rw [hj.frame, ih]

theorem Regroup.frame (h : Regroup s s') :
    s' = { s with extents := s'.extents, arena := s'.arena } := by
  induction h with
  | refl => rfl
  | tail _ hte ih =>
    rcases hte with hj | ⟨n, rfl⟩
    · rw [hj.frame, ih]
    · rw [ih]
      rfl

theorem mergeExtentsWindow_regroup {volume : String} (hs : Sound s) (hrng : start < stop)
    {m : Volume × ℕ} (h : mergeExtentsWindow volume s file start stop = .ok m) :
    Regroup s m.1 ∧ (Counted s → Counted m.1) := by
  obtain ⟨t, k, hjns, hm, hcnt⟩ := mergeExtentsWindow_ok hs hrng h
  refine ⟨?_, fun hc => ?_⟩
  · rw [hm]
    exact .tail (ReflTransGen.mono (fun _ _ => .inl) _ _ hjns) (.inr ⟨_, rfl⟩)
  · rw [hm]
    exact hc.merge (by rw [joins_frame hjns]) hcnt

end Flint.Extent
