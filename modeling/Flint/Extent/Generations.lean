import Flint.Extent.Runs

/-!
# Generations along a run

A `Parcel` is a physical range with its generation: a row of `extents`, a free range with the last
generation it was mapped at, or a quarantined range. `Ages s s'` is local to a byte: every byte of a
parcel of `s'` is above the watermark of `s`, or lies in a parcel of `s` whose generation is no
larger, and strictly smaller if the byte was not mapped in `s` and is in `s'`.
-/

namespace Flint.Extent

open KeyedTable Moves Volume List Span

structure Parcel where
  span : Span
  gen : Int
  mapped : Bool

def ExtentRow.parcel (r : ExtentRow) : Parcel := ⟨r.physical, r.gen, true⟩

def FreeRow.parcel (f : FreeRow) : Parcel := ⟨f.span, f.lastGen, false⟩

def QuarantineRow.parcel (q : QuarantineRow) : Parcel := ⟨q.span, q.gen, false⟩

def Volume.parcels (s : Volume) : List Parcel :=
  s.extents.rows.map ExtentRow.parcel ++ s.free.rows.map FreeRow.parcel ++
    s.quarantine.rows.map QuarantineRow.parcel

variable {s s' t : Volume} {b : Int}

theorem parcels_span (s : Volume) : s.parcels.map Parcel.span = s.homes := by
  unfold parcels homes
  rw [map_append, map_append, map_map, map_map, map_map]
  rfl

theorem parcel_mem_of_extent {r : ExtentRow} (hr : r ∈ s.extents) : r.parcel ∈ s.parcels :=
  mem_append_left _ (mem_append_left _ (mem_map_of_mem hr))

theorem parcel_mem_of_free {f : FreeRow} (hf : f ∈ s.free) : f.parcel ∈ s.parcels :=
  mem_append_left _ (mem_append_right _ (mem_map_of_mem hf))

theorem parcel_mem_of_quarantine {q : QuarantineRow} (hq : q ∈ s.quarantine) :
    q.parcel ∈ s.parcels :=
  mem_append_right _ (mem_map_of_mem hq)

theorem Sound.eq_of_parcel (hs : Sound s) {p q : Parcel} (hp : p ∈ s.parcels)
    (hq : q ∈ s.parcels) (hbp : b ∈ p.span) (hbq : b ∈ q.span) : p = q := by
  have hone : cover (s.parcels.map Parcel.span) b ≤ 1 := parcels_span s ▸ hs.once b
  exact eq_of_mem_of_cover_le_one hone hp hq hbp hbq

theorem Sound.lt_watermark (hs : Sound s) {p : Parcel} (hp : p ∈ s.parcels) (hb : b ∈ p.span) :
    b < s.watermark := by
  refine hs.below b (cover_pos_iff.mpr ⟨p.span, ?_, hb⟩)
  rw [← parcels_span]
  exact mem_map_of_mem hp

/-! ### Ageing -/

def GrownFrom (s : Volume) (b : Int) (p' : Parcel) : Prop :=
  s.watermark ≤ b ∨ ∃ p ∈ s.parcels, b ∈ p.span ∧ p.gen ≤ p'.gen ∧
    (p'.mapped → p.mapped = false → p.gen < p'.gen)

theorem GrownFrom.self {p : Parcel} (hp : p ∈ s.parcels) (hb : b ∈ p.span) : GrownFrom s b p :=
  .inr ⟨p, hp, hb, le_refl _, fun h h' => absurd (h.symm.trans h') (by simp)⟩

def Ages (s s' : Volume) : Prop := ∀ p' ∈ s'.parcels, ∀ b ∈ p'.span, GrownFrom s b p'

theorem Ages.refl (s : Volume) : Ages s s := fun _ hp _ hb => .self hp hb

theorem Ages.trans (hmono : s.watermark ≤ t.watermark) (h₁ : Ages s t) (h₂ : Ages t s') :
    Ages s s' := by
  intro p' hp' b hb'
  rcases h₂ p' hp' b hb' with hnew | ⟨p, hp, hb, hle, hlt⟩
  · exact .inl (hmono.trans hnew)
  · rcases h₁ p hp b hb with hnew | ⟨p₀, hp₀, hb₀, hle₀, hlt₀⟩
    · exact .inl hnew
    · refine .inr ⟨p₀, hp₀, hb₀, hle₀.trans hle, fun hm hm₀ => ?_⟩
      -- the byte was mapped on the way from `s` to `t`, or on the way from `t` to `s'`
      cases hpm : p.mapped with
      | true => exact lt_of_lt_of_le (hlt₀ hpm hm₀) hle
      | false => exact lt_of_le_of_lt hle₀ (hlt hm hpm)

theorem Ages.of_tables (hrw : ∀ r ∈ s'.extents, ∀ b ∈ r.physical, GrownFrom s b r.parcel)
    (hfr : ∀ f ∈ s'.free, ∀ b ∈ f.span, GrownFrom s b f.parcel)
    (hpkd : ∀ q ∈ s'.quarantine, ∀ b ∈ q.span, GrownFrom s b q.parcel) : Ages s s' := by
  intro p hp
  unfold parcels at hp
  simp only [mem_append, mem_map] at hp
  obtain (⟨r, hr, rfl⟩ | ⟨f, hf, rfl⟩) | ⟨q, hq, rfl⟩ := hp
  · exact hrw r hr
  · exact hfr f hf
  · exact hpkd q hq

theorem GrownFrom.row {r : ExtentRow} {p' : Parcel} (hr : r ∈ s.extents) (hb : b ∈ r.physical)
    (hgen : r.gen ≤ p'.gen) : GrownFrom s b p' :=
  .inr ⟨r.parcel, parcel_mem_of_extent hr, hb, hgen, nofun⟩

theorem GrownFrom.unmapped {p p' : Parcel} (hp : p ∈ s.parcels) (hb : b ∈ p.span)
    (hgen : p.gen ≤ p'.gen) (hm : p'.mapped = false) : GrownFrom s b p' :=
  .inr ⟨p, hp, hb, hgen, fun h => absurd (h.symm.trans hm) (by simp)⟩

theorem Coalesced.grownFrom {r : FreeRow} {free : FreeTable} (h : Coalesced s.free r free)
    {p : Parcel} (hp : p ∈ s.parcels) (hspan : ∀ b ∈ r.span, b ∈ p.span)
    (hgen : p.gen ≤ r.lastGen) :
    ∀ f ∈ free, ∀ b ∈ f.span, GrownFrom s b f.parcel := by
  intro f hf b hb
  rcases h.backed f hf b hb with ⟨hbr, hg⟩ | ⟨x, hx, hbx, hg⟩
  · exact .unmapped hp (hspan b hbr) (hgen.trans hg) rfl
  · exact .unmapped (parcel_mem_of_free hx) hbx hg rfl

theorem Place.ages {e : ExtentRow} (h : Place e s s') : Ages s s' := by
  cases h with
  | mk t _ _ _ _ _ _ htk =>
    have hpkd : t.quarantine = s.quarantine := by rw [htk.frame]
    refine Ages.of_tables (fun r hr b hb => ?_) ?_ fun q hq b hb =>
      .self (parcel_mem_of_quarantine (hpkd ▸ hq)) hb
    · rcases mem_put.mp hr with rfl | ⟨hr, -⟩
      · -- the new row: one generation above the free range it reuses, or new to the arena
        generalize hphys : r.physicalOffset = phys at htk
        generalize hgen : r.gen = gen at htk
        have hlo : r.physicalOffset ≤ b := hb.1
        have hhi : b < r.physicalOffset + r.length := hb.2
        cases htk with
        | reuse f free hf hlen _ _ _ =>
          refine .inr ⟨f.parcel, parcel_mem_of_free hf, ?_, ?_, fun _ _ => ?_⟩
          · rw [hphys] at hlo hhi
            exact ⟨hlo, lt_of_lt_of_le hhi (by change _ ≤ f.physicalOffset + f.length; omega)⟩
          · change f.lastGen ≤ r.gen
            omega
          · change f.lastGen < r.gen
            omega
        | bump a ha _ =>
          left
          unfold watermark
          rw [ha]
          change a.nextFree ≤ b
          omega
      · exact .row hr hb (le_refl _)
    · -- what is left free was free
      intro f hf b hb
      generalize e.physicalOffset = phys at htk
      generalize e.gen = gen at htk
      cases htk with
      | reuse x free hx _ _ hbkd _ =>
        obtain ⟨y, hy, hby, hg⟩ := hbkd f hf b hb
        exact .unmapped (parcel_mem_of_free hy) hby hg rfl
      | bump => exact .self (parcel_mem_of_free hf) hb

theorem Join.ages (hs : Sound s) (h : Join s s') : Ages s s' := by
  cases h with
  | mk head tail others extents hold hrun _ hnew =>
    have hmem : ∀ r ∈ head :: tail ++ others, r ∈ s.extents := fun r hr => hold.mem_iff.mpr hr
    refine Ages.of_tables (fun r hr b hb => ?_) (fun f hf b hb => .self (parcel_mem_of_free hf) hb)
      fun q hq b hb => .self (parcel_mem_of_quarantine hq) hb
    rcases mem_cons.mp (hnew.mem_iff.mp hr) with rfl | hr
    · obtain ⟨r, hr, hbr⟩ := exists_run_physical hrun
        (fun r hr => hs.positive.extents r (hmem r (mem_append_left _ hr))) hb
      exact .row (hmem r (mem_append_left _ hr)) hbr (gen_le_joinedRow hr)
    · exact .row (hmem r (mem_append_right _ hr)) hb (le_refl _)

theorem Cut.ages {file start stop : Int} (hs : Sound s) (h : Cut file start stop s s') :
    Ages s s' := by
  cases h with
  | mk r others extents free quarantine hold hfi hmt hrng hqt hnew hgo =>
    have hr : r ∈ s.extents := hold.mem_iff.mpr (.head _)
    have hcut : ∀ b, b ∈ (⟨r.cutPhys start stop, (r.cut start stop).length⟩ : Span) →
      b ∈ r.physical := fun b => cut_physical (hs.positive.extents r hr) hmt hrng
    refine Ages.of_tables (fun k hk b hb => ?_) ?_ ?_
    · rcases mem_append.mp (hnew.mem_iff.mp hk) with hk | hk
      · exact .row hr (kept_physical hmt hk hb) (kept_spec hmt hk).2.1.ge
      · exact .row (hold.mem_iff.mpr (.tail r hk)) hb (le_refl _)
    · cases hgo with
      | freed free _ hfr => exact hfr.grownFrom (parcel_mem_of_extent hr) hcut (le_refl _)
      | parked => exact fun f hf b hb => .self (parcel_mem_of_free hf) hb
    · cases hgo with
      | freed => exact fun q hq b hb => .self (parcel_mem_of_quarantine hq) hb
      | parked quarantine now _ hpark =>
        intro q hq b hb
        rcases (mem_insert hpark).mp hq with rfl | hq
        · exact .unmapped (parcel_mem_of_extent hr) (hcut b hb) (le_refl _) rfl
        · exact .self (parcel_mem_of_quarantine hq) hb

theorem Unpark.ages (h : Unpark s s') : Ages s s' := by
  cases h with
  | mk q free hq hfr =>
    refine Ages.of_tables (fun r hr b hb => .self (parcel_mem_of_extent hr) hb)
      (hfr.grownFrom (parcel_mem_of_quarantine hq) (fun _ h => h) (le_refl _)) ?_
    exact fun x hx b hb => .self (parcel_mem_of_quarantine (mem_deleteKey.mp hx).1) hb

theorem Move.ages {spare : GrantRow → Prop} (hs : Sound s) (h : Move spare s s') : Ages s s' := by
  cases h with
  | place h => exact h.ages
  | join h | cut h => exact h.ages hs
  | unpark h => exact h.ages
  | promote =>
    refine Ages.of_tables (fun r hr b hb => ?_) (fun f hf b hb => .self (parcel_mem_of_free hf) hb)
      fun q hq b hb => .self (parcel_mem_of_quarantine hq) hb
    obtain ⟨x, hx, rfl | ⟨-, rfl⟩⟩ := exists_of_mem_promoteExtents hr
    · exact .row hx hb (le_refl _)
    · exact .row hx hb (le_refl _)
  | hold | release | fence | remember | recount | register | expand | records => exact Ages.refl s

theorem Moves.ages {spare : GrantRow → Prop} (hs : Sound s) (h : Moves spare s s') : Ages s s' := by
  induction h with
  | refl => exact Ages.refl s
  | tail hmvs hmv ih => exact ih.trans (conserves hmvs hs).mono (hmv.ages (sound hmvs hs))

/-! ### Ageing along a run -/

variable {budget : Budget} {volume : String}

theorem run_ages (budget : Budget) (volume : String) (hs : Sound s) {ops : List Op}
    (hops : .dropVolume ∉ ops) :
    Ages s (runOps budget volume s ops) ∧ s.watermark ≤ (runOps budget volume s ops).watermark := by
  induction ops generalizing s with
  | nil => exact ⟨Ages.refl s, le_refl _⟩
  | cons op ops ih =>
    rw [mem_cons, not_or] at hops
    rw [runOps_cons]
    rcases step_cases budget volume s op with ⟨r, h⟩ | h
    · have hmvs := (exec_executed hs h).moves hs (Ne.symm hops.1)
      have hmono := (conserves hmvs hs).mono
      obtain ⟨hages, hmono'⟩ := ih (sound hmvs hs) hops.2
      exact ⟨(ages hs hmvs).trans hmono hages, hmono.trans hmono'⟩
    · rw [h]
      exact ih hs hops.2

/-- **Generations grow per byte.** A byte that `grant` takes from the free list comes under a
generation above that of every row and range that contained it before. -/
theorem generation_grows (budget : Budget) (volume : String) (earlier later : List Op)
    (hlat : .dropVolume ∉ later) (f c o l : UInt64) (fresh : Bool) (s' : Volume) (reply : Reply)
    (hgr : exec budget volume (runOps budget volume .empty (earlier ++ later))
      (.grant f c o l fresh) = .ok (s', reply))
    (b : Int) (hfr : (runOps budget volume .empty (earlier ++ later)).Free b)
    (r : ExtentRow) (hr : r ∈ s'.extents) (hb : b ∈ r.physical)
    (p : Parcel) (hp : p ∈ (runOps budget volume .empty earlier).parcels) (hbp : b ∈ p.span) :
    p.gen < r.gen := by
  have hpas : Sound (runOps budget volume .empty earlier) := (reachable_lawful ..).sound
  have hnow : Sound (runOps budget volume .empty (earlier ++ later)) := (reachable_lawful ..).sound
  obtain ⟨x, hx, hbx⟩ := hfr
  -- the new row grew out of the free range, and strictly so
  have hreuse : x.parcel.gen < r.gen := by
    have hages := ages hnow ((exec_executed hnow hgr).moves hnow (by simp))
    rcases hages r.parcel (parcel_mem_of_extent hr) b hb with hnew | ⟨y, hy, hby, -, hlt⟩
    · exact absurd (hnow.lt_watermark (parcel_mem_of_free hx) hbx) (not_lt.mpr hnew)
    · obtain rfl := hnow.eq_of_parcel hy (parcel_mem_of_free hx) hby hbx
      exact hlt rfl rfl
  -- and the free range grew out of whatever held the byte before
  have hgrown : p.gen ≤ x.parcel.gen := by
    rw [runOps_append] at hx
    have hages := (run_ages budget volume hpas hlat).1
    rcases hages x.parcel (parcel_mem_of_free hx) b hbx with hnew | ⟨y, hy, hby, hle, -⟩
    · exact absurd (hpas.lt_watermark hp hbp) (not_lt.mpr hnew)
    · obtain rfl := hpas.eq_of_parcel hy hp hby hbp
      exact hle
  exact lt_of_le_of_lt hgrown hreuse

/-- A block that was granted, returned and reclaimed is granted again to another file. -/
theorem reused_block_generation :
    let first : List Op := [.registerVolume 100000, .grant 1 1 0 4096 false]
    let gone : List Op := [.layoutReturn 1 1 0 4096, .reclaimComplete 1 0 4096 5]
    let after := step (extentRowBudget none) "v"
      (runOps (extentRowBudget none) "v" .empty (first ++ gone)) (.grant 2 2 0 4096 false)
    ∃ r ∈ after.extents, (0 : Int) ∈ r.physical ∧
      ∀ p ∈ (runOps (extentRowBudget none) "v" .empty first).parcels,
        (0 : Int) ∈ p.span → p.gen < r.gen := by
  refine ⟨⟨2, 0, 4096, 0, 2, .invalid⟩, mem_rows.mp (by decide), by decide,
    fun p hp hb => ?_⟩
  exact generation_grows (extentRowBudget none) "v" _
    [.layoutReturn 1 1 0 4096, .reclaimComplete 1 0 4096 5] (by decide) 2 2 0 4096 false _
    (.extents [⟨0, 4096, 0, 2, false, true⟩]) (exec_of_reply (by decide)) 0
    ⟨⟨0, 4096, 1⟩, mem_rows.mp (by decide), by decide⟩
    ⟨2, 0, 4096, 0, 2, .invalid⟩ (mem_rows.mp (by decide)) (by decide) p hp hb

end Flint.Extent
