import Flint.Extent.Moves

/-!
# Sound tables, and what moves conserve

`Sound` is what the full verifier checks, byte by byte rather than row by row, and that no row is
empty. `Conserves`: a move leaves every byte in as many homes as before, except that the bytes
between the old and the new watermark gain one.
-/

namespace Flint.Extent

open List hiding span
open KeyedTable QuarantineRow

def Volume.fileMap (s : Volume) (file : Int) : List Span :=
  (s.extents.rows.filter fun r => r.fileId = file).map ExtentRow.logical

structure Sound (s : Volume) : Prop where
  positive : s.Positive
  logical : ∀ file b, Span.cover (s.fileMap file) b ≤ 1
  once : ∀ b, Span.cover s.homes b ≤ 1
  below : ∀ b, 0 < Span.cover s.homes b → b < s.watermark
  ceiling : ∀ a, s.arena = some a → a.nextFree ≤ a.sizeCeiling
  arena : s.arena = none → s.homes = []
  granted : ∀ g ∈ s.grants, ∃ r ∈ s.extents, g.On r ∧ (g.fenced = false → g.gen = r.gen)

def Counted (s : Volume) : Prop := ∀ a, s.arena = some a → a.extentRows = s.extents.rows.length

/-! ### What soundness says about rows -/

namespace Sound

variable {s : Volume} (hs : Sound s)
include hs

variable {r r' : ExtentRow} {b : Int}

theorem eq_of_logical (hr : r ∈ s.extents) (hr' : r' ∈ s.extents) (hfi : r.fileId = r'.fileId)
    (hb : b ∈ r.logical) (hb' : b ∈ r'.logical) : r = r' := by
  refine Span.eq_of_mem_of_cover_le_one (hs.logical r.fileId b) ?_ ?_ hb hb'
  · exact mem_filter.mpr ⟨hr, by simp⟩
  · exact mem_filter.mpr ⟨hr', by simp [hfi]⟩

theorem stop_le_start (hr : r ∈ s.extents) (hr' : r' ∈ s.extents) (hfi : r.fileId = r'.fileId)
    (hlt : r.logicalOffset < r'.logicalOffset) : r.logicalOffset + r.length ≤ r'.logicalOffset := by
  by_contra hov
  have hpos := hs.positive.extents r' hr'
  have heq := hs.eq_of_logical hr hr' hfi (b := r'.logicalOffset)
    ⟨le_of_lt hlt, not_le.mp hov⟩ (Span.mem_iff.mpr (by simp only [ExtentRow.logical]; omega))
  rw [heq] at hlt
  exact lt_irrefl _ hlt

theorem eq_of_physical (hr : r ∈ s.extents) (hr' : r' ∈ s.extents) (hb : b ∈ r.physical)
    (hb' : b ∈ r'.physical) : r = r' := by
  have hone := hs.once b
  rw [s.cover_homes] at hone
  exact Span.eq_of_mem_of_cover_le_one (by omega) hr hr' hb hb'

theorem not_free_of_mapped (hb : s.Mapped b) : ¬s.Free b ∧ ¬s.Parked b := by
  have hone := hs.once b
  have hpos := s.mapped_iff.mp hb
  rw [s.cover_homes] at hone
  rw [s.free_iff, s.parked_iff]
  omega

end Sound

/-! ### Conservation -/

/-- Every byte keeps its number of homes; the bytes the watermark passes gain one. -/
structure Conserves (s s' : Volume) : Prop where
  mono : s.watermark ≤ s'.watermark
  cover : ∀ b, Span.cover s'.homes b =
    Span.cover s.homes b + if s.watermark ≤ b ∧ b < s'.watermark then 1 else 0

variable {s s' : Volume}

theorem Conserves.of_eq (hw : s'.watermark = s.watermark)
    (h : ∀ b, Span.cover s'.homes b = Span.cover s.homes b) : Conserves s s' where
  mono := hw.ge
  cover b := by
    rw [h b, hw, if_neg (fun hb => absurd (lt_of_le_of_lt hb.1 hb.2) (lt_irrefl _)), Nat.add_zero]

theorem Conserves.refl (s : Volume) : Conserves s s := .of_eq rfl fun _ => rfl

theorem Conserves.trans {s₁ s₂ s₃ : Volume} (h₁ : Conserves s₁ s₂) (h₂ : Conserves s₂ s₃) :
    Conserves s₁ s₃ where
  mono := h₁.mono.trans h₂.mono
  cover b := by
    have hm₁ := h₁.mono
    have hm₂ := h₂.mono
    rw [h₂.cover b, h₁.cover b]
    split_ifs <;> omega

variable {e : ExtentRow}

theorem Place.fresh (h : Place e s s') (hpos : s.Positive) : ∀ r ∈ s.extents, r.key ≠ e.key := by
  cases h with
  | mk t hlen _ _ _ _ hgap _ =>
    intro r hr hkey
    obtain ⟨hfi, hlo⟩ := ExtentRow.key_eq.mp hkey
    have hr' := hpos.extents r hr
    rcases hgap r hr hfi with h | h
    · omega
    · omega

theorem Place.extents_perm (h : Place e s s') (hpos : s.Positive) :
    s'.extents.rows.Perm (e :: s.extents.rows) := by
  have hfr := h.fresh hpos
  cases h with
  | mk t _ _ _ _ _ _ _ => exact put_perm_of_fresh hfr

theorem Place.conserves (h : Place e s s') (hpos : s.Positive) : Conserves s s' := by
  have hpm := h.extents_perm hpos
  cases h with
  | mk t hlen _ _ _ _ _ htk =>
    have hext : ∀ b, Span.cover ((s.extents.put e).rows.map ExtentRow.physical) b =
        Span.cover (s.extents.rows.map ExtentRow.physical) b + if b ∈ e.physical then 1 else 0 :=
      fun b => by
        rw [Span.cover_perm (hpm.map ExtentRow.physical), map_cons, Span.cover_cons]
    generalize hp : e.physicalOffset = p at htk
    generalize hg : e.gen = gen at htk
    cases htk with
    | reuse f free hf hlen hcvr _ _ =>
      refine Conserves.of_eq rfl fun b => ?_
      rw [Volume.cover_homes, Volume.cover_homes, hext b, hcvr b]
      have hspan : e.physical = ⟨f.physicalOffset, e.length⟩ := by rw [← hp]; rfl
      rw [hspan]
      dsimp only
      omega
    | bump a ha hrm =>
      have hw : s.watermark = a.nextFree := by unfold Volume.watermark; rw [ha]; rfl
      refine ⟨by rw [hw]; change a.nextFree ≤ a.nextFree + e.length; omega, fun b => ?_⟩
      have hmem : b ∈ e.physical ↔ a.nextFree ≤ b ∧ b < a.nextFree + e.length := by
        rw [← hp]
        rfl
      rw [Volume.cover_homes, Volume.cover_homes, hext b, hw, if_congr hmem rfl rfl]
      change _ + _ + Span.cover (s.free.rows.map _) b + Span.cover (s.quarantine.rows.map _) b =
        _ + if a.nextFree ≤ b ∧ b < a.nextFree + e.length then 1 else 0
      omega

theorem Join.conserves (h : Join s s') (hpos : s.Positive) : Conserves s s' := by
  cases h with
  | mk head tail others extents hold hrun _ hnew =>
    refine Conserves.of_eq rfl fun b => ?_
    have hrunpos : ∀ r ∈ head :: tail, 0 < r.length := fun r hr =>
      hpos.extents r (hold.mem_iff.mpr (mem_append_left others hr))
    rw [Volume.cover_homes, Volume.cover_homes, Span.cover_perm (hold.map ExtentRow.physical),
      Span.cover_perm (hnew.map ExtentRow.physical), map_cons, Span.cover_cons,
      map_append, Span.cover_append, cover_run_physical hrun hrunpos]
    dsimp only
    omega

variable {file start stop : Int}

theorem Cut.conserves (h : Cut file start stop s s') (hpos : s.Positive) : Conserves s s' := by
  cases h with
  | mk t others extents free quarantine hold _ hmt hrng _ hnew hgo =>
    refine Conserves.of_eq rfl fun b => ?_
    have ht := hpos.extents t (hold.mem_iff.mpr (.head _))
    have hrow := cover_kept_physical ht hmt hrng b
    rw [Volume.cover_homes, Volume.cover_homes, Span.cover_perm (hold.map ExtentRow.physical),
      Span.cover_perm (hnew.map ExtentRow.physical), map_append, Span.cover_append,
      map_cons, Span.cover_cons]
    -- the cut bytes arrive in the free list or in the quarantine
    cases hgo with
    | freed _ _ hre =>
      have hcvr : Span.cover (free.rows.map FreeRow.span) b = _ + if b ∈ (⟨t.cutPhys start stop,
        (t.cut start stop).length⟩ : Span) then 1 else 0 := hre.cover b
      dsimp only
      omega
    | parked _ now _ hpark =>
      have hcvr : Span.cover (quarantine.rows.map span) b =
          Span.cover (s.quarantine.rows.map span) b +
            if b ∈ (⟨t.cutPhys start stop, (t.cut start stop).length⟩ : Span) then 1 else 0 := by
        rw [Span.cover_perm ((insert_perm hpark).map span), map_cons, Span.cover_cons]
        rfl
      dsimp only
      omega

theorem Unpark.conserves (h : Unpark s s') : Conserves s s' := by
  cases h with
  | mk q free hq hre =>
    refine Conserves.of_eq rfl fun b => ?_
    have hpm := perm_cons_deleteKey hq
    rw [Volume.cover_homes, Volume.cover_homes,
      Span.cover_perm (hpm.map span), map_cons, Span.cover_cons]
    have hcvr := hre.cover b
    have hspan : q.freeRow.span = q.span := rfl
    rw [hspan] at hcvr
    dsimp only
    omega

variable {spare : GrantRow → Prop}

theorem Move.conserves (h : Move spare s s') (hpos : s.Positive) : Conserves s s' := by
  cases h with
  | place h | join h | cut h => exact h.conserves hpos
  | unpark h => exact h.conserves
  | hold | release | fence | remember | records => exact .of_eq rfl fun _ => rfl
  | promote =>
    refine .of_eq rfl fun b => ?_
    rw [Volume.cover_homes, Volume.cover_homes]
    dsimp only
    rw [map_promoteExtents (f := ExtentRow.physical) fun _ => rfl]
  | recount =>
    refine .of_eq ?_ fun _ => rfl
    unfold Volume.watermark Volume.addExtentRows
    cases s.arena with
    | none | some a => rfl
  | register hno =>
    refine .of_eq ?_ fun _ => rfl
    unfold Volume.watermark
    rw [hno]
    rfl
  | expand ha =>
    refine .of_eq ?_ fun _ => rfl
    unfold Volume.watermark
    rw [ha]
    rfl

/-! ### Rows stay nonempty -/

theorem Place.positive (h : Place e s s') (hpos : s.Positive) : s'.Positive := by
  have hpm := h.extents_perm hpos
  have hext : ∀ r ∈ s'.extents, r ∈ e :: s.extents.rows := fun r hr => hpm.mem_iff.mp hr
  cases h with
  | mk t hlen _ _ _ _ _ htk =>
    have hrw : ∀ r ∈ s.extents.put e, 0 < r.length := by
      intro r hr
      rcases mem_cons.mp (hext r hr) with rfl | hr
      · exact hlen
      · exact hpos.extents r hr
    generalize e.physicalOffset = p at htk
    generalize e.gen = gen at htk
    cases htk with
    | reuse f free _ _ _ _ hre => exact ⟨hrw, hre, hpos.quarantine⟩
    | bump a _ _ => exact ⟨hrw, hpos.free, hpos.quarantine⟩

theorem Join.positive (h : Join s s') (hpos : s.Positive) : s'.Positive := by
  cases h with
  | mk head tail others extents hold hrun _ hnew =>
    refine ⟨fun r hr => ?_, hpos.free, hpos.quarantine⟩
    rcases mem_cons.mp (hnew.mem_iff.mp hr) with rfl | hr
    · have hrunpos : ∀ r ∈ head :: tail, 0 < r.length := fun r hr =>
        hpos.extents r (hold.mem_iff.mpr (mem_append_left others hr))
      have hhd := hrunpos head (.head _)
      have hle := length_le_joinedRow hrun hrunpos (.head _)
      change _ ∧ _ ≤ head.logicalOffset + _ ∧ _ at hle
      omega
    · exact hpos.extents r (hold.mem_iff.mpr (mem_append_right _ hr))

theorem Cut.positive (h : Cut file start stop s s') (hpos : s.Positive) : s'.Positive := by
  cases h with
  | mk t others extents free quarantine hold _ hmt hrng _ hnew hgo =>
    have ht := hpos.extents t (hold.mem_iff.mpr (.head _))
    have hcut := (cut_spec ht hmt hrng).1
    have hrw : ∀ r ∈ extents, 0 < r.length := by
      intro r hr
      rcases mem_append.mp (hnew.mem_iff.mp hr) with hr | hr
      · exact (kept_spec hmt hr).2.2.2.1
      · exact hpos.extents r (hold.mem_iff.mpr (.tail t hr))
    cases hgo with
    | freed _ _ hre => exact ⟨hrw, hre.positive, hpos.quarantine⟩
    | parked _ now _ hpark =>
      refine ⟨hrw, hpos.free, fun q hq => ?_⟩
      rcases (mem_insert hpark).mp hq with rfl | hq
      · exact hcut
      · exact hpos.quarantine q hq

theorem Unpark.positive (h : Unpark s s') (hpos : s.Positive) : s'.Positive := by
  cases h with
  | mk q free hq hre =>
    exact ⟨hpos.extents, hre.positive,
      fun x hx => hpos.quarantine x (mem_deleteKey.mp hx).1⟩

theorem Move.positive (h : Move spare s s') (hpos : s.Positive) : s'.Positive := by
  cases h with
  | place h | join h | cut h | unpark h => exact h.positive hpos
  | hold | release | fence | remember | records | recount | register | expand =>
    exact ⟨hpos.extents, hpos.free, hpos.quarantine⟩
  | promote =>
    refine ⟨fun r hr => ?_, hpos.free, hpos.quarantine⟩
    obtain ⟨x, hx, rfl | ⟨-, rfl⟩⟩ := exists_of_mem_promoteExtents hr
    · exact hpos.extents _ hx
    · exact hpos.extents x hx

/-! ### Files stay maps -/

theorem cover_fileMap_of_perm {l : List ExtentRow} (h : s.extents.rows.Perm l)
    (file b : Int) : Span.cover (s.fileMap file) b =
      Span.cover ((l.filter fun r => r.fileId = file).map ExtentRow.logical) b := by
  unfold Volume.fileMap
  exact Span.cover_perm ((h.filter _).map _) b

theorem filter_file {l : List ExtentRow} {file' : Int} (h : ∀ r ∈ l, r.fileId = file') :
    (l.filter fun r => r.fileId = file) = if file' = file then l else [] := by
  split
  · next heq => exact filter_eq_self.mpr fun r hr => by simp [h r hr, heq]
  · next hne => exact filter_eq_nil_iff.mpr fun r hr => by simp [h r hr, hne]

theorem Place.logical (h : Place e s s') (hs : Sound s) (file b : Int) :
    Span.cover (s'.fileMap file) b ≤ 1 := by
  have hold := hs.logical file b
  rw [cover_fileMap_of_perm (h.extents_perm hs.positive), filter_cons]
  cases h with
  | mk t hlen _ _ _ _ hgap _ =>
    split
    · next hfi =>
      rw [map_cons, Span.cover_cons]
      change Span.cover (s.fileMap file) b + _ ≤ 1
      split
      · next hb =>
        -- the gap was clear of the file's rows
        have hclr : Span.cover (s.fileMap file) b = 0 := by
          refine Span.cover_eq_zero_iff.mpr fun x hx hbx => ?_
          obtain ⟨r, hr, rfl⟩ := mem_map.mp hx
          obtain ⟨hr, hrf⟩ := mem_filter.mp hr
          have hgap' := hgap r hr (by simp at hrf hfi; omega)
          simp only [ExtentRow.logical, Span.mem_iff] at hb hbx
          omega
        omega
      · omega
    · exact hold

theorem Join.logical (h : Join s s') (hs : Sound s) (file b : Int) :
    Span.cover (s'.fileMap file) b ≤ 1 := by
  have hbd := hs.logical file b
  cases h with
  | mk head tail others extents hold hrun _ hnew =>
    have hrunpos : ∀ r ∈ head :: tail, 0 < r.length := fun r hr =>
      hs.positive.extents r (hold.mem_iff.mpr (mem_append_left others hr))
    have hfi : ∀ r ∈ head :: tail, r.fileId = head.fileId := fun r hr => (run_agrees hrun r hr).1
    rw [cover_fileMap_of_perm hold, filter_append, filter_file hfi, map_append,
      Span.cover_append] at hbd
    rw [cover_fileMap_of_perm (s := { s with extents }) hnew, filter_cons]
    by_cases heq : head.fileId = file
    · rw [if_pos heq, cover_run_logical hrun hrunpos] at hbd
      rw [if_pos (by simpa [joinedRow] using heq), map_cons, Span.cover_cons]
      omega
    · rw [if_neg (by simpa [joinedRow] using heq)]
      omega

theorem Cut.logical {cutFile : Int} (h : Cut cutFile start stop s s') (hs : Sound s)
    (file b : Int) : Span.cover (s'.fileMap file) b ≤ 1 := by
  have hbd := hs.logical file b
  cases h with
  | mk t others extents free quarantine hold _ hmt hrng _ hnew hgo =>
    have ht := hs.positive.extents t (hold.mem_iff.mpr (.head _))
    have hfi : ∀ k ∈ t.kept start stop, k.fileId = t.fileId := fun k hk => (kept_spec hmt hk).1
    have hrow := cover_kept_logical ht hmt hrng b
    rw [cover_fileMap_of_perm hold, filter_cons] at hbd
    unfold Volume.fileMap
    rw [Span.cover_perm ((hnew.filter _).map _), filter_append, filter_file hfi,
      map_append, Span.cover_append]
    by_cases heq : t.fileId = file
    · rw [if_pos (by simpa using heq), map_cons, Span.cover_cons] at hbd
      rw [if_pos heq]
      omega
    · rw [if_neg (by simpa using heq)] at hbd
      rw [if_neg heq, map_nil, Span.cover_nil]
      omega

theorem Move.logical (h : Move spare s s') (hs : Sound s) (file b : Int) :
    Span.cover (s'.fileMap file) b ≤ 1 := by
  cases h with
  | place h | join h | cut h => exact h.logical hs file b
  | unpark h =>
    cases h with
    | mk _ _ _ _ => exact hs.logical file b
  | hold | release | fence | remember | records | recount | register | expand =>
    exact hs.logical file b
  | @promote _ p =>
    have hmap : ∀ t : KeyedTable ExtentRow.key,
        (t.rows.filter fun r => r.fileId = file).map ExtentRow.logical =
          ((t.rows.map fun r => (r.fileId, r.logical)).filter fun x => x.1 = file).map
            Prod.snd := by
      intro t
      rw [filter_map, map_map]
      rfl
    have hold := hs.logical file b
    unfold Volume.fileMap at hold ⊢
    rw [hmap] at hold ⊢
    dsimp only
    rwa [map_promoteExtents (f := fun r => (r.fileId, r.logical)) fun _ => rfl]

/-! ### Grants stay on rows -/

theorem Join.granted (h : Join s s') (hs : Sound s) :
    ∀ g ∈ s'.grants, ∃ r ∈ s'.extents, g.On r ∧ (g.fenced = false → g.gen = r.gen) := by
  cases h with
  | mk head tail others extents hold _ hqt hnew =>
    intro g hg
    obtain ⟨r, hr, hon, hgen⟩ := hs.granted g hg
    -- the row of a grant is no part of the run
    rcases mem_append.mp (hold.mem_iff.mp hr) with hrun | hr
    · exact absurd hon (hqt r hrun g hg)
    · exact ⟨r, hnew.mem_iff.mpr (.tail _ hr), hon, hgen⟩

theorem Cut.granted (h : Cut file start stop s s') (hs : Sound s) :
    ∀ g ∈ s'.grants, ∃ r ∈ s'.extents, g.On r ∧ (g.fenced = false → g.gen = r.gen) := by
  cases h with
  | mk t others extents free quarantine hold hfi _ _ _ hnew _ =>
    intro g hg
    obtain ⟨hg, hkeep⟩ := mem_delete.mp hg
    obtain ⟨r, hr, hon, hgen⟩ := hs.granted g hg
    rcases mem_cons.mp (hold.mem_iff.mp hr) with rfl | hr
    · simp [hon.1, hon.2, hfi] at hkeep
    · exact ⟨r, hnew.mem_iff.mpr (mem_append_right _ hr), hon, hgen⟩

theorem Move.granted (h : Move spare s s') (hs : Sound s) :
    ∀ g ∈ s'.grants, ∃ r ∈ s'.extents, g.On r ∧ (g.fenced = false → g.gen = r.gen) := by
  cases h with
  | place h =>
    have hpm := h.extents_perm hs.positive
    have hgrs : s'.grants = s.grants := by
      cases h with
      | mk t _ _ _ _ _ _ htk =>
        rw [htk.frame]
    intro g hg
    obtain ⟨r, hr, hon⟩ := hs.granted g (hgrs ▸ hg)
    exact ⟨r, hpm.mem_iff.mpr (.tail _ hr), hon⟩
  | join h | cut h => exact h.granted hs
  | unpark h =>
    cases h with
    | mk _ _ _ _ => exact hs.granted
  | hold hr hon hgen _ _ =>
    intro x hx
    rcases mem_insertOrIgnore.mp hx with hx | ⟨rfl, -⟩
    · exact hs.granted x hx
    · exact ⟨_, hr, hon, fun _ => hgen⟩
  | release _ =>
    intro g hg
    exact hs.granted g (mem_delete.mp hg).1
  | fence _ =>
    intro g hg
    obtain ⟨x, hx, rfl | ⟨-, rfl⟩⟩ := exists_of_mem_fenceGrants hg
    · exact hs.granted _ hx
    · obtain ⟨r, hr, hon, -⟩ := hs.granted x hx
      exact ⟨r, hr, hon, nofun⟩
  | remember | records | recount | register | expand => exact hs.granted
  | @promote _ p =>
    intro g hg
    obtain ⟨r, hr, hon, hgen⟩ := hs.granted g hg
    refine ⟨_, mem_promoteExtents (p := p) hr, ?_⟩
    split
    · exact ⟨hon, hgen⟩
    · exact ⟨hon, hgen⟩

theorem Move.arena (h : Move spare s s')
    (hceil : ∀ a, s.arena = some a → a.nextFree ≤ a.sizeCeiling) :
    (s'.arena = none → s.arena = none) ∧ ∀ a, s'.arena = some a → a.nextFree ≤ a.sizeCeiling := by
  cases h with
  | place h =>
    cases h with
    | mk t _ _ _ _ _ _ htk =>
      rcases htk.arena with heq | ⟨a, ha, hrm, heq⟩
      · dsimp only
        rw [heq]
        exact ⟨id, hceil⟩
      · dsimp only
        rw [heq]
        refine ⟨nofun, fun x hx => ?_⟩
        cases hx
        exact hrm
  | join h | cut h | unpark h =>
    cases h with
    | mk => exact ⟨id, hceil⟩
  | hold | release | fence | remember | records | promote => exact ⟨id, hceil⟩
  | recount =>
    unfold Volume.addExtentRows
    cases ha : s.arena with
    | none => exact ⟨fun _ => rfl, fun a h => absurd h (by simp)⟩
    | some a =>
      refine ⟨fun h => absurd h (by simp), fun x hx => ?_⟩
      cases hx
      exact hceil a ha
  | register hno hc =>
    refine ⟨nofun, fun x hx => ?_⟩
    cases hx
    exact hc.1
  | expand ha hc =>
    refine ⟨nofun, fun x hx => ?_⟩
    cases hx
    exact (hceil _ ha).trans (le_of_lt hc)

/-! ### Soundness along moves -/

theorem Volume.Positive.homes_eq_nil (hpos : s.Positive)
    (h : ∀ b, Span.cover s.homes b = 0) : s.homes = [] := by
  refine eq_nil_iff_forall_not_mem.mpr fun x hx => ?_
  have hlen := hpos.of_mem_homes hx
  exact Span.cover_eq_zero_iff.mp (h x.start) x hx (Span.mem_iff.mpr (by omega))

theorem Move.sound (h : Move spare s s') (hs : Sound s) : Sound s' := by
  have hcons := h.conserves hs.positive
  have hpos := h.positive hs.positive
  obtain ⟨hno, hceil⟩ := h.arena hs.ceiling
  refine ⟨hpos, h.logical hs, fun b => ?_, fun b hb => ?_, hceil, fun ha => ?_, h.granted hs⟩
  · -- a byte that gains a home was above the watermark and had none
    have hold := hs.once b
    have hbel := hs.below b
    rw [hcons.cover b]
    split_ifs <;> omega
  · have hbel := hs.below b
    have hmono := hcons.mono
    rw [hcons.cover b] at hb
    split_ifs at hb <;> omega
  · refine hpos.homes_eq_nil fun b => ?_
    have hw : s.watermark = 0 := by unfold Volume.watermark; rw [hno ha]; rfl
    have hw' : s'.watermark = 0 := by unfold Volume.watermark; rw [ha]; rfl
    rw [hcons.cover b, hs.arena (hno ha), hw, hw', Span.cover_nil, if_neg (by omega)]

theorem Moves.sound (h : Moves spare s s') (hs : Sound s) : Sound s' := by
  induction h with
  | refl => exact hs
  | tail _ hmv ih => exact hmv.sound ih

theorem Moves.conserves (h : Moves spare s s') (hs : Sound s) : Conserves s s' := by
  induction h with
  | refl => exact .refl s
  | tail hmvs hmv ih => exact ih.trans (hmv.conserves (Moves.sound hmvs hs).positive)

theorem Sound.empty (grace : KeyedTable GraceRow.key) :
    Sound { Volume.empty with grace } where
  positive := ⟨fun _ h => absurd h (not_mem_empty _),
    fun _ h => absurd h (not_mem_empty _),
    fun _ h => absurd h (not_mem_empty _)⟩
  logical _ _ := Nat.zero_le 1
  once _ := Nat.zero_le 1
  below _ h := absurd h (lt_irrefl 0)
  ceiling _ h := absurd h (by simp [Volume.empty])
  arena _ := rfl
  granted _ h := absurd h (not_mem_empty _)

end Flint.Extent
