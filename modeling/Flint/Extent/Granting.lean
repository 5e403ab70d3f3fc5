import Flint.Extent.Merge

/-!
# What the grant transactions do when they commit

The cursor scan finds exactly the uncovered parts of the range (`gapsFrom_spec`), so the allocation
loop is a sequence of placements (`allocate_ok`).
-/

namespace Flint.Extent

open Outcome KeyedTable ExtentRow List Span

/-! ### Gaps -/

structure GapsSpec (stop cursor : Int) (rows : List ExtentRow) (gaps : List Span) : Prop where
  inside : ∀ g ∈ gaps, 0 < g.length ∧ cursor ≤ g.start ∧ g.start + g.length ≤ stop
  clear : ∀ g ∈ gaps, ∀ r ∈ rows, r.logicalOffset + r.length ≤ g.start ∨
    g.start + g.length ≤ r.logicalOffset
  ordered : gaps.Pairwise fun g g' => g.start + g.length ≤ g'.start
  covers : ∀ b, cursor ≤ b → b < stop → (∃ g ∈ gaps, b ∈ g) ∨ ∃ r ∈ rows, b ∈ r.logical

variable {rows : List ExtentRow}

theorem gapsFrom_spec {stop : Int} :
    ∀ {cursor : Int}, rows.Pairwise (fun a b => a.logicalOffset + a.length ≤ b.logicalOffset) →
      (∀ r ∈ rows, 0 < r.length ∧ r.logicalOffset < stop) →
      GapsSpec stop cursor rows (gapsFrom stop cursor rows) := by
  induction rows with
  | nil =>
    intro cursor _ _
    rw [gapsFrom]
    split
    · next hlt =>
      refine ⟨fun g hg => ?_, fun _ _ r hr => absurd hr not_mem_nil,
        pairwise_singleton _ _, fun b h₁ h₂ => .inl ⟨_, mem_singleton_self _, ?_⟩⟩
      · rw [mem_singleton.mp hg]
        dsimp only
        omega
      · exact mem_iff.mpr (by dsimp only; omega)
    · refine ⟨fun g hg => absurd hg not_mem_nil, fun g hg => absurd hg not_mem_nil,
        Pairwise.nil, fun b h₁ h₂ => ?_⟩
      omega
  | cons e es ih =>
    intro cursor hso hrw
    rw [pairwise_cons] at hso
    have hih := @ih (max cursor (e.logicalOffset + e.length)) hso.2
      fun r hr => hrw r (.tail e hr)
    obtain ⟨hpos, hsp⟩ := hrw e (.head _)
    have hle₁ := le_max_left cursor (e.logicalOffset + e.length)
    have hle₂ := le_max_right cursor (e.logicalOffset + e.length)
    have hlow : ∀ g ∈ gapsFrom stop (max cursor (e.logicalOffset + e.length)) es,
        cursor ≤ g.start ∧ e.logicalOffset + e.length ≤ g.start := fun g hg => by
      have := (hih.inside g hg).2.1
      omega
    -- the scan behind `e` is the same whether or not a gap ends at `e`
    have hbehind : GapsSpec stop cursor (e :: es)
        (gapsFrom stop (max cursor (e.logicalOffset + e.length)) es) ∨
        cursor < e.logicalOffset := by
      rcases le_or_gt e.logicalOffset cursor with hle | hgt
      · left
        refine ⟨fun g hg => ?_, fun g hg r hr => ?_, hih.ordered, fun b h₁ h₂ => ?_⟩
        · exact ⟨(hih.inside g hg).1, (hlow g hg).1, (hih.inside g hg).2.2⟩
        · rcases mem_cons.mp hr with rfl | hr
          · exact .inl (hlow g hg).2
          · exact hih.clear g hg r hr
        · rcases lt_or_ge b (e.logicalOffset + e.length) with hb | hb
          · exact .inr ⟨e, .head _, mem_iff.mpr (by
              simp only [logical]; omega)⟩
          · refine (hih.covers b (max_le h₁ hb) h₂).imp_right ?_
            rintro ⟨r, hr, hbr⟩
            exact ⟨r, .tail e hr, hbr⟩
      · exact .inr hgt
    rw [gapsFrom]
    split
    · next hgap =>
      rw [singleton_append]
      refine ⟨fun g hg => ?_, fun g hg r hr => ?_,
        pairwise_cons.mpr ⟨fun g hg => ?_, hih.ordered⟩, fun b h₁ h₂ => ?_⟩
      · rcases mem_cons.mp hg with rfl | hg
        · dsimp only
          omega
        · exact ⟨(hih.inside g hg).1, (hlow g hg).1, (hih.inside g hg).2.2⟩
      · rcases mem_cons.mp hg with rfl | hg
        · right
          dsimp only
          rcases mem_cons.mp hr with rfl | hr
          · omega
          · have := hso.1 r hr
            omega
        · rcases mem_cons.mp hr with rfl | hr
          · exact .inl (hlow g hg).2
          · exact hih.clear g hg r hr
      · have := (hlow g hg).2
        dsimp only
        omega
      · rcases lt_or_ge b e.logicalOffset with hb | hb
        · exact .inl ⟨_, .head _, mem_iff.mpr (by dsimp only; omega)⟩
        · rcases lt_or_ge b (e.logicalOffset + e.length) with hb' | hb'
          · exact .inr ⟨e, .head _, mem_iff.mpr (by
              simp only [logical]; omega)⟩
          · rcases hih.covers b (max_le h₁ hb') h₂ with ⟨g, hg, hbg⟩ | ⟨r, hr, hbr⟩
            · exact .inl ⟨g, .tail _ hg, hbg⟩
            · exact .inr ⟨r, .tail e hr, hbr⟩
    · next hgap =>
      rw [nil_append]
      exact hbehind.resolve_right hgap

variable {s : Volume}

theorem overlappingExtents_sorted (hs : Sound s) (file start stop : Int) :
    (overlappingExtents s file start stop).Pairwise
      fun a b => a.logicalOffset + a.length ≤ b.logicalOffset := by
  have hwin := overlappingExtents_isWindow s file start stop
  refine hwin.sorted.imp_of_mem fun {a b} ha hb hlt => ?_
  obtain ⟨ha, haf⟩ := hwin.mem a ha
  obtain ⟨hb, hbf⟩ := hwin.mem b hb
  exact hs.stop_le_start ha hb (haf.trans hbf.symm) hlt

/-! ### The allocation loop -/

inductive Placed (s : Volume) : List ExtentRow → Volume → Prop
  | nil : Placed s [] s
  | snoc {es : List ExtentRow} {e : ExtentRow} {t u : Volume} (h : Placed s es t)
    (he : Place e t u) : Placed s (es ++ [e]) u

variable {t : Volume} {es : List ExtentRow}

theorem Placed.moves {spare : GrantRow → Prop} (h : Placed s es t) : Moves spare s t := by
  induction h with
  | nil => exact .refl
  | snoc _ he ih => exact .tail ih (.place he)

variable {s' : Volume}

theorem Place.frame {e : ExtentRow} (h : Place e s s') :
    s' = { s with extents := s'.extents, free := s'.free, arena := s'.arena } := by
  cases h with
  | mk t _ _ _ _ _ _ htk =>
    rw [htk.frame]

theorem Placed.frame (h : Placed s es t) :
    t = { s with extents := t.extents, free := t.free, arena := t.arena } := by
  induction h with
  | nil => rfl
  | snoc _ he ih => rw [he.frame, ih]

theorem Placed.sound (h : Placed s es t) (hs : Sound s) :
    Sound t := Moves.sound (h.moves : Moves (fun _ => True) s t) hs

theorem Placed.extents_perm (h : Placed s es t) (hs : Sound s) :
    t.extents.rows.Perm (es ++ s.extents.rows) := by
  induction h with
  | nil => exact Perm.refl _
  | @snoc es e t u hes he ih =>
    refine (he.extents_perm (hes.sound hs).positive).trans ?_
    rw [append_assoc]
    exact ((ih).cons e).trans perm_middle.symm

theorem Placed.mem_extents (h : Placed s es t) (hs : Sound s) {r : ExtentRow} :
    r ∈ t.extents ↔ r ∈ es ∨ r ∈ s.extents := by
  rw [← mem_rows, (h.extents_perm hs).mem_iff, mem_append]
  rfl

section Loop

variable {file start stop : Int} {fresh : Bool}

theorem allocateGap_ok {w w' : Alloc} {g : Span} (hs : Sound w.vol)
    (hfi : ∃ f, castI64 f = file) (hlen : 0 < g.length) (hlo : 0 ≤ g.start)
    (hsp : g.start + g.length ≤ i64Max) (hgap : ∀ r ∈ w.vol.extents, r.fileId = file →
      r.logicalOffset + r.length ≤ g.start ∨ g.start + g.length ≤ r.logicalOffset)
    (h : allocateGap file fresh w g = .ok w') :
    ∃ e : ExtentRow, Place e w.vol w'.vol ∧ w'.newRows = w.newRows ++ [e] ∧
      e.fileId = file ∧ e.logical = g ∧ e.state = .invalid := by
  unfold allocateGap at h
  obtain ⟨t, ht, h⟩ := bind_ok.mp h
  obtain ⟨extents, hins, h⟩ := bind_ok.mp h
  obtain rfl := pure_ok.mp h
  have htk := takeSpace_ok hs.positive.free hlen ht
  obtain ⟨-, rfl⟩ := insert_eq_some.mp (insertInto_ok.mp hins)
  refine ⟨_, ?_, rfl, rfl, rfl, rfl⟩
  have hext : t.vol.extents = w.vol.extents := by rw [htk.frame]
  dsimp only
  rw [hext]
  exact .mk t.vol hlen rfl hlo hsp hfi hgap htk

/-- **The allocation loop places one row per gap**: the gaps still to come are clear of the rows. -/
theorem allocate_ok (hs : Sound s) {gaps : List Span} {w : Alloc} (hfi : ∃ f, castI64 f = file)
    (hst : 0 ≤ start) (hmax : stop ≤ i64Max)
    (hinside : ∀ g ∈ gaps, 0 < g.length ∧ start ≤ g.start ∧ g.start + g.length ≤ stop)
    (hclr : ∀ g ∈ gaps, ∀ r ∈ s.extents, r.fileId = file →
      r.logicalOffset + r.length ≤ g.start ∨ g.start + g.length ≤ r.logicalOffset)
    (horde : gaps.Pairwise fun g g' => g.start + g.length ≤ g'.start)
    (h : gaps.foldlM (allocateGap file fresh) ⟨s, [], []⟩ = .ok w) :
    Placed s w.newRows w.vol ∧ w.newRows.map logical = gaps ∧
      ∀ e ∈ w.newRows, e.fileId = file ∧ e.state = .invalid := by
  let P (rest : List Span) (w : Alloc) : Prop :=
    Placed s w.newRows w.vol ∧ w.newRows.map logical ++ rest = gaps ∧
      (∀ e ∈ w.newRows, e.fileId = file ∧ e.state = .invalid) ∧
      ∀ g ∈ rest, ∀ r ∈ w.vol.extents, r.fileId = file →
        r.logicalOffset + r.length ≤ g.start ∨ g.start + g.length ≤ r.logicalOffset
  have hte : ∀ g rest w w', P (g :: rest) w → allocateGap file fresh w g = .ok w' → P rest w' := by
    rintro g rest w w' ⟨hpl, hspl, hrw, hcl⟩ hw
    have hsnd := hpl.sound hs
    have hg : g ∈ gaps := by rw [← hspl]; simp
    obtain ⟨hlen, hge, hle⟩ := hinside g hg
    obtain ⟨e, hplc, hnew, hef, helog, hestate⟩ := allocateGap_ok hsnd hfi hlen
      (hst.trans hge) (hle.trans hmax) (hcl g (.head _)) hw
    have hpm := hplc.extents_perm hsnd.positive
    refine ⟨hnew ▸ hpl.snoc hplc, ?_, fun x hx => ?_, fun g' hg' r hr hrf => ?_⟩
    · rw [hnew, map_append, map_singleton, helog, append_assoc]
      exact hspl
    · rw [hnew] at hx
      rcases mem_append.mp hx with hx | hx
      · exact hrw x hx
      · rw [mem_singleton.mp hx]
        exact ⟨hef, hestate⟩
    · rcases mem_cons.mp (hpm.mem_iff.mp hr) with rfl | hr
      · -- the row just placed lies over `g`, which stops before `g'`
        have hord : (g :: rest).Pairwise fun g g' => g.start + g.length ≤ g'.start := by
          rw [← hspl] at horde
          exact (pairwise_append.mp horde).2.1
        have hlt := (pairwise_cons.mp hord).1 g' hg'
        left
        rw [← helog] at hlt
        exact hlt
      · exact hcl g' (.tail g hg') r hr hrf
  obtain ⟨hpl, hspl, hrw, -⟩ := foldlM_ok hte (⟨.nil, rfl, nofun, hclr⟩ : P gaps ⟨s, [], []⟩) h
  exact ⟨hpl, by simpa using hspl, hrw⟩

end Loop

section Hold

variable {client : Int} {mode : GrantMode}

theorem grantRows_cons (s : Volume) (client : Int) (mode : GrantMode) (r : ExtentRow)
    (rows : List ExtentRow) : grantRows s client mode (r :: rows) =
      grantRows { s with grants := s.grants.insertOrIgnore (r.grantRow client mode) } client mode
        rows := rfl

theorem mem_grantRows {g : GrantRow} (h : g ∈ (grantRows s client mode rows).grants) :
    g ∈ s.grants ∨ ∃ r ∈ rows, g = r.grantRow client mode := by
  induction rows generalizing s with
  | nil => exact .inl h
  | cons r rows ih =>
    rw [grantRows_cons] at h
    rcases ih h with hg | ⟨x, hx, hg⟩
    · rcases mem_insertOrIgnore.mp hg with hg | ⟨hg, -⟩
      · exact .inl hg
      · exact .inr ⟨r, .head _, hg⟩
    · exact .inr ⟨x, .tail r hx, hg⟩

theorem mem_grantRows_of_mem {g : GrantRow} (h : g ∈ s.grants) :
    g ∈ (grantRows s client mode rows).grants := by
  induction rows generalizing s with
  | nil => exact h
  | cons r rows ih =>
    rw [grantRows_cons]
    exact ih (mem_insertOrIgnore.mpr (.inl h))

theorem exists_grantRows {r : ExtentRow} (hr : r ∈ rows) :
    ∃ g ∈ (grantRows s client mode rows).grants, g.On r ∧ g.clientId = client := by
  induction rows generalizing s with
  | nil => cases hr
  | cons x rows ih =>
    rw [grantRows_cons]
    rcases mem_cons.mp hr with rfl | hr
    · by_cases hfr : ∀ y ∈ s.grants, y.key ≠ (r.grantRow client mode).key
      · exact ⟨_, mem_grantRows_of_mem (mem_insertOrIgnore.mpr (.inr ⟨rfl, hfr⟩)), ⟨rfl, rfl⟩, rfl⟩
      · push Not at hfr
        obtain ⟨y, hy, hkey⟩ := hfr
        obtain ⟨hf, ho, hc⟩ := GrantRow.key_eq.mp hkey
        exact ⟨y, mem_grantRows_of_mem (mem_insertOrIgnore.mpr (.inl hy)), ⟨hf, ho⟩, hc⟩
    · exact ih hr

theorem grantRows_moves {spare : GrantRow → Prop} (hcli : 0 ≤ client ∧ client ≤ i64Max)
    (hrw : ∀ r ∈ rows, r ∈ s.extents) : Moves spare s (grantRows s client mode rows) := by
  induction rows generalizing s with
  | nil => exact .refl
  | cons r rows ih =>
    rw [grantRows_cons]
    refine .head ?_ (ih fun x hx => hrw x (.tail r hx))
    exact .hold (hrw r (.head _)) ⟨rfl, rfl⟩ rfl rfl hcli

end Hold

/-! ### The transactions -/

structure RangeArgs (offset length : UInt64) (start stop : Int) : Prop where
  start_eq : start = offset.toNat
  stop_eq : stop = offset.toNat + length.toNat
  nonempty : 0 < length.toNat
  fits : stop ≤ i64Max

variable {offset length : UInt64}

theorem RangeArgs.bounds {start stop : Int} (h : RangeArgs offset length start stop) :
    0 ≤ start ∧ start < stop := by
  have h₁ := h.start_eq
  have h₂ := h.stop_eq
  have h₃ := h.nonempty
  omega

theorem rangeArgs_of_ok {what : String} {start stop : Int} (h₁ : asI64 offset what = .ok start)
    (h₂ : checkedEnd offset length = .ok stop) : RangeArgs offset length start stop := by
  obtain ⟨hs, -⟩ := asI64_ok h₁
  obtain ⟨he, hpos, hfit⟩ := checkedEnd_ok h₂
  exact ⟨hs, he, hpos, he ▸ hfit⟩

theorem refuseFenced_ok {client : Int} {u : Unit} (h : refuseFenced s client = .ok u) :
    ∀ g ∈ s.grants, g.clientId = client → g.fenced = false := by
  intro g hg hc
  have hno := refuse_ok.mp h
  simp only [any_eq_true, Bool.and_eq_true, decide_eq_true_eq, not_exists, not_and] at hno
  exact Bool.eq_false_iff.mpr (hno g hg hc)

structure GrantSpec (s : Volume) (fileId clientId : UInt64) (start stop : Int) (s' : Volume)
    (rows new : List ExtentRow) : Prop where
  client : (clientId.toNat : Int) ≤ i64Max
  unfenced : ∀ g ∈ s.grants, g.clientId = clientId.toNat → g.fenced = false
  alone : ∀ r ∈ overlappingExtents s (castI64 fileId) start stop, ∀ g ∈ s.grants, g.On r →
    g.fenced = false → UInt64.ofInt g.clientId = clientId
  /-- The gaps were filled with new rows, and the client got a grant on each row of the range. -/
  result : ∃ t, Placed s new t ∧ s' = grantRows (t.addExtentRows new.length) clientId.toNat .rw rows
  rows_perm : rows.Perm (overlappingExtents s (castI64 fileId) start stop ++ new)
  new_rows : ∀ e ∈ new, e.fileId = castI64 fileId ∧ e.state = .invalid ∧
    start ≤ e.logicalOffset ∧ e.logicalOffset + e.length ≤ stop
  covers : ∀ b, start ≤ b → b < stop → ∃ r ∈ rows, b ∈ r.logical

theorem grant_ok {budget : Int} {volume : String} (hs : Sound s) {fileId clientId : UInt64}
    {fresh : Bool} {reply : List GrantedExtent}
    (h : grant budget volume s fileId clientId offset length fresh = .ok (s', reply)) :
    ∃ start stop rows new reused, RangeArgs offset length start stop ∧
      GrantSpec s fileId clientId start stop s' rows new ∧
      reply = rows.map fun e => e.granted reused := by
  unfold grant at h
  obtain ⟨start, hst, h⟩ := bind_ok.mp h
  obtain ⟨stop, hsp, h⟩ := bind_ok.mp h
  obtain ⟨client, hcli, h⟩ := bind_ok.mp h
  obtain ⟨_, hfcd, h⟩ := bind_ok.mp h
  obtain ⟨_, hhols, h⟩ := bind_ok.mp h
  obtain ⟨_, -, h⟩ := bind_ok.mp h
  obtain ⟨w, hw, h⟩ := bind_ok.mp h
  obtain ⟨_, -, h⟩ := bind_ok.mp h
  cases pure_ok.mp h
  have har := rangeArgs_of_ok hst hsp
  obtain ⟨hlo, hrng⟩ := har.bounds
  obtain ⟨rfl, hcmax⟩ := asI64_ok hcli
  -- the gaps of the range, and the rows placed in them
  have hgaps : GapsSpec stop start _ (gapsFrom stop start
      (overlappingExtents s (castI64 fileId) start stop)) :=
    gapsFrom_spec (overlappingExtents_sorted hs _ _ _) fun r hr =>
      ⟨hs.positive.extents r (mem_overlappingExtents.mp hr).1, (mem_overlappingExtents.mp hr).2.2.1⟩
  have hclr : ∀ g ∈ gapsFrom stop start (overlappingExtents s (castI64 fileId) start stop),
      ∀ r ∈ s.extents, r.fileId = castI64 fileId →
        r.logicalOffset + r.length ≤ g.start ∨ g.start + g.length ≤ r.logicalOffset := by
    intro g hg r hr hrf
    by_cases hov : r ∈ overlappingExtents s (castI64 fileId) start stop
    · exact hgaps.clear g hg r hov
    · -- a row outside the range is clear of every gap inside it
      have hins := hgaps.inside g hg
      rw [mem_overlappingExtents] at hov
      by_contra hcon
      push Not at hcon
      exact hov ⟨hr, hrf, by omega, by omega⟩
  obtain ⟨hpl, hlog, hnew⟩ := allocate_ok hs ⟨fileId, rfl⟩ hlo har.fits hgaps.inside
    hclr hgaps.ordered hw
  have hpm : (sortedByOffset (overlappingExtents s (castI64 fileId) start stop ++
      w.newRows)).Perm (overlappingExtents s (castI64 fileId) start stop ++ w.newRows) :=
    perm_insertionSort _ _
  refine ⟨start, stop, _, w.newRows, w.reusedPhys, har, ⟨hcmax, ?_, ?_, ⟨w.vol, hpl, ?_⟩,
    hpm, fun e he => ?_, fun b h₁ h₂ => ?_⟩, rfl⟩
  · exact refuseFenced_ok hfcd
  · intro r hr g hg hon hlv
    have hnil := not_not.mp (refuse_ok.mp hhols)
    have hsm := liveUnfencedHolders_eq_nil.mp hnil r hr g hg
      (hon.1.trans (mem_overlappingExtents.mp hr).2.1) hon.2 hlv
    exact Option.some.inj hsm
  · congr 1
    split
    · next hnil => rw [hnil, length_nil, Int.natCast_zero, addExtentRows_zero]
    · rfl
  · have hg : e.logical ∈ gapsFrom stop start (overlappingExtents s (castI64 fileId) start stop) :=
      hlog ▸ mem_map_of_mem he
    have hins := hgaps.inside _ hg
    exact ⟨(hnew e he).1, (hnew e he).2, hins.2.1, hins.2.2⟩
  · rcases hgaps.covers b h₁ h₂ with ⟨g, hg, hb⟩ | ⟨r, hr, hb⟩
    · rw [← hlog] at hg
      obtain ⟨e, he, rfl⟩ := mem_map.mp hg
      exact ⟨e, hpm.mem_iff.mpr (mem_append_right _ he), hb⟩
    · exact ⟨r, hpm.mem_iff.mpr (mem_append_left _ hr), hb⟩

structure GrantReadSpec (s : Volume) (fileId clientId : UInt64) (start stop : Int) (s' : Volume)
    (rows : List ExtentRow) : Prop where
  client : (clientId.toNat : Int) ≤ i64Max
  unfenced : ∀ g ∈ s.grants, g.clientId = clientId.toNat → g.fenced = false
  result : s' = grantRows s clientId.toNat .read rows
  rows_eq : rows = (overlappingExtents s (castI64 fileId) start stop).filter fun e => e.state = .rw

theorem grantRead_ok {volume : String} {fileId clientId : UInt64} {reply : List GrantedExtent}
    (h : grantRead volume s fileId clientId offset length = .ok (s', reply)) :
    ∃ start stop rows, RangeArgs offset length start stop ∧
      GrantReadSpec s fileId clientId start stop s' rows ∧
      reply = rows.map fun e => { e.granted [] with committed := true } := by
  unfold grantRead at h
  obtain ⟨start, hst, h⟩ := bind_ok.mp h
  obtain ⟨stop, hsp, h⟩ := bind_ok.mp h
  obtain ⟨client, hcli, h⟩ := bind_ok.mp h
  obtain ⟨_, hfcd, h⟩ := bind_ok.mp h
  obtain ⟨_, -, h⟩ := bind_ok.mp h
  cases pure_ok.mp h
  obtain ⟨rfl, hcmax⟩ := asI64_ok hcli
  exact ⟨start, stop, _, rangeArgs_of_ok hst hsp, ⟨hcmax, refuseFenced_ok hfcd, rfl, rfl⟩, rfl⟩

end Flint.Extent
