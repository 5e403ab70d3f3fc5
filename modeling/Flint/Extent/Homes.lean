import Flint.Extent.Step

/-!
# Where the bytes of a volume live

A physical byte lives in a row of `extents`, `extent_free` or `extent_quarantine`. `Volume.homes`
lists their ranges, and `Span.cover s.homes b` counts the rows that contain `b`.

The free list regroups its rows while it grows. `Coalesced` says what an insertion did, byte by
byte, and `Takes` how the allocation loop finds space.
-/

namespace Flint.Extent

open KeyedTable Outcome Span FreeRow

def Volume.homes (s : Volume) : List Span :=
  s.extents.rows.map ExtentRow.physical ++ s.free.rows.map span ++
    s.quarantine.rows.map QuarantineRow.span

def Volume.watermark (s : Volume) : Int := (s.arena.map Arena.nextFree).getD 0

def Volume.Free (s : Volume) (b : Int) : Prop := ∃ f ∈ s.free, b ∈ f.span

def Volume.Parked (s : Volume) (b : Int) : Prop := ∃ q ∈ s.quarantine, b ∈ q.span

def Volume.Mapped (s : Volume) (b : Int) : Prop := ∃ r ∈ s.extents, b ∈ r.physical

instance (s : Volume) (b : Int) : Decidable (s.Free b) :=
  inferInstanceAs (Decidable (∃ f ∈ s.free, b ∈ f.span))

instance (s : Volume) (b : Int) : Decidable (s.Mapped b) :=
  inferInstanceAs (Decidable (∃ r ∈ s.extents, b ∈ r.physical))

structure Volume.Positive (s : Volume) : Prop where
  extents : ∀ r ∈ s.extents, 0 < r.length
  free : ∀ f ∈ s.free, 0 < f.length
  quarantine : ∀ q ∈ s.quarantine, 0 < q.length

variable {s : Volume}

theorem Volume.Positive.of_mem_homes (h : s.Positive) {x : Span} (hx : x ∈ s.homes) :
    0 < x.length := by
  unfold Volume.homes at hx
  simp only [List.mem_append, List.mem_map] at hx
  obtain (⟨r, hr, rfl⟩ | ⟨r, hr, rfl⟩) | ⟨r, hr, rfl⟩ := hx
  · exact h.extents r hr
  · exact h.free r hr
  · exact h.quarantine r hr

theorem Volume.cover_homes (s : Volume) (b : Int) :
    cover s.homes b =
      cover (s.extents.rows.map ExtentRow.physical) b + cover (s.free.rows.map span) b +
        cover (s.quarantine.rows.map QuarantineRow.span) b := by
  unfold Volume.homes
  rw [cover_append, cover_append]

variable {b : Int}

theorem cover_map_pos_iff {R : Type} {f : R → Span} {l : List R} :
    0 < cover (l.map f) b ↔ ∃ r ∈ l, b ∈ f r := by
  rw [cover_pos_iff]
  simp only [List.mem_map, exists_exists_and_eq_and]

theorem Volume.mapped_iff : s.Mapped b ↔ 0 < cover (s.extents.rows.map ExtentRow.physical) b :=
  cover_map_pos_iff.symm

theorem Volume.free_iff : s.Free b ↔ 0 < cover (s.free.rows.map span) b := cover_map_pos_iff.symm

theorem Volume.parked_iff : s.Parked b ↔ 0 < cover (s.quarantine.rows.map QuarantineRow.span) b :=
  cover_map_pos_iff.symm

/-! ### Inserting into the free list -/

abbrev FreeTable := KeyedTable physicalOffset

structure Coalesced (t : FreeTable) (r : FreeRow) (t' : FreeTable) : Prop where
  cover : ∀ b, cover (t'.rows.map span) b = cover (t.rows.map span) b + if b ∈ r.span then 1 else 0
  /-- A byte comes from `r` or from a row of `t`, under a generation no larger. -/
  backed : ∀ f' ∈ t', ∀ b ∈ f'.span, (b ∈ r.span ∧ r.lastGen ≤ f'.lastGen) ∨
    ∃ f ∈ t, b ∈ f.span ∧ f.lastGen ≤ f'.lastGen
  positive : ∀ f' ∈ t', 0 < f'.length

/-- What absorbing neighbours into a row does: the bytes of the row and the table together stay. -/
structure Absorbed (t : FreeTable) (r : FreeRow) (t' : FreeTable) (r' : FreeRow) : Prop where
  cover : ∀ b, cover (t'.rows.map span) b + (if b ∈ r'.span then 1 else 0) =
    cover (t.rows.map span) b + if b ∈ r.span then 1 else 0
  subset : ∀ f ∈ t', f ∈ t
  backed : ∀ b ∈ r'.span, (b ∈ r.span ∧ r.lastGen ≤ r'.lastGen) ∨
    ∃ f ∈ t, b ∈ f.span ∧ f.lastGen ≤ r'.lastGen
  positive : 0 < r'.length

variable {t : FreeTable} {r : FreeRow}

theorem Absorbed.refl (hr : 0 < r.length) : Absorbed t r t r where
  cover _ := rfl
  subset _ hf := hf
  backed _ hb := .inl ⟨hb, le_refl _⟩
  positive := hr

variable (ht : ∀ f ∈ t, 0 < f.length)

include ht

theorem Absorbed.one {x r' : FreeRow} (hr : 0 < r.length) (hx : x ∈ t)
    (hspan : (x.physicalOffset + x.length = r.physicalOffset ∧
        r'.physicalOffset = x.physicalOffset) ∨
      (r.physicalOffset + r.length = x.physicalOffset ∧
        r'.physicalOffset = r.physicalOffset)) (hlen : r'.length = r.length + x.length)
    (hgen : r'.lastGen = max r.lastGen x.lastGen) :
    Absorbed t r (t.deleteKey x.physicalOffset) r' := by
  have hxpos := ht x hx
  -- the joined span counts as the two spans it is made of
  have hj : ∀ b, (if b ∈ r'.span then 1 else 0 : ℕ) =
      (if b ∈ r.span then 1 else 0) + if b ∈ x.span then 1 else 0 := by
    intro b
    simp only [span, mem_iff]
    rcases hspan with ⟨h₁, h₂⟩ | ⟨h₁, h₂⟩
    · split_ifs <;> omega
    · split_ifs <;> omega
  have hpm := perm_cons_deleteKey hx
  refine ⟨fun b => ?_, fun f hf => (mem_deleteKey.mp hf).1, fun b hb => ?_, ?_⟩
  · rw [cover_perm (hpm.map span), List.map_cons, cover_cons, hj b]
    omega
  · by_cases hbr : b ∈ r.span
    · exact .inl ⟨hbr, by rw [hgen]; exact le_max_left _ _⟩
    · refine .inr ⟨x, hx, ?_, by rw [hgen]; exact le_max_right _ _⟩
      by_contra hbx
      have := hj b
      rw [if_pos hb, if_neg hbr, if_neg hbx] at this
      omega
  · omega

theorem absorbPrev_spec (hr : 0 < r.length) :
    Absorbed t r (absorbPrev t r).1 (absorbPrev t r).2 := by
  unfold absorbPrev
  split
  · next p hp =>
    obtain ⟨hmem, -, -⟩ := last_eq_some hp
    split
    · next hadj => exact Absorbed.one ht hr hmem (.inl ⟨hadj, rfl⟩) rfl rfl
    · exact Absorbed.refl hr
  · exact Absorbed.refl hr

theorem absorbNext_spec (hr : 0 < r.length) :
    Absorbed t r (absorbNext t r).1 (absorbNext t r).2 := by
  unfold absorbNext
  split
  · next n hn =>
    obtain ⟨hmem, hkey⟩ := lookup_eq_some.mp hn
    have habs : Absorbed t r _ ⟨r.physicalOffset, r.length + n.length, max r.lastGen n.lastGen⟩ :=
      Absorbed.one ht hr hmem (.inr ⟨hkey.symm, rfl⟩) rfl rfl
    rwa [hkey] at habs
  · exact Absorbed.refl hr

omit ht in
theorem Absorbed.trans {t₁ t₂ : FreeTable} {r₁ r₂ : FreeRow} (h₁ : Absorbed t r t₁ r₁)
    (h₂ : Absorbed t₁ r₁ t₂ r₂) : Absorbed t r t₂ r₂ where
  cover b := (h₂.cover b).trans (h₁.cover b)
  subset f hf := h₁.subset f (h₂.subset f hf)
  backed b hb := by
    rcases h₂.backed b hb with ⟨hb₁, hg₁⟩ | ⟨f, hf, hbf, hgf⟩
    · rcases h₁.backed b hb₁ with ⟨hbr, hg⟩ | ⟨f, hf, hbf, hgf⟩
      · exact .inl ⟨hbr, hg.trans hg₁⟩
      · exact .inr ⟨f, hf, hbf, hgf.trans hg₁⟩
    · exact .inr ⟨f, h₁.subset f hf, hbf, hgf⟩
  positive := h₂.positive

theorem freeInsertCoalescing_ok {t' : FreeTable} (hr : 0 < r.length)
    (h : freeInsertCoalescing t r = .ok t') : Coalesced t r t' := by
  have h₁ := absorbPrev_spec ht hr
  have h₂ := absorbNext_spec (fun f hf => ht f (h₁.subset f hf)) h₁.positive
  have habs := h₁.trans h₂
  have hins := insertInto_ok.mp h
  have hmem := fun x => mem_insert (x := x) hins
  refine ⟨fun b => ?_, fun f' hf' b hb => ?_, fun f' hf' => ?_⟩
  · rw [cover_perm ((insert_perm hins).map span), List.map_cons, cover_cons]
    exact habs.cover b
  · rcases (hmem f').mp hf' with rfl | hf
    · exact habs.backed b hb
    · exact .inr ⟨f', habs.subset f' hf, hb, le_refl _⟩
  · rcases (hmem f').mp hf' with rfl | hf
    · exact habs.positive
    · exact ht f' (habs.subset f' hf)

omit ht

/-! ### Taking space -/

/-- The bytes from `phys` up leave the free list or the virgin space above the watermark, to be
mapped at generation `gen`. -/
inductive Takes (s : Volume) (len : Int) : Volume → Int → Int → Prop
  | reuse (f : FreeRow) (free : FreeTable) (hf : f ∈ s.free) (hlen : len ≤ f.length)
    (cover : ∀ b, cover (s.free.rows.map span) b =
      cover (free.rows.map span) b +
        if b ∈ (⟨f.physicalOffset, len⟩ : Span) then 1 else 0)
    (backed : ∀ f' ∈ free, ∀ b ∈ f'.span, ∃ x ∈ s.free, b ∈ x.span ∧ x.lastGen ≤ f'.lastGen)
    (positive : ∀ f' ∈ free, 0 < f'.length) :
    Takes s len { s with free } f.physicalOffset (f.lastGen + 1)
  | bump (a : Arena) (ha : s.arena = some a) (hrm : a.nextFree + len ≤ a.sizeCeiling) :
    Takes s len { s with arena := some { a with nextFree := a.nextFree + len } } a.nextFree 1

variable {len : Int}

theorem Takes.frame {t : Volume} {phys gen : Int} (h : Takes s len t phys gen) :
    t = { s with free := t.free, arena := t.arena } := by
  cases h with
  | reuse | bump => rfl

theorem Takes.arena {t : Volume} {phys gen : Int} (h : Takes s len t phys gen) :
    t.arena = s.arena ∨ ∃ a, s.arena = some a ∧ a.nextFree + len ≤ a.sizeCeiling ∧
      t.arena = some { a with nextFree := a.nextFree + len } := by
  cases h with
  | reuse => exact .inl rfl
  | bump a ha hrm => exact .inr ⟨a, ha, hrm, rfl⟩

theorem takeFree_ok {f : FreeRow} {t : Taken} (hpos : ∀ f ∈ s.free, 0 < f.length) (hlen : 0 < len)
    (hf : f ∈ s.free) (hfit : len ≤ f.length) (h : takeFree s len f = .ok t) :
    Takes s len t.vol t.phys t.gen := by
  have hrs : ∀ x ∈ s.free.deleteKey f.physicalOffset, x ∈ s.free :=
    fun x hx => (mem_deleteKey.mp hx).1
  have hpm := perm_cons_deleteKey hf
  unfold takeFree at h
  obtain ⟨free, hfr, ht⟩ := bind_ok.mp h
  obtain rfl := pure_ok.mp ht
  have hcvr : ∀ b, cover (s.free.rows.map span) b =
      cover ((s.free.deleteKey f.physicalOffset).rows.map span) b +
        if b ∈ f.span then 1 else 0 := fun b => by
    rw [cover_perm (hpm.map span), List.map_cons, cover_cons]
  unfold keepRemainder at hfr
  split at hfr
  · next hmore =>
    -- the remainder goes back to the free list
    have hco := freeInsertCoalescing_ok (fun x hx => hpos x (hrs x hx)) (by simpa using hmore)
      hfr
    refine Takes.reuse f free hf hfit (fun b => ?_) (fun f' hf' b hb => ?_) hco.positive
    · have hcut := cover_cut (p := f.physicalOffset) (k := len) (n := f.length - len)
        (by omega) (by omega) b
      rw [show len + (f.length - len) = f.length by omega] at hcut
      rw [hcvr b, hco.cover b]
      change _ + (if b ∈ (⟨f.physicalOffset, f.length⟩ : Span) then 1 else 0) =
        _ + (if b ∈ (⟨f.physicalOffset + len, f.length - len⟩ : Span) then 1 else 0) + _
      omega
    · rcases hco.backed f' hf' b hb with ⟨hbr, hg⟩ | ⟨x, hx, hbx, hg⟩
      · refine ⟨f, hf, ?_, hg⟩
        have h₁ : f.physicalOffset + len ≤ b := hbr.1
        have h₂ : b < f.physicalOffset + len + (f.length - len) := hbr.2
        exact ⟨by change f.physicalOffset ≤ b; omega,
          by change b < f.physicalOffset + f.length; omega⟩
      · exact ⟨x, hrs x hx, hbx, hg⟩
  · next hmore =>
    obtain rfl := pure_ok.mp hfr
    have heq : f.length = len := by omega
    refine Takes.reuse f _ hf hfit (fun b => ?_) (fun f' hf' b hb => ?_)
      fun x hx => hpos x (hrs x hx)
    · rw [hcvr b, ← heq]
      rfl
    · exact ⟨f', hrs f' hf', hb, le_refl _⟩

theorem takeBump_ok {t : Taken} (h : takeBump s len = .ok t) : Takes s len t.vol t.phys t.gen := by
  unfold takeBump at h
  split at h
  · cases h
  · next a ha =>
    obtain ⟨_, hrm, ht⟩ := bind_ok.mp h
    obtain rfl := pure_ok.mp ht
    exact Takes.bump a ha (not_lt.mp (refuse_ok.mp hrm))

theorem takeSpace_ok {fresh : Bool} {t : Taken} (hpos : ∀ f ∈ s.free, 0 < f.length) (hlen : 0 < len)
    (h : takeSpace s fresh len = .ok t) : Takes s len t.vol t.phys t.gen := by
  unfold takeSpace at h
  cases fresh with
  | true => exact takeBump_ok h
  | false =>
    cases hhit : s.free.first (fun f => f.length ≥ len) with
    | none =>
      simp only [hhit, Bool.false_eq_true, ↓reduceIte] at h
      exact takeBump_ok h
    | some f =>
      simp only [hhit, Bool.false_eq_true, ↓reduceIte] at h
      obtain ⟨hf, hfit, -⟩ := first_eq_some hhit
      exact takeFree_ok hpos hlen hf (by simpa using hfit) h

end Flint.Extent
