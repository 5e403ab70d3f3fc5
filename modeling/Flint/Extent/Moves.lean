import Mathlib.Data.List.Chain
import Flint.Extent.Homes

/-!
# The moves transactions are made of

Every committed transaction is a sequence of moves. A move is what it does to the tables, with the
guards under which the code makes it, so an invariant of the allocator is one case analysis over
`Move` and an induction. A move neither releases nor fences a grant that its predicate `spare` holds
of.
-/

namespace Flint.Extent

open KeyedTable QuarantineRow GrantRow List

def GrantRow.On (g : GrantRow) (r : ExtentRow) : Prop :=
  g.fileId = r.fileId ∧ g.logicalOffset = r.logicalOffset

theorem GrantRow.On.unique {t : KeyedTable ExtentRow.key} {g : GrantRow} {r x : ExtentRow}
    (hon : g.On r) (hon' : g.On x) (hr : r ∈ t) (hx : x ∈ t) : r = x :=
  eq_of_key_eq hr hx (ExtentRow.key_eq.mpr ⟨hon.1.symm.trans hon'.1, hon.2.symm.trans hon'.2⟩)

/-- A provisional row `e` is mapped over a gap of its file, in space taken for it. -/
inductive Place (e : ExtentRow) (s : Volume) : Volume → Prop
  | mk (t : Volume) (hlen : 0 < e.length) (hstt : e.state = .invalid)
    (hlo : 0 ≤ e.logicalOffset) (hsp : e.logicalOffset + e.length ≤ i64Max)
    (hfi : ∃ f, castI64 f = e.fileId)
    (hgap : ∀ r ∈ s.extents, r.fileId = e.fileId →
      r.logicalOffset + r.length ≤ e.logicalOffset ∨ e.logicalOffset + e.length ≤ r.logicalOffset)
    (htk : Takes s e.length t e.physicalOffset e.gen) :
    Place e s { t with extents := s.extents.put e }

structure Adjoins (a b : ExtentRow) : Prop where
  file : a.fileId = b.fileId
  logical : a.logicalOffset + a.length = b.logicalOffset
  physical : a.physicalOffset + a.length = b.physicalOffset
  state : a.state = b.state

def joinedRow (head : ExtentRow) (tail : List ExtentRow) : ExtentRow :=
  { head with
    length := ((head :: tail).map ExtentRow.length).sum
    gen := (tail.map ExtentRow.gen).foldl max head.gen }

/-- A run of rows on which no grant stands is replaced by one row. -/
inductive Join (s : Volume) : Volume → Prop
  | mk (head : ExtentRow) (tail others : List ExtentRow) (extents : KeyedTable ExtentRow.key)
    (hold : s.extents.rows.Perm (head :: tail ++ others))
    (hrun : (head :: tail).IsChain Adjoins)
    (hqt : ∀ r ∈ head :: tail, ∀ g ∈ s.grants, ¬g.On r)
    (hnew : extents.rows.Perm (joinedRow head tail :: others)) :
    Join s { s with extents }

/-! ### Cutting a row -/

def clientsOn (s : Volume) (t : ExtentRow) : List Int :=
  (grantsAt s t.fileId t.logicalOffset).map clientId

/-- The bytes of a cut go to the free list when every holder's fence is confirmed, and to the
quarantine otherwise. -/
inductive CutGoes (s : Volume) (t : ExtentRow) (start stop : Int) :
    FreeTable → KeyedTable physicalOffset → Prop
  | freed (free : FreeTable)
    (hall : ∀ g ∈ s.grants, g.On t → 0 < deliveredUnix s g.clientId)
    (hfr : Coalesced s.free ⟨t.cutPhys start stop, (t.cut start stop).length, t.gen⟩ free) :
    CutGoes s t start stop free s.quarantine
  | parked (quarantine : KeyedTable physicalOffset) (nowUnix : Int)
    (hso : clientsOn s t ≠ [])
    (hpark : s.quarantine.insert ⟨t.cutPhys start stop, (t.cut start stop).length, t.gen,
      Decimal.joinCsv (clientsOn s t), nowUnix⟩ = some quarantine) :
    CutGoes s t start stop s.free quarantine

/-- The part of row `t` inside `[start, stop)` leaves `extents`; the row carries no unfenced grant.
-/
inductive Cut (file start stop : Int) (s : Volume) : Volume → Prop
  | mk (t : ExtentRow) (others : List ExtentRow) (extents : KeyedTable ExtentRow.key)
    (free : FreeTable) (quarantine : KeyedTable physicalOffset)
    (hold : s.extents.rows.Perm (t :: others)) (hfi : t.fileId = file)
    (hmt : t.logicalOffset < stop ∧ start < t.logicalOffset + t.length)
    (hrng : start < stop)
    (hqt : ∀ g ∈ s.grants, g.On t → g.fenced)
    (hnew : extents.rows.Perm (t.kept start stop ++ others))
    (hgo : CutGoes s t start stop free quarantine) :
    Cut file start stop s
      { s with
        extents := extents
        grants := s.grants.delete fun g => g.fileId = file && g.logicalOffset = t.logicalOffset
        grace := s.grace.delete fun g => g.fileId = file && g.logicalOffset = t.logicalOffset
        free := free
        quarantine := quarantine }

/-! ### What a run adds up to -/

section Run

variable {head : ExtentRow} {tail : List ExtentRow}

theorem run_agrees (hrun : (head :: tail).IsChain Adjoins) :
    ∀ r ∈ head :: tail, r.fileId = head.fileId ∧ r.state = head.state := by
  induction tail generalizing head with
  | nil =>
    intro r hr
    rw [mem_singleton.mp hr]
    exact ⟨rfl, rfl⟩
  | cons b tail ih =>
    obtain ⟨hadj, hrs⟩ := isChain_cons_cons.mp hrun
    intro r hr
    rcases mem_cons.mp hr with rfl | hr
    · exact ⟨rfl, rfl⟩
    · obtain ⟨hf, hs⟩ := ih hrs r hr
      exact ⟨hf.trans hadj.file.symm, hs.trans hadj.state.symm⟩

theorem gen_le_joinedRow {r : ExtentRow} (hr : r ∈ head :: tail) :
    r.gen ≤ (joinedRow head tail).gen := by
  have hle : ∀ (l : List Int) (a x : Int), x = a ∨ x ∈ l → x ≤ l.foldl max a := by
    intro l
    induction l with
    | nil =>
      intro a x hx
      rw [hx.resolve_right not_mem_nil]
      exact le_refl a
    | cons y l ih =>
      intro a x hx
      rw [foldl_cons]
      rcases hx with rfl | hx
      · exact (le_max_left x y).trans (ih _ _ (.inl rfl))
      · rcases mem_cons.mp hx with rfl | hx
        · exact (le_max_right a x).trans (ih _ _ (.inl rfl))
        · exact ih _ _ (.inr hx)
  refine hle _ _ _ ?_
  rcases mem_cons.mp hr with rfl | hr
  · exact .inl rfl
  · exact .inr (mem_map_of_mem hr)

variable (hrun : (head :: tail).IsChain Adjoins) (hpos : ∀ r ∈ head :: tail, 0 < r.length)
include hrun hpos

theorem cover_run {f : ExtentRow → Span} (hf : ∀ r, (f r).length = r.length)
    (hst : (f (joinedRow head tail)).start = (f head).start)
    (hadjoins : ∀ {a b}, Adjoins a b → (f a).stop = (f b).start) (b : Int) :
    Span.cover ((head :: tail).map f) b = if b ∈ f (joinedRow head tail) then 1 else 0 := by
  have hjoined : f (joinedRow head tail) = ⟨(f head).start, Span.total ((head :: tail).map f)⟩ := by
    rw [← hst, Span.total, map_map, show Span.length ∘ f = ExtentRow.length from funext hf]
    exact congrArg (Span.mk _) (hf _)
  rw [hjoined]
  refine Span.cover_run ((isChain_map f).mpr (hrun.imp fun _ _ => hadjoins)) (fun x hx => ?_) b
  obtain ⟨r, hr, rfl⟩ := mem_map.mp (map_cons ▸ hx)
  rw [hf]
  exact le_of_lt (hpos r hr)

theorem cover_run_physical (b : Int) : Span.cover ((head :: tail).map ExtentRow.physical) b =
    if b ∈ (joinedRow head tail).physical then 1 else 0 :=
  cover_run hrun hpos (f := ExtentRow.physical) (fun _ => rfl) rfl (fun h => h.physical) b

theorem cover_run_logical (b : Int) : Span.cover ((head :: tail).map ExtentRow.logical) b =
    if b ∈ (joinedRow head tail).logical then 1 else 0 :=
  cover_run hrun hpos (f := ExtentRow.logical) (fun _ => rfl) rfl (fun h => h.logical) b

theorem exists_run_physical {b : Int} (hb : b ∈ (joinedRow head tail).physical) :
    ∃ r ∈ head :: tail, b ∈ r.physical := by
  have hcvr := cover_run_physical hrun hpos b
  rw [if_pos hb] at hcvr
  exact cover_map_pos_iff.mp (hcvr ▸ Nat.one_pos)

theorem length_le_joinedRow {r : ExtentRow} (hr : r ∈ head :: tail) :
    head.logicalOffset ≤ r.logicalOffset ∧ r.logicalOffset + r.length ≤
      (joinedRow head tail).logicalOffset + (joinedRow head tail).length ∧
      r.physicalOffset - r.logicalOffset = head.physicalOffset - head.logicalOffset := by
  induction tail generalizing head r with
  | nil =>
    rw [mem_singleton.mp hr]
    simp [joinedRow]
  | cons b tail ih =>
    obtain ⟨hadj, hrs⟩ := isChain_cons_cons.mp hrun
    have hpos' : ∀ r ∈ b :: tail, 0 < r.length := fun r hr => hpos r (.tail _ hr)
    have hhd := hpos head (.head _)
    have hlog := hadj.logical
    have hphys := hadj.physical
    have hsum : (joinedRow head (b :: tail)).length = head.length + (joinedRow b tail).length := by
      simp [joinedRow]
    have hla := ih hrs hpos' (.head _)
    change _ ∧ _ ≤ head.logicalOffset + (joinedRow head (b :: tail)).length ∧ _
    change _ ∧ _ ≤ b.logicalOffset + _ ∧ _ at hla
    have hb := hpos' b (.head _)
    rcases mem_cons.mp hr with rfl | hr
    · omega
    · have := ih hrs hpos' hr
      change _ ∧ _ ≤ b.logicalOffset + _ ∧ _ at this
      omega

end Run

/-! ### What a cut leaves -/

section Cut

variable {t : ExtentRow} {start stop : Int}

theorem kept_spec (hmt : t.logicalOffset < stop ∧ start < t.logicalOffset + t.length)
    {k : ExtentRow} (hk : k ∈ t.kept start stop) :
    k.fileId = t.fileId ∧ k.gen = t.gen ∧ k.state = t.state ∧ 0 < k.length ∧
      t.logicalOffset ≤ k.logicalOffset ∧
      k.logicalOffset + k.length ≤ t.logicalOffset + t.length ∧
      k.physicalOffset - k.logicalOffset = t.physicalOffset - t.logicalOffset ∧
      (k.logicalOffset + k.length ≤ start ∨ stop ≤ k.logicalOffset) := by
  unfold ExtentRow.kept at hk
  rcases mem_append.mp hk with hk | hk
  · split at hk
    · next h =>
      rw [mem_singleton.mp hk]
      simp only [ExtentRow.cut, max_def] at h
      refine ⟨rfl, rfl, rfl, ?_⟩
      simp only [ExtentRow.head, ExtentRow.cut, max_def, true_and]
      split_ifs at h ⊢ <;> omega
    · cases hk
  · split at hk
    · next h =>
      rw [mem_singleton.mp hk]
      simp only [ExtentRow.cut, Span.stop, max_def, min_def] at h
      refine ⟨rfl, rfl, rfl, ?_⟩
      simp only [ExtentRow.tail, ExtentRow.cut, Span.stop, max_def, min_def]
      split_ifs at h ⊢ <;> omega
    · cases hk

theorem kept_physical (hmt : t.logicalOffset < stop ∧ start < t.logicalOffset + t.length)
    {k : ExtentRow} (hk : k ∈ t.kept start stop) {b : Int} (hb : b ∈ k.physical) :
    b ∈ t.physical := by
  obtain ⟨-, -, -, -, hlo, hhi, hphys, -⟩ := kept_spec hmt hk
  rw [ExtentRow.mem_physical] at hb ⊢
  omega

variable (hpos : 0 < t.length)

include hpos

theorem cut_spec (hmt : t.logicalOffset < stop ∧
    start < t.logicalOffset + t.length) (hrng : start < stop) :
    0 < (t.cut start stop).length ∧ t.logicalOffset ≤ (t.cut start stop).start ∧
      (t.cut start stop).start + (t.cut start stop).length ≤ t.logicalOffset + t.length ∧
      start ≤ (t.cut start stop).start ∧
      (t.cut start stop).start + (t.cut start stop).length ≤ stop := by
  simp only [ExtentRow.cut, max_def, min_def]
  split_ifs <;> omega

theorem cover_cut_row (hmt : t.logicalOffset < stop ∧
    start < t.logicalOffset + t.length) (hrng : start < stop) (p b : Int) :
    (if b ∈ (⟨p, (t.head start stop).length⟩ : Span) then 1 else 0 : ℕ) +
        (if b ∈ (⟨p + ((t.cut start stop).stop - t.logicalOffset),
          (t.tail start stop).length⟩ : Span) then 1 else 0) +
        (if b ∈ (⟨p + ((t.cut start stop).start - t.logicalOffset),
          (t.cut start stop).length⟩ : Span) then 1 else 0) =
      if b ∈ (⟨p, t.length⟩ : Span) then 1 else 0 := by
  obtain ⟨hlen, hlo, hhi, -, -⟩ := cut_spec hpos hmt hrng
  simp only [ExtentRow.head, ExtentRow.tail, Span.mem_iff, Span.stop]
  generalize t.cut start stop = c at *
  split_ifs <;> omega

omit hpos in
theorem cover_kept (f : ExtentRow → Span) (hf : ∀ r, (f r).length = r.length) (b : Int) :
    Span.cover ((t.kept start stop).map f) b =
      (if b ∈ f (t.head start stop) then 1 else 0) +
        if b ∈ f (t.tail start stop) then 1 else 0 := by
  have hemp : ∀ r : ExtentRow, r.length ≤ 0 → b ∉ f r := by
    intro r hr hb
    have h₁ := hf r
    have h₂ := hb.1
    have h₃ : b < (f r).start + (f r).length := hb.2
    omega
  have hside : ∀ (p : Prop) [Decidable p] (r : ExtentRow), (¬p → r.length ≤ 0) →
      Span.cover ((if p then [r] else []).map f) b = if b ∈ f r then 1 else 0 := by
    intro p _ r hr
    split
    · rw [map_singleton, Span.cover_cons, Span.cover_nil, Nat.zero_add]
    · next hp => rw [map_nil, Span.cover_nil, if_neg (hemp r (hr hp))]
  unfold ExtentRow.kept
  rw [map_append, Span.cover_append, hside, hside]
  · intro h
    simp only [ExtentRow.tail]
    omega
  · intro h
    simp only [ExtentRow.head]
    omega

variable (hmt : t.logicalOffset < stop ∧ start < t.logicalOffset + t.length)

include hmt

theorem cover_kept_physical (hrng : start < stop) (b : Int) :
    Span.cover ((t.kept start stop).map ExtentRow.physical) b +
        (if b ∈ (⟨t.cutPhys start stop, (t.cut start stop).length⟩ : Span) then 1 else 0) =
      if b ∈ t.physical then 1 else 0 := by
  rw [cover_kept ExtentRow.physical fun _ => rfl]
  exact cover_cut_row hpos hmt hrng t.physicalOffset b

theorem cut_physical (hrng : start < stop) {b : Int}
    (hb : b ∈ (⟨t.cutPhys start stop, (t.cut start stop).length⟩ : Span)) : b ∈ t.physical := by
  have hcvr := cover_kept_physical hpos hmt hrng b
  by_contra hnot
  rw [if_pos hb, if_neg hnot] at hcvr
  omega

theorem cover_kept_logical (hrng : start < stop) (b : Int) :
    Span.cover ((t.kept start stop).map ExtentRow.logical) b +
        (if b ∈ t.cut start stop then 1 else 0) =
      if b ∈ t.logical then 1 else 0 := by
  have hrow := cover_cut_row hpos hmt hrng t.logicalOffset b
  have hback : ∀ x : Int, t.logicalOffset + (x - t.logicalOffset) = x := fun x => by omega
  rw [hback, hback] at hrow
  rw [cover_kept ExtentRow.logical fun _ => rfl]
  exact hrow

end Cut

inductive Unpark (s : Volume) : Volume → Prop
  | mk (q : QuarantineRow) (free : FreeTable) (hq : q ∈ s.quarantine)
    (hfr : Coalesced s.free q.freeRow free) :
    Unpark s { s with free, quarantine := s.quarantine.deleteKey q.physicalOffset }

variable {t : KeyedTable ExtentRow.key} {p : ExtentRow → Bool}

theorem exists_of_mem_promoteExtents {r : ExtentRow} (hr : r ∈ promoteExtents t p) :
    ∃ x ∈ t, r = x ∨ p x ∧ r = { x with state := .rw } :=
  exists_of_mem_update hr

theorem mem_promoteExtents {x : ExtentRow}
    (hx : x ∈ t) : (if p x then { x with state := .rw } else x) ∈ promoteExtents t p :=
  mem_update.mpr ⟨x, hx, rfl⟩

theorem map_promoteExtents {α : Type}
    {f : ExtentRow → α} (hf : ∀ r, f { r with state := .rw } = f r) :
    (promoteExtents t p).rows.map f = t.rows.map f := map_update hf

theorem exists_of_mem_fenceGrants {t : KeyedTable key} {p : GrantRow → Bool}
    {g : GrantRow} (hg : g ∈ fenceGrants t p) :
    ∃ x ∈ t, g = x ∨ p x ∧ g = { x with fenced := true } :=
  exists_of_mem_update hg

theorem mem_fenceGrants {t : KeyedTable key} {p : GrantRow → Bool} {x : GrantRow}
    (hx : x ∈ t) : (if p x then { x with fenced := true } else x) ∈ fenceGrants t p :=
  mem_update.mpr ⟨x, hx, rfl⟩

/-! ### All moves -/

inductive Move (spare : GrantRow → Prop) : Volume → Volume → Prop
  | place {e : ExtentRow} {s s' : Volume} (h : Place e s s') : Move spare s s'
  | join {s s' : Volume} (h : Join s s') : Move spare s s'
  | cut {file start stop : Int} {s s' : Volume} (h : Cut file start stop s s') : Move spare s s'
  | unpark {s s' : Volume} (h : Unpark s s') : Move spare s s'
  | hold {s : Volume} {g : GrantRow} {r : ExtentRow} (hr : r ∈ s.extents) (hon : g.On r)
    (hgen : g.gen = r.gen) (hlv : g.fenced = false)
    (hcl : 0 ≤ g.clientId ∧ g.clientId ≤ i64Max) :
    Move spare s { s with grants := s.grants.insertOrIgnore g }
  | release {s : Volume} {p : GrantRow → Bool} (hp : ∀ g ∈ s.grants, p g → ¬spare g) :
    Move spare s { s with grants := s.grants.delete p }
  | fence {s : Volume} {p : GrantRow → Bool} (hp : ∀ g ∈ s.grants, p g → ¬spare g) :
    Move spare s { s with grants := fenceGrants s.grants p }
  | remember {s : Volume} (grace : KeyedTable GraceRow.key)
    (h : ∀ q ∈ grace, q ∈ s.grace ∨ ∃ g ∈ s.grants, g.fenced = false ∧ q = g.graceRow) :
    Move spare s { s with grace }
  | promote {s : Volume} {p : ExtentRow → Bool} :
    Move spare s { s with extents := promoteExtents s.extents p }
  | recount {s : Volume} {n : Int} : Move spare s (s.addExtentRows n)
  | register {s : Volume} {c : Int} (hno : s.arena = none) (hc : 0 ≤ c ∧ c ≤ i64Max) :
    Move spare s { s with arena := some ⟨c, 0, 0⟩ }
  | expand {s : Volume} {a : Arena} {c : Int} (ha : s.arena = some a) (hc : a.sizeCeiling < c)
    (hmax : c ≤ i64Max) : Move spare s { s with arena := some { a with sizeCeiling := c } }
  | records {s : Volume} {fenced : KeyedTable FenceRow.clientId}
    {hosts : KeyedTable HostRow.clientId} {attaches : KeyedTable AttachRow.hostNqn} :
    Move spare s { s with fenced, hosts, attaches }

abbrev Moves (spare : GrantRow → Prop) := Relation.ReflTransGen (Move spare)

end Flint.Extent
