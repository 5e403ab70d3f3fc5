import Flint.Extent.Layouts

/-!
# The block map

What the tables of a volume are for: they place the bytes of files on the device, each byte at one
place and each place for one byte (`BlockMap`). Grants of a range place what is not placed yet, a
reclaim takes the bytes of its range away, and a dropped volume places nothing. Every other
transaction, whatever rows it joins, promotes, parks or frees, leaves the map as it is.
-/

namespace Flint.Extent

open KeyedTable Outcome ExtentRow

/-- `At file b p`: byte `b` of the file is at byte `p` of the device. -/
@[ext] structure BlockMap where
  At : Int → Int → Int → Prop
  function : ∀ {file b p p'}, At file b p → At file b p' → p = p'
  injective : ∀ {file file' b b' p}, At file b p → At file' b' p → file = file' ∧ b = b'

/-- What a transaction that succeeds does to the map. -/
def BlockMap.After (m m' : BlockMap) : Op → Prop
  | .grant f _ o l _ =>
    (∀ file b p, m.At file b p → m'.At file b p) ∧
      (∀ b ∈ (⟨o.toNat, l.toNat⟩ : Span), ∃ p, m'.At (castI64 f) b p) ∧
      ∀ file b p, m'.At file b p →
        m.At file b p ∨ file = castI64 f ∧ b ∈ (⟨o.toNat, l.toNat⟩ : Span)
  | .reclaimComplete f o l _ => ∀ file b p,
    m'.At file b p ↔ m.At file b p ∧ ¬(file = castI64 f ∧ b ∈ (⟨o.toNat, l.toNat⟩ : Span))
  | .dropVolume => ∀ file b p, ¬m'.At file b p
  | _ => m' = m

def ExtentRow.Places (r : ExtentRow) (file b p : Int) : Prop :=
  r.fileId = file ∧ b ∈ r.logical ∧ p = r.physicalOffset + (b - r.logicalOffset)

variable {s s' : Volume}

def Volume.Places (s : Volume) (file b p : Int) : Prop := ∃ r ∈ s.extents, r.Places file b p

def Sound.blockMap (hs : Sound s) : BlockMap where
  At := s.Places
  function := by
    rintro file b p p' ⟨r, hr, hf, hb, rfl⟩ ⟨r', hr', hf', hb', rfl⟩
    rw [hs.eq_of_logical hr hr' (hf.trans hf'.symm) hb hb']
  injective := by
    rintro file file' b b' p ⟨r, hr, hf, hb, hp⟩ ⟨r', hr', hf', hb', hp'⟩
    exact hs.mapsTo_inj ⟨r, hr, hf, hb, hp, rfl⟩ ⟨r', hr', hf', hb', hp', rfl⟩

variable {file start stop x b p : Int}

theorem places_of_perm {l : List ExtentRow} (h : s.extents.rows.Perm l) :
    s.Places x b p ↔ ∃ r ∈ l, r.Places x b p := by
  simp only [Volume.Places, ← mem_rows, h.mem_iff]

theorem places_joinedRow {head : ExtentRow} {tail : List ExtentRow}
    (hrun : (head :: tail).IsChain Adjoins) (hpos : ∀ r ∈ head :: tail, 0 < r.length) :
    (joinedRow head tail).Places x b p ↔ ∃ r ∈ head :: tail, r.Places x b p := by
  have hone := cover_run_logical hrun hpos b
  constructor
  · rintro ⟨hf, hb, hp⟩
    rw [if_pos hb] at hone
    obtain ⟨r, hr, hbr⟩ := cover_map_pos_iff.mp (hone ▸ Nat.one_pos)
    obtain ⟨-, -, hoff⟩ := length_le_joinedRow hrun hpos hr
    change p = head.physicalOffset + (b - head.logicalOffset) at hp
    exact ⟨r, hr, (run_agrees hrun r hr).1.trans hf, hbr, by omega⟩
  · rintro ⟨r, hr, hf, hbr, hp⟩
    obtain ⟨hlo, hhi, hoff⟩ := length_le_joinedRow hrun hpos hr
    rw [mem_logical] at hbr
    refine ⟨(run_agrees hrun r hr).1.symm.trans hf, mem_logical.mpr ⟨?_, by omega⟩, ?_⟩
    · exact hlo.trans hbr.1
    · change p = head.physicalOffset + (b - head.logicalOffset)
      omega

theorem Join.places (hs : Sound s) (h : Join s s') : s'.Places = s.Places := by
  cases h with
  | mk head tail others extents hold hrun _ hnew =>
    funext x b p
    have hpos : ∀ r ∈ head :: tail, 0 < r.length := fun r hr =>
      hs.positive.extents r (hold.mem_iff.mpr (List.mem_append_left _ hr))
    rw [places_of_perm hold, places_of_perm hnew]
    simp only [List.mem_cons, List.mem_append, or_and_right, exists_or, exists_eq_left,
      places_joinedRow hrun hpos]

theorem Regroup.places {t : Volume} (hs : Sound s) (hmvs : Moves (fun _ => False) s t)
    (hrw : t.extents = s.extents) (h : Regroup t s') : s'.Places = s.Places := by
  induction h with
  | refl => simp only [funext_iff, Volume.Places, hrw, implies_true]
  | tail hjns hst ih =>
    rcases hst with hj | ⟨n, rfl⟩
    · exact (hj.places (Moves.sound (hmvs.trans (Regroup.moves hjns)) hs)).trans ih
    · exact ih

theorem places_kept {t : ExtentRow}
    (hmt : t.logicalOffset < stop ∧ start < t.logicalOffset + t.length) :
    (∃ r ∈ t.kept start stop, r.Places x b p) ↔ t.Places x b p ∧ ¬(start ≤ b ∧ b < stop) := by
  constructor
  · rintro ⟨k, hk, hf, hb, hp⟩
    obtain ⟨hfi, -, -, -, hlo, hhi, hoff, hside⟩ := kept_spec hmt hk
    rw [mem_logical] at hb
    exact ⟨⟨hfi ▸ hf, mem_logical.mpr (by omega), by omega⟩, by omega⟩
  · rintro ⟨⟨hf, hb, hp⟩, hout⟩
    rw [mem_logical] at hb
    -- the byte is before the cut or behind it
    have hkp : b < (t.cut start stop).start ∨ (t.cut start stop).stop ≤ b := by
      simp only [cut, Span.stop]
      omega
    rcases hkp with hlt | hle
    · exact ⟨t.head start stop, by simp [kept, hb.1.trans_lt hlt], hf,
        ⟨hb.1, by simpa [head, logical, Span.stop] using hlt⟩, hp⟩
    · exact ⟨t.tail start stop, by simp [kept, hle.trans_lt hb.2], hf,
        ⟨hle, by simpa [tail, logical, Span.stop] using hb.2⟩,
        by simp only [tail]; omega⟩

theorem Cuts.places (h : Relation.ReflTransGen (Cut file start stop) s s') :
    (s'.Places x b p → s.Places x b p) ∧
      (s.Places x b p → ¬(x = file ∧ start ≤ b ∧ b < stop) → s'.Places x b p) := by
  induction h with
  | refl => exact ⟨id, fun h _ => h⟩
  | @tail t u _ hcut ih =>
    cases hcut with
    | mk r others extents free quarantine hold hfi hmt _ _ hnew _ =>
      rw [places_of_perm hold] at ih
      rw [places_of_perm hnew]
      simp only [List.mem_append, List.mem_cons, or_and_right, exists_or, exists_eq_left,
        places_kept hmt] at ih ⊢
      refine ⟨fun h => ih.1 (h.imp_left And.left), fun h hout => ?_⟩
      exact (ih.2 h hout).imp_left fun hr => ⟨hr, fun hb => hout ⟨hr.1.symm.trans hfi, hb⟩⟩

theorem reclaimTarget_mem {now : Int} {w w' : Reclaim} {t x : ExtentRow}
    (h : reclaimTarget file start stop now w t = .ok w') (hx : x ∈ w'.vol.extents) :
    x ∈ t.kept start stop ∨ x ∈ w.vol.extents ∧ x.key ≠ toLex (file, t.logicalOffset) := by
  obtain ⟨u, hu, h⟩ := bind_ok.mp h
  have hsm : u.vol.extents = w.vol.extents := by
    unfold releaseCut at hu
    dsimp only at hu
    split at hu
    · obtain ⟨free, -, hu⟩ := bind_ok.mp hu
      obtain rfl := pure_ok.mp hu
      dsimp only
      split <;> rfl
    · obtain ⟨quarantine, -, hu⟩ := bind_ok.mp hu
      obtain rfl := pure_ok.mp hu
      rfl
  obtain ⟨extents, hext, h⟩ := bind_ok.mp h
  obtain rfl := pure_ok.mp h
  rcases List.mem_append.mp ((foldlM_insertInto_perm hext).mem_iff.mp hx) with hx | hx
  · exact .inl hx
  · exact .inr (hsm ▸ mem_deleteKey.mp hx)

theorem reclaimComplete_clears {f o l : UInt64} {now : Int} {out : FreeOutcome}
    (har : RangeArgs o l start stop) (h : reclaimComplete s f o l now = .ok (s', out)) :
    ∀ x ∈ s'.extents, x.fileId = castI64 f →
      ¬(x.logicalOffset < stop ∧ start < x.logicalOffset + x.length) := by
  unfold reclaimComplete at h
  obtain ⟨a, ha, h⟩ := bind_ok.mp h
  obtain ⟨b, hb, h⟩ := bind_ok.mp h
  have hab := rangeArgs_of_ok ha hb
  obtain rfl := hab.start_eq.trans har.start_eq.symm
  obtain rfl := hab.stop_eq.trans har.stop_eq.symm
  dsimp only at h
  split at h
  · next hnil =>
    cases pure_ok.mp h
    intro x hx hf hmt
    have hmem := mem_overlappingExtents.mpr ⟨hx, hf, hmt⟩
    rw [hnil] at hmem
    cases hmem
  · obtain ⟨_, -, h⟩ := bind_ok.mp h
    obtain ⟨w, hw, h⟩ := bind_ok.mp h
    cases pure_ok.mp h
    -- what the range still meets is among the targets to come
    let P (rest : List ExtentRow) (w : Reclaim) : Prop :=
      (∀ t ∈ rest, t.fileId = castI64 f ∧ t.logicalOffset < b ∧ a < t.logicalOffset + t.length) ∧
        ∀ x ∈ w.vol.extents, x.fileId = castI64 f →
          x.logicalOffset < b ∧ a < x.logicalOffset + x.length → x ∈ rest
    have hst : ∀ t rest w w', P (t :: rest) w →
        reclaimTarget (castI64 f) a b now w t = .ok w' → P rest w' := by
      rintro t rest w w' ⟨hrs, hclr⟩ hw
      obtain ⟨htf, hmt⟩ := hrs t (.head _)
      refine ⟨fun x hx => hrs x (.tail t hx), fun x hx hf hx' => ?_⟩
      rcases reclaimTarget_mem hw hx with hkp | ⟨hold, hne⟩
      · obtain ⟨-, -, -, -, -, -, -, hside⟩ := kept_spec hmt hkp
        omega
      · refine List.mem_of_ne_of_mem ?_ (hclr x hold hf hx')
        rintro rfl
        exact hne (by rw [← hf]; rfl)
    obtain ⟨-, hclr⟩ := foldlM_ok hst (⟨fun t ht => (mem_overlappingExtents.mp ht).2,
      fun x hx hf hx' => mem_overlappingExtents.mpr ⟨hx, hf, hx'⟩⟩ : P _ ⟨s, ⟨0, 0, 0, 0⟩, 0, 0⟩) hw
    exact fun x hx hf hmt => absurd (hclr x hx hf hmt) List.not_mem_nil

variable {f c : UInt64}

theorem GrantSpec.places (hs : Sound s) {rows new : List ExtentRow}
    (h : GrantSpec s f c start stop s' rows new) :
    s'.Places x b p ↔ s.Places x b p ∨ ∃ e ∈ new, e.Places x b p := by
  obtain ⟨t, hpl, rfl⟩ := h.result
  change t.Places x b p ↔ _
  simp only [places_of_perm (hpl.extents_perm hs), List.mem_append, or_and_right, exists_or]
  exact or_comm

/-- The rows of a commit are those before it, and they cover what those covered. -/
theorem CommitSpec.places (hs : Sound s) (h : CommitSpec s f c start stop s') :
    s'.Places = s.Places := by
  have hsub : ∀ {x b p}, s'.Places x b p → s.Places x b p := by
    rintro x b p ⟨r', hr', hplaces⟩
    obtain ⟨r, hr, rfl | ⟨-, -, rfl⟩⟩ := h.origin r' hr'
    · exact ⟨r', hr, hplaces⟩
    · exact ⟨r, hr, hplaces⟩
  have hcvr : ∀ p, Span.cover (s'.extents.rows.map physical) p =
      Span.cover (s.extents.rows.map physical) p := by
    intro p
    have hcvr := (Moves.conserves (h.moves fun _ => False) hs).cover p
    have hfr : s'.free = s.free := by rw [h.frame]
    have hpkd : s'.quarantine = s.quarantine := by rw [h.frame]
    have hwater : s'.watermark = s.watermark := by rw [h.frame]; rfl
    rw [Volume.cover_homes, Volume.cover_homes, hfr, hpkd, hwater, if_neg (by omega)] at hcvr
    omega
  funext x b p
  refine propext ⟨hsub, fun hplc => ?_⟩
  obtain ⟨r, hr, -, hb, hp⟩ := id hplc
  rw [mem_logical] at hb
  have hmem : p ∈ r.physical := mem_physical.mpr (by omega)
  obtain ⟨r', hr', hp'⟩ := cover_map_pos_iff.mp (hcvr p ▸ cover_map_pos_iff.mpr ⟨r, hr, hmem⟩)
  rw [mem_physical] at hp'
  have hplc' : s'.Places r'.fileId (r'.logicalOffset + (p - r'.physicalOffset)) p :=
    ⟨r', hr', rfl, mem_logical.mpr (by omega), by omega⟩
  obtain ⟨rfl, rfl⟩ := hs.blockMap.injective hplc (hsub hplc')
  exact hplc'

theorem RangeArgs.mem_iff {o l : UInt64} (h : RangeArgs o l start stop) {b : Int} :
    b ∈ (⟨o.toNat, l.toNat⟩ : Span) ↔ start ≤ b ∧ b < stop := by
  rw [h.start_eq, h.stop_eq]
  exact Iff.rfl

variable {budget : Budget} {volume : String} {op : Op} {r : Reply}

theorem exec_after (hs : Sound s) (hs' : Sound s') (h : exec budget volume s op = .ok (s', r)) :
    hs.blockMap.After hs'.blockMap op := by
  have hsm : s'.Places = s.Places → hs'.blockMap = hs.blockMap := fun h => BlockMap.ext h
  cases exec_executed hs h with
  | registerKept | expandKept | registered | expanded | fenced => exact hsm rfl
  | granted har hsp =>
    refine ⟨fun x b p hb => (hsp.places hs).mpr (.inl hb), fun b hb => ?_, fun x b p hb => ?_⟩
    · obtain ⟨hlo, hhi⟩ := har.mem_iff.mp hb
      obtain ⟨e, he, hbe⟩ := hsp.covers b hlo hhi
      refine ⟨e.physicalOffset + (b - e.logicalOffset), (hsp.places hs).mpr ?_⟩
      rcases List.mem_append.mp (hsp.rows_perm.mem_iff.mp he) with he | he
      · obtain ⟨he, hf, -⟩ := mem_overlappingExtents.mp he
        exact .inl ⟨e, he, hf, hbe, rfl⟩
      · exact .inr ⟨e, he, (hsp.new_rows e he).1, hbe, rfl⟩
    · refine ((hsp.places hs).mp hb).imp_right ?_
      rintro ⟨e, he, hf, hbe, -⟩
      obtain ⟨hfi, -, hlo, hhi⟩ := hsp.new_rows e he
      rw [mem_logical] at hbe
      exact ⟨hf.symm.trans hfi, har.mem_iff.mpr (by omega)⟩
  | grantedRead hsp =>
    obtain rfl := hsp.result
    exact hsm rfl
  | returned _ hsp => exact hsm (hsp.regroup.places hs (returnGrants_moves fun _ _ _ => id) rfl)
  | committed hsp => exact hsm (hsp.places hs)
  | reclaimed har hsp =>
    obtain ⟨a, hrun, -⟩ := answer_ok.mp h
    have hclr := reclaimComplete_clears har hrun
    obtain ⟨t, n, hcu, rfl⟩ := hsp.result
    intro x b p
    rw [har.mem_iff]
    refine ⟨fun hp => ⟨(Cuts.places hcu).1 hp, ?_⟩, fun hp => (Cuts.places hcu).2 hp.1 hp.2⟩
    rintro ⟨rfl, hlo, hhi⟩
    obtain ⟨e, he, hf, hbe, -⟩ := hp
    rw [mem_logical] at hbe
    exact hclr e he hf (by omega)
  | unparked h => exact hsm (by rw [h.frame]; rfl)
  | swept h => exact hsm (by rw [(Sweeps.unparks h).frame]; rfl)
  | revoked hsp => exact hsm (hsp.regroup.places hs (.single (.release fun _ _ _ => id)) rfl)
  | recorded hop =>
    cases op <;> first | exact absurd hop id | exact hsm rfl
  | dropped =>
    rintro file b p ⟨r, hr, -⟩
    exact absurd hr (not_mem_empty _)

def mapAfter (budget : Budget) (volume : String) (ops : List Op) : BlockMap :=
  (reachable_lawful budget volume ops).sound.blockMap

/-- A transaction does to the map what its kind says, and nothing when it is refused. -/
theorem transactions_refine_block_map (budget : Budget) (volume : String) (ops : List Op)
    (op : Op) :
    if (exec budget volume (runOps budget volume .empty ops) op).isOk then
      (mapAfter budget volume ops).After (mapAfter budget volume (ops ++ [op])) op
    else mapAfter budget volume (ops ++ [op]) = mapAfter budget volume ops := by
  have hrun : runOps budget volume .empty (ops ++ [op]) =
      step budget volume (runOps budget volume .empty ops) op := runOps_append _ ops [op]
  cases h : exec budget volume (runOps budget volume .empty ops) op with
  | error e =>
    refine BlockMap.ext ?_
    change (runOps budget volume .empty (ops ++ [op])).Places = _
    rw [hrun, step_of_error h]
    rfl
  | ok res => exact exec_after _ _ (h.trans (by rw [hrun, step_of_ok h]))

end Flint.Extent
