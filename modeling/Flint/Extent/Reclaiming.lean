import Flint.Extent.Granting

/-!
# What the other transactions do when they commit

`layout_return` and `revoke_client` drop grants and regroup rows; `reclaim_complete` is one cut per
target; `commit_extents` promotes rows it has checked.
-/

namespace Flint.Extent

open Outcome KeyedTable Relation ReflTransGen MergeSpan Moves List Option Bool

/-! ### Return and revocation -/

structure ReturnSpec (s : Volume) (fileId clientId : UInt64) (start stop : Int) (s' : Volume) :
    Prop where
  client : (clientId.toNat : Int) ≤ i64Max
  regroup : Regroup (returnGrants s (castI64 fileId) clientId.toNat start stop) s'
  counted : Counted s → Counted s'

variable {s : Volume} {file client start stop : Int}

theorem mem_returnGrants_grace {q : GraceRow}
    (h : q ∈ (returnGrants s file client start stop).grace) : q ∈ s.grace ∨
      ∃ g ∈ s.grants, returnedGrant s file client start stop g ∧ g.fenced = false ∧
        q = g.graceRow := by
  have hfo : ∀ (l : List GrantRow) (t : KeyedTable GraceRow.key),
      q ∈ l.foldl (fun t g => t.put g.graceRow) t → q ∈ t ∨ ∃ g ∈ l, q = g.graceRow := by
    intro l
    induction l with
    | nil => exact fun t h => .inl h
    | cons g l ih =>
      intro t h
      rcases ih _ h with h | ⟨x, hx, hq⟩
      · rcases mem_put.mp h with rfl | ⟨h, -⟩
        · exact .inr ⟨g, .head _, rfl⟩
        · exact .inl h
      · exact .inr ⟨x, .tail g hx, hq⟩
  rcases hfo _ _ h with h | ⟨g, hg, hq⟩
  · exact .inl h
  · rw [mem_select, and_eq_true, not_eq_true'] at hg
    exact .inr ⟨g, hg.1, hg.2.1, hg.2.2, hq⟩

variable {spare : GrantRow → Prop}

theorem returnGrants_moves
    (hspa : ∀ g ∈ s.grants, returnedGrant s file client start stop g → ¬spare g) :
    Moves spare s (returnGrants s file client start stop) := by
  refine .tail (.single (.remember (returnGrants s file client start stop).grace fun q hq => ?_))
    (.release hspa)
  rcases mem_returnGrants_grace hq with hq | ⟨g, hg, -, hlv, rfl⟩
  · exact .inl hq
  · exact .inr ⟨g, hg, hlv, rfl⟩

variable {volume : String} {s' : Volume} {fileId clientId offset length : UInt64}

theorem layoutReturn_ok (hs : Sound s) {n : ℕ}
    (h : layoutReturn volume s fileId clientId offset length = .ok (s', n)) :
    ∃ start stop, RangeArgs offset length start stop ∧
      ReturnSpec s fileId clientId start stop s' := by
  unfold layoutReturn at h
  obtain ⟨start, hst, h⟩ := bind_ok.mp h
  obtain ⟨stop, hsp, h⟩ := bind_ok.mp h
  obtain ⟨client, hcl, h⟩ := bind_ok.mp h
  obtain ⟨m, hm, h⟩ := bind_ok.mp h
  cases pure_ok.mp h
  obtain ⟨rfl, hcmax⟩ := asI64_ok hcl
  have har := rangeArgs_of_ok hst hsp
  have hsnd : Sound (returnGrants s (castI64 fileId) clientId.toNat start stop) :=
    sound (returnGrants_moves fun _ _ _ => id : Moves (fun _ => False) s _) hs
  obtain ⟨hreg, hcnt⟩ := mergeExtentsWindow_regroup hsnd har.bounds.2 hm
  exact ⟨start, stop, har, hcmax, hreg, hcnt⟩

structure RevokeSpec (s : Volume) (clientId : UInt64) (s' : Volume) : Prop where
  client : (clientId.toNat : Int) ≤ i64Max
  delivered : 0 < deliveredUnix s clientId.toNat
  regroup : Regroup (dropGrantsOf s clientId.toNat) s'
  counted : Counted s → Counted s'

theorem revokeWindows_nonempty (hs : s.Positive) {w : MergeSpan} (hw : w ∈ revokeWindows s client) :
    w.start < w.stop := by
  unfold revokeWindows at hw
  obtain ⟨file, hfi, rfl⟩ := mem_map.mp hw
  obtain ⟨x, hx, rfl⟩ := mem_map.mp (mem_dedup.mp hfi)
  have hspan : x.start < x.stop := by
    unfold grantedSpans at hx
    obtain ⟨g, -, hg⟩ := mem_filterMap.mp hx
    obtain ⟨e, he, rfl⟩ := map_eq_some_iff.mp hg
    obtain ⟨he, hkey⟩ := lookup_eq_some.mp he
    have hpos := hs.extents e he
    have hlo : e.logicalOffset = g.logicalOffset := by
      simp only [ExtentRow.key, EmbeddingLike.apply_eq_iff_eq, Prod.mk.injEq] at hkey
      exact hkey.2
    dsimp only
    omega
  have hin : x ∈ (grantedSpans s client).filter fun w => w.fileId = x.fileId :=
    mem_filter.mpr ⟨hx, by simp⟩
  generalize (grantedSpans s client).filter (fun w => w.fileId = x.fileId) = rows at hin
  dsimp only
  -- the least start is at most this one and the greatest end at least this one
  have hmin : (rows.map start).min?.getD 0 ≤ x.start := by
    obtain ⟨a, ha⟩ := isSome_iff_exists.mp (isSome_min?_of_mem (mem_map_of_mem (f := start) hin))
    rw [ha, getD_some]
    exact (min?_eq_some_iff.mp ha).2 _ (mem_map_of_mem hin)
  have hmax : x.stop ≤ (rows.map stop).max?.getD 0 := by
    obtain ⟨a, ha⟩ := isSome_iff_exists.mp (isSome_max?_of_mem (mem_map_of_mem (f := stop) hin))
    rw [ha, getD_some]
    exact (max?_eq_some_iff.mp ha).2 _ (mem_map_of_mem hin)
  omega

variable {n : UInt64}

theorem revokeClient_ok (hs : Sound s) (h : revokeClient volume s clientId = .ok (s', n)) :
    RevokeSpec s clientId s' := by
  unfold revokeClient at h
  obtain ⟨client, hcl, h⟩ := bind_ok.mp h
  obtain ⟨_, hdel, h⟩ := bind_ok.mp h
  obtain ⟨t, ht, h⟩ := bind_ok.mp h
  cases pure_ok.mp h
  obtain ⟨rfl, hcmax⟩ := asI64_ok hcl
  have hdr : Sound (dropGrantsOf s clientId.toNat) :=
    (Move.release fun _ _ _ => id : Move (fun _ => False) s _).sound hs
  -- each window is merged in a state the earlier merges have left sound
  let P (rest : List MergeSpan) (u : Volume) : Prop :=
    Regroup (dropGrantsOf s clientId.toNat) u ∧ (Counted s → Counted u) ∧
      ∀ w ∈ rest, w.start < w.stop
  have hte : ∀ w rest u u', P (w :: rest) u → (do
      let m ← mergeExtentsWindow volume u w.fileId w.start w.stop
      pure m.1 : Tx Volume) = .ok u' → P rest u' := by
    rintro w rest u u' ⟨hreg, hcnt, hwin⟩ hu
    obtain ⟨m, hm, hu⟩ := bind_ok.mp hu
    obtain rfl := pure_ok.mp hu
    have hsnd := sound (hreg.moves : Moves (fun _ => False) _ u) hdr
    obtain ⟨hmore, hcnt'⟩ := mergeExtentsWindow_regroup hsnd (hwin w (.head _)) hm
    exact ⟨trans hreg hmore, fun hc => hcnt' (hcnt hc),
      fun x hx => hwin x (.tail w hx)⟩
  obtain ⟨hreg, hcnt, -⟩ := foldlM_ok hte
    (⟨.refl, id, fun w hw => revokeWindows_nonempty hs.positive hw⟩ : P (revokeWindows s
      clientId.toNat) (dropGrantsOf s clientId.toNat)) ht
  exact ⟨hcmax, not_not.mp (refuse_ok.mp hdel), hreg, hcnt⟩

/-! ### Reclaim -/

theorem fencedHolders_eq {t : ExtentRow} (hqt : ∀ g ∈ s.grants, g.On t → g.fenced) :
    fencedHolders s t.fileId t.logicalOffset =
      (grantsAt s t.fileId t.logicalOffset).map fun g =>
        (g.clientId, deliveredUnix s g.clientId) := by
  unfold fencedHolders
  rw [filter_eq_self.mpr]
  intro g hg
  obtain ⟨hg, hf, ho⟩ := mem_grantsAt.mp hg
  exact hqt g hg ⟨hf, ho⟩

theorem reclaimTarget_ok {now : Int} {w w' : Reclaim} {t : ExtentRow} (hpos : w.vol.Positive)
    (ht : t ∈ w.vol.extents) (hfi : t.fileId = file)
    (hmt : t.logicalOffset < stop ∧ start < t.logicalOffset + t.length) (hrng : start < stop)
    (hqt : ∀ g ∈ w.vol.grants, g.On t → g.fenced)
    (h : reclaimTarget file start stop now w t = .ok w') :
    Cut file start stop w.vol w'.vol ∧ w'.rowsRemoved = w.rowsRemoved + 1 ∧
      w'.rowsAdded = w.rowsAdded + (t.kept start stop).length ∧
      ∃ others, w.vol.extents.rows.Perm (t :: others) ∧
        w'.vol.extents.rows.Perm (t.kept start stop ++ others) := by
  have hkey : toLex (file, t.logicalOffset) = t.key := by
    rw [← hfi]
    rfl
  have hold := perm_cons_deleteKey ht
  have hlen := (cut_spec (hpos.extents t ht) hmt hrng).1
  obtain ⟨u, hu, h⟩ := bind_ok.mp h
  -- the second half: the row goes and its kept sides come
  unfold clipRow at h
  obtain ⟨extents, hext, h⟩ := bind_ok.mp h
  obtain rfl := pure_ok.mp h
  -- the first half: where the bytes of the cut go
  have hhalf : ∃ free quarantine, CutGoes w.vol t start stop free quarantine ∧
      u.vol = { w.vol with
        free := free
        quarantine := quarantine
        grants := w.vol.grants.delete fun g =>
          g.fileId = file && g.logicalOffset = t.logicalOffset } ∧
      u.rowsRemoved = w.rowsRemoved ∧ u.rowsAdded = w.rowsAdded := by
    unfold releaseCut at hu
    rw [← hfi, fencedHolders_eq hqt, hfi] at hu
    dsimp only at hu
    split at hu
    · next hall =>
      obtain ⟨free, hfr, hu⟩ := bind_ok.mp hu
      obtain rfl := pure_ok.mp hu
      refine ⟨free, w.vol.quarantine, .freed free (fun g hg hon => ?_)
        (freeInsertCoalescing_ok hpos.free hlen hfr), ?_, rfl, rfl⟩
      · have hmem := mem_grantsAt.mpr ⟨hg, hon.1.trans hfi, hon.2⟩
        rcases hall with hnil | hall
        · rw [map_eq_nil_iff.mp hnil] at hmem
          cases hmem
        · have hone := all_eq_true.mp hall _ (mem_map_of_mem hmem)
          simpa using hone
      · split
        · next hnil =>
          -- no grant stood on the row, so there is none to delete
          have hno : ∀ g ∈ w.vol.grants,
              (decide (g.fileId = file) && decide (g.logicalOffset = t.logicalOffset)) = false := by
            intro g hg
            rw [eq_false_iff, Ne, and_eq_true, decide_eq_true_eq, decide_eq_true_eq]
            rintro ⟨hf, ho⟩
            have hmem := mem_grantsAt.mpr ⟨hg, hf, ho⟩
            rw [map_eq_nil_iff.mp hnil] at hmem
            cases hmem
          rw [delete_eq_self hno]
        · rfl
    · next hom =>
      obtain ⟨quarantine, hpark, hu⟩ := bind_ok.mp hu
      obtain rfl := pure_ok.mp hu
      have hcsv : ((grantsAt w.vol file t.logicalOffset).map fun g =>
          (g.clientId, deliveredUnix w.vol g.clientId)).map Prod.fst = clientsOn w.vol t := by
        rw [List.map_map]
        unfold clientsOn
        rw [hfi]
        rfl
      rw [hcsv] at hpark
      refine ⟨w.vol.free, quarantine, .parked quarantine now ?_ (insertInto_ok.mp hpark), rfl, rfl,
        rfl⟩
      rw [← hcsv]
      intro hnil
      exact hom (.inl (map_eq_nil_iff.mp hnil))
  obtain ⟨free, quarantine, hgo, huvol, hrem, hadd⟩ := hhalf
  have hnew := foldlM_insertInto_perm hext
  rw [hkey, huvol] at hnew
  dsimp only at hnew
  refine ⟨?_, by rw [← hrem], by rw [← hadd], _, hold, hnew⟩
  dsimp only
  rw [huvol]
  exact .mk t _ extents free quarantine hold hfi hmt hrng hqt hnew hgo

structure ReclaimSpec (s : Volume) (fileId : UInt64) (start stop : Int) (s' : Volume) : Prop where
  quiet : ∀ r ∈ overlappingExtents s (castI64 fileId) start stop, ∀ g ∈ s.grants, g.On r →
    g.fenced
  result : ∃ t n, ReflTransGen (Cut (castI64 fileId) start stop) s t ∧ s' = t.addExtentRows n
  counted : Counted s → Counted s'

theorem Cut.frame (h : Cut file start stop s s') : s'.arena = s.arena ∧ s'.fenced = s.fenced := by
  cases h with
  | mk => exact ⟨rfl, rfl⟩

variable {t : Volume}

theorem Cuts.frame (h : ReflTransGen (Cut file start stop) s t) :
    t.arena = s.arena ∧ t.fenced = s.fenced := by
  induction h with
  | refl => exact ⟨rfl, rfl⟩
  | tail _ hcut ih => exact ⟨hcut.frame.1.trans ih.1, hcut.frame.2.trans ih.2⟩

theorem Cuts.moves (h : ReflTransGen (Cut file start stop) s t) : Moves spare s t :=
  mono (fun _ _ hcut => .cut hcut) _ _ h

theorem reclaimComplete_ok (hs : Sound s) {now : Int} {out : FreeOutcome}
    (h : reclaimComplete s fileId offset length now = .ok (s', out)) :
    ∃ start stop, RangeArgs offset length start stop ∧ ReclaimSpec s fileId start stop s' := by
  unfold reclaimComplete at h
  obtain ⟨start, hst, h⟩ := bind_ok.mp h
  obtain ⟨stop, hsp, h⟩ := bind_ok.mp h
  have har := rangeArgs_of_ok hst hsp
  refine ⟨start, stop, har, ?_⟩
  dsimp only at h
  split at h
  · next hnil =>
    cases pure_ok.mp h
    refine ⟨fun r hr => ?_, ⟨s, 0, .refl, (addExtentRows_zero s).symm⟩, id⟩
    rw [hnil] at hr
    cases hr
  · obtain ⟨_, hhols, h⟩ := bind_ok.mp h
    obtain ⟨w, hw, h⟩ := bind_ok.mp h
    cases pure_ok.mp h
    have hqt : ∀ r ∈ overlappingExtents s (castI64 fileId) start stop, ∀ g ∈ s.grants,
        g.On r → g.fenced := by
      intro r hr g hg hon
      by_contra hlv
      have hnil := not_not.mp (refuse_ok.mp hhols)
      have hno := liveUnfencedHolders_eq_nil.mp hnil r hr g hg
        (hon.1.trans (mem_overlappingExtents.mp hr).2.1) hon.2 (eq_false_iff.mpr hlv)
      cases hno
    -- the targets still to come stand in the table, quiet and in order
    let P (rest : List ExtentRow) (w : Reclaim) : Prop :=
      ReflTransGen (Cut (castI64 fileId) start stop) s w.vol ∧
        (w.vol.extents.rows.length : Int) = s.extents.rows.length - w.rowsRemoved + w.rowsAdded ∧
        rest.Pairwise (fun a b => a.logicalOffset < b.logicalOffset) ∧
        ∀ t ∈ rest, t ∈ w.vol.extents ∧ t.fileId = castI64 fileId ∧
          (t.logicalOffset < stop ∧ start < t.logicalOffset + t.length) ∧
          ∀ g ∈ w.vol.grants, g.On t → g.fenced
    have hte : ∀ t rest w w', P (t :: rest) w →
        reclaimTarget (castI64 fileId) start stop now w t = .ok w' → P rest w' := by
      rintro t rest w w' ⟨hcu, hlen, hso, hrs⟩ hw
      obtain ⟨ht, htf, hmt, htq⟩ := hrs t (.head _)
      have hsnd := sound (Cuts.moves hcu : Moves (fun _ => False) s _) hs
      obtain ⟨hcut, hrem, hadd, others, hold, hnew⟩ := reclaimTarget_ok hsnd.positive ht htf
        hmt har.bounds.2 htq hw
      have hgrs : ∀ g ∈ w'.vol.grants, g ∈ w.vol.grants := by
        generalize w'.vol = v at hcut
        cases hcut with
        | mk => exact fun g hg => (mem_delete.mp hg).1
      rw [pairwise_cons] at hso
      refine ⟨.tail hcu hcut, ?_, hso.2, fun x hx => ?_⟩
      · have h₁ := hold.length_eq
        have h₂ := hnew.length_eq
        rw [length_cons] at h₁
        rw [length_append] at h₂
        omega
      · obtain ⟨hxm, hxf, hxr, hxq⟩ := hrs x (.tail t hx)
        refine ⟨hnew.mem_iff.mpr (mem_append_right _ ?_), hxf, hxr,
          fun g hg hon => hxq g (hgrs g hg) hon⟩
        refine mem_of_ne_of_mem ?_ (hold.mem_iff.mp hxm)
        rintro rfl
        exact lt_irrefl _ (hso.1 x hx)
    obtain ⟨hcu, hlen, -, -⟩ := foldlM_ok hte
      (⟨.refl, by simp, (overlappingExtents_isWindow s _ _ _).sorted, fun t ht =>
        ⟨(mem_overlappingExtents.mp ht).1, (mem_overlappingExtents.mp ht).2.1,
          (mem_overlappingExtents.mp ht).2.2, fun g hg => hqt t ht g hg⟩⟩ :
        P _ ⟨s, ⟨0, 0, 0, 0⟩, 0, 0⟩) hw
    refine ⟨hqt, ⟨w.vol, _, hcu, rfl⟩, fun hc a ha => ?_⟩
    unfold Volume.addExtentRows at ha
    rw [(Cuts.frame hcu).1] at ha
    obtain ⟨x, hx, rfl⟩ := map_eq_some_iff.mp ha
    have := hc x hx
    change x.extentRows + -(w.rowsRemoved - w.rowsAdded) = w.vol.extents.rows.length
    omega

/-! ### Commit -/

structure CommitSpec (s : Volume) (fileId clientId : UInt64) (start stop : Int) (s' : Volume) :
    Prop where
  client : (clientId.toNat : Int) ≤ i64Max
  checked : ∀ t ∈ overlappingExtents s (castI64 fileId) start stop,
    checkCommit s (castI64 fileId) clientId.toNat t = .ok ()
  frame : s' = { s with extents := s'.extents }
  length : s'.extents.rows.length = s.extents.rows.length
  moves : ∀ spare, Moves spare s s'
  origin : ∀ r' ∈ s'.extents, ∃ r ∈ s.extents, r' = r ∨
    r ∈ overlappingExtents s (castI64 fileId) start stop ∧ r.state = .invalid ∧
      r' = { r with state := .rw }

theorem promoteRows_spec (file : Int) (targets : List ExtentRow) (w : Volume × UInt64) :
    (targets.foldl (promoteRow file) w).1 =
        { w.1 with extents := (targets.foldl (promoteRow file) w).1.extents } ∧
      (targets.foldl (promoteRow file) w).1.extents.rows.length = w.1.extents.rows.length ∧
      (∀ spare, Moves spare w.1 (targets.foldl (promoteRow file) w).1) ∧
      ∀ r' ∈ (targets.foldl (promoteRow file) w).1.extents, ∃ r ∈ w.1.extents, r' = r ∨
        (∃ t ∈ targets, r.fileId = file ∧ r.logicalOffset = t.logicalOffset) ∧
          r.state = .invalid ∧ r' = { r with state := .rw } := by
  induction targets generalizing w with
  | nil => exact ⟨rfl, rfl, fun _ => .refl, fun r hr => ⟨r, hr, .inl rfl⟩⟩
  | cons t targets ih =>
    obtain ⟨hfrm, hlen, hmvs, hmem⟩ := ih (promoteRow file w t)
    rw [foldl_cons]
    refine ⟨hfrm, hlen.trans (length_map _), fun spare => .head .promote (hmvs spare),
      fun r' hr' => ?_⟩
    obtain ⟨x, hx, hor⟩ := hmem r' hr'
    obtain ⟨r, hr, rfl | ⟨hhit, rfl⟩⟩ := exists_of_mem_promoteExtents hx
    · refine ⟨x, hr, hor.imp_right ?_⟩
      rintro ⟨⟨u, hu, hkey⟩, hrs⟩
      exact ⟨⟨u, .tail t hu, hkey⟩, hrs⟩
    · simp only [and_eq_true, decide_eq_true_eq] at hhit
      refine ⟨r, hr, .inr ⟨⟨t, .head _, hhit.1⟩, hhit.2, ?_⟩⟩
      rcases hor with rfl | ⟨-, hinv, -⟩
      · rfl
      · cases hinv

theorem commitExtents_ok (h : commitExtents s fileId clientId offset length = .ok (s', n)) :
    ∃ start stop, RangeArgs offset length start stop ∧
      CommitSpec s fileId clientId start stop s' := by
  unfold commitExtents at h
  obtain ⟨start, hst, h⟩ := bind_ok.mp h
  obtain ⟨stop, hsp, h⟩ := bind_ok.mp h
  obtain ⟨client, hcl, h⟩ := bind_ok.mp h
  obtain ⟨_, -, h⟩ := bind_ok.mp h
  obtain ⟨_, hcheck, h⟩ := bind_ok.mp h
  have hs' := pure_ok.mp h
  obtain ⟨rfl, hcmax⟩ := asI64_ok hcl
  obtain ⟨hfrm, hlen, hmvs, hmem⟩ := promoteRows_spec (castI64 fileId)
    (overlappingExtents s (castI64 fileId) start stop) (s, 0)
  rw [hs'] at hfrm hlen hmvs hmem
  refine ⟨start, stop, rangeArgs_of_ok hst hsp, hcmax, forM_ok.mp hcheck, hfrm,
    hlen, hmvs, fun r' hr' => ?_⟩
  obtain ⟨r, hr, heq | ⟨⟨t, ht, hfi, hoff⟩, hinv, heq⟩⟩ := hmem r' hr'
  · exact ⟨r, hr, .inl heq⟩
  · -- the key names the target
    obtain ⟨htm, htf, -⟩ := mem_overlappingExtents.mp ht
    have hrt : r = t := eq_of_key_eq hr htm (ExtentRow.key_eq.mpr ⟨hfi.trans htf.symm, hoff⟩)
    exact ⟨r, hr, .inr ⟨hrt ▸ ht, hinv, heq⟩⟩

/-! ### The quarantine -/

abbrev Unparks := ReflTransGen Unpark

theorem Unparks.moves (h : Unparks s t) : Moves spare s t := mono (fun _ _ hu => .unpark hu) _ _ h

theorem Unpark.frame (h : Unpark s s') :
    s' = { s with free := s'.free, quarantine := s'.quarantine } := by
  cases h with
  | mk => rfl

theorem Unparks.frame (h : Unparks s t) :
    t = { s with free := t.free, quarantine := t.quarantine } := by
  induction h with
  | refl => rfl
  | tail _ hu ih => rw [hu.frame, ih]

theorem releaseAll_ok {l : List QuarantineRow} {free : FreeTable} (hpos : s.Positive)
    (hl : s.quarantine.rows = l)
    (h : l.foldlM (fun free q => freeInsertCoalescing free q.freeRow) s.free = .ok free) :
    Unparks s { s with free, quarantine := .empty } := by
  induction l generalizing s with
  | nil =>
    obtain rfl := pure_ok.mp h
    have hemp : s.quarantine = .empty := ext_rows hl
    rw [← hemp]
  | cons q l ih =>
    rw [foldlM_cons] at h
    obtain ⟨free₁, h₁, h⟩ := bind_ok.mp h
    have hq : q ∈ s.quarantine := by
      rw [← mem_rows, hl]
      exact .head _
    have hte : Unpark s { s with
        free := free₁
        quarantine := s.quarantine.deleteKey q.physicalOffset } :=
      .mk q free₁ hq (freeInsertCoalescing_ok hpos.free (hpos.quarantine q hq) h₁)
    exact .head hte (ih (hte.positive hpos) (rows_deleteKey_head hl) h)

theorem releaseQuarantine_ok (hpos : s.Positive) (h : releaseQuarantine volume s = .ok (s', n)) :
    Unparks s s' := by
  unfold releaseQuarantine at h
  obtain ⟨free, hfr, h⟩ := bind_ok.mp h
  obtain ⟨_, -, h⟩ := bind_ok.mp h
  cases pure_ok.mp h
  exact releaseAll_ok hpos rfl hfr

inductive Sweep (s₀ s : Volume) : Volume → Prop
  | mk (q : QuarantineRow) (free : FreeTable) (hq : q ∈ s.quarantine)
    (hsweep : sweepable s₀ q) (hfr : Coalesced s.free q.freeRow free) :
    Sweep s₀ s { s with free, quarantine := s.quarantine.deleteKey q.physicalOffset }

theorem Sweep.unpark {s₀ : Volume} (h : Sweep s₀ s s') : Unpark s s' := by
  cases h with
  | mk q free hq _ hfr => exact .mk q free hq hfr

theorem Sweeps.unparks {s₀ : Volume} (h : ReflTransGen (Sweep s₀) s s') :
    Unparks s s' := mono (fun _ _ h => h.unpark) _ _ h

theorem sweepQuarantineDelivered_ok (hs : Sound s) {n : UInt64 × UInt64}
    (h : sweepQuarantineDelivered volume s = .ok (s', n)) :
    ReflTransGen (Sweep s) s s' := by
  unfold sweepQuarantineDelivered at h
  obtain ⟨t, ht, h⟩ := bind_ok.mp h
  -- the ranges still to come are parked, and each is freed in a sound state
  let P (rest : List QuarantineRow) (u : Volume) : Prop :=
    ReflTransGen (Sweep s) s u ∧ rest.Pairwise (fun a b => a.physicalOffset < b.physicalOffset) ∧
      ∀ q ∈ rest, q ∈ u.quarantine ∧ sweepable s q
  have hte : ∀ q rest u u', P (q :: rest) u → unparkRow u q = .ok u' → P rest u' := by
    rintro q rest u u' ⟨hsws, hso, hrs⟩ hu
    have hmvs : Moves (fun _ => False) s u := (Sweeps.unparks hsws).moves
    have hpos := (sound hmvs hs).positive
    obtain ⟨hq, hsw⟩ := hrs q (.head _)
    unfold unparkRow at hu
    obtain ⟨free, hfr, hu⟩ := bind_ok.mp hu
    obtain rfl := pure_ok.mp hu
    rw [pairwise_cons] at hso
    refine ⟨.tail hsws (.mk q free hq hsw
      (freeInsertCoalescing_ok hpos.free (hpos.quarantine q hq) hfr)), hso.2, fun x hx => ?_⟩
    obtain ⟨hxm, hxs⟩ := hrs x (.tail q hx)
    exact ⟨mem_deleteKey.mpr ⟨hxm, ne_of_gt (hso.1 x hx)⟩, hxs⟩
  obtain ⟨hsws, -, -⟩ := foldlM_ok hte (⟨.refl, s.quarantine.select_sorted _,
    fun q hq => mem_select.mp hq⟩ : P _ s) ht
  split at h
  · cases pure_ok.mp h
    exact hsws
  · obtain ⟨_, -, h⟩ := bind_ok.mp h
    cases pure_ok.mp h
    exact hsws

end Flint.Extent
