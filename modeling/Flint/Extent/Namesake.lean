import Flint.Extent.Runs

/-!
# A volume under a name used before

`drop_volume` does not delete the rows of `extent_commit_grace`: the grace records stay under the
name, and `register_volume` makes a new arena over them. Once somebody else has been granted the
byte of such a record, a commit by the recorded client answers by the generation of the record and
not with "no grant for this client".
-/

namespace Flint.Extent

open List hiding lookup
open Outcome KeyedTable GraceRow

variable {budget : Budget} {volume : String}

def replies (budget : Budget) (volume : String) : Volume → List Op → List (Tx Reply)
  | _, [] => []
  | s, op :: ops =>
    (exec budget volume s op).map Prod.snd :: replies budget volume (step budget volume s op) ops

def Op.IsCall : Op → Prop
  | .grant .. | .grantRead .. | .layoutReturn .. | .commitExtents .. | .fenceClient ..
  | .fenceRecord .. | .revokeClient .. | .reclaimComplete .. | .sweepQuarantineDelivered => True
  | _ => False

/-! ### A volume without rows -/

def barren (arena : Option Arena) (fenced : KeyedTable FenceRow.clientId) (grace : KeyedTable key)
    : Volume :=
  { Volume.empty with arena, fenced, grace }

section Barren

variable {arena : Option Arena} (hfull : ∀ a, arena = some a → a.sizeCeiling ≤ a.nextFree)
include hfull

theorem takeSpace_barren (fenced : KeyedTable FenceRow.clientId) (fresh : Bool) (len : Int)
    (hlen : 0 < len) :
    ∃ e, ∀ grace, takeSpace (barren arena fenced grace) fresh len = .error e := by
  have hfst : ∀ grace, takeSpace (barren arena fenced grace) fresh len =
      takeBump (barren arena fenced grace) len := by
    intro grace
    unfold takeSpace
    cases fresh <;> rfl
  simp only [hfst]
  unfold takeBump
  cases harena : arena with
  | none => exact ⟨_, fun _ => rfl⟩
  | some a =>
    have hrm : a.nextFree + len > a.sizeCeiling := by
      have := hfull a harena
      omega
    refine ⟨.noSpace (UInt64.ofInt len) (UInt64.ofInt a.sizeCeiling) (UInt64.ofInt a.nextFree),
      fun grace => ?_⟩
    simp only [barren, refuse, if_pos hrm, error_bind]

theorem grant_barren (budget : Budget) (volume : String) (fenced : KeyedTable FenceRow.clientId)
    (f c o l : UInt64) (fresh : Bool) :
    ∃ e, ∀ grace, grant budget.rows volume (barren arena fenced grace) f c o l fresh =
      .error e := by
  unfold grant
  cases hst : asI64 o "offset exceeds i64" with
  | error e => exact ⟨e, fun _ => rfl⟩
  | ok start =>
    cases hsp : checkedEnd o l with
    | error e => exact ⟨e, fun _ => rfl⟩
    | ok stop =>
      cases hcl : asI64 c "client id exceeds i64" with
      | error e => exact ⟨e, fun _ => rfl⟩
      | ok client =>
        have hlt := (rangeArgs_of_ok hst hsp).bounds.2
        have hfcd : ∀ grace, refuseFenced (barren arena fenced grace) client = .ok () :=
          fun _ => rfl
        have hrw : ∀ grace, overlappingExtents (barren arena fenced grace) (castI64 f) start stop =
          [] := fun _ => rfl
        have hhols : ∀ grace, liveUnfencedHolders (barren arena fenced grace) (castI64 f) []
          (some c) = [] := fun _ => rfl
        -- the whole range is one gap
        have hgaps : gapsFrom stop start [] = [⟨start, stop - start⟩] := if_pos hlt
        have hbud : ∀ grace, checkRowBudget budget.rows (barren arena fenced grace)
          [⟨start, stop - start⟩] = checkRowBudget budget.rows (barren arena fenced .empty)
            [⟨start, stop - start⟩] := fun _ => rfl
        obtain ⟨e, he⟩ := takeSpace_barren hfull fenced fresh (stop - start) (by omega)
        simp only [ok_bind, hfcd, hrw, hhols, hgaps, hbud, ne_eq,
          not_true_eq_false, refuse, if_false, foldlM_cons, allocateGap, he,
          error_bind]
        cases checkRowBudget budget.rows (barren arena fenced .empty) [⟨start, stop - start⟩] with
        | error e' => exact ⟨e', fun _ => rfl⟩
        | ok _ => exact ⟨e, fun _ => rfl⟩

theorem exec_barren (budget : Budget) (volume : String) (fenced : KeyedTable FenceRow.clientId)
    {op : Op} (hop : op.IsCall) (grace : KeyedTable key) :
    ∃ grace', exec budget volume (barren arena fenced grace) op =
      (exec budget volume (barren arena fenced .empty) op).map
        fun p => (barren arena p.1.fenced grace', p.2) := by
  cases op with
  | grant f c o l fresh =>
    obtain ⟨e, he⟩ := grant_barren hfull budget volume fenced f c o l fresh
    refine ⟨grace, ?_⟩
    dsimp only [exec]
    rw [he grace, he .empty]
    rfl
  | grantRead f c o l | layoutReturn f c o l | commitExtents f c o l =>
    refine ⟨grace, ?_⟩
    dsimp only [exec, grantRead, layoutReturn, commitExtents]
    cases asI64 o "offset exceeds i64" <;> cases checkedEnd o l <;>
      cases asI64 c "client id exceeds i64" <;> rfl
  | reclaimComplete f o l now =>
    refine ⟨grace, ?_⟩
    dsimp only [exec, reclaimComplete]
    cases asI64 o "offset exceeds i64" <;> cases checkedEnd o l <;> rfl
  | sweepQuarantineDelivered => exact ⟨grace, rfl⟩
  | fenceClient c =>
    refine ⟨grace.delete fun q => q.clientId = c.toNat, ?_⟩
    dsimp only [exec, fenceClient]
    cases hc : asI64 c "client id exceeds i64" with
    | error => rfl
    | ok client =>
      obtain ⟨rfl, -⟩ := asI64_ok hc
      rfl
  | fenceRecord c now =>
    refine ⟨grace, ?_⟩
    dsimp only [exec, fenceRecord]
    cases asI64 c "client id exceeds i64" <;> rfl
  | revokeClient c =>
    refine ⟨grace, ?_⟩
    dsimp only [exec, revokeClient]
    cases hc : asI64 c "client id exceeds i64" with
    | error => rfl
    | ok client =>
      have hdel : deliveredUnix (barren arena fenced grace) client =
        deliveredUnix (barren arena fenced .empty) client := rfl
      simp only [ok_bind, refuse, hdel]
      split <;> rfl
  | registerVolume | expandVolume | releaseQuarantine | markFenceDelivered | unfenceRecord
  | hostAdmit | hostEvict | nodeAttach | nodeDetach | dropVolume => exact absurd hop id

theorem replies_barren {ops : List Op} (hops : ∀ op ∈ ops, op.IsCall)
    (fenced : KeyedTable FenceRow.clientId) (grace₁ grace₂ : KeyedTable key) :
    replies budget volume (barren arena fenced grace₁) ops =
      replies budget volume (barren arena fenced grace₂) ops := by
  induction ops generalizing fenced grace₁ grace₂ with
  | nil => rfl
  | cons op ops ih =>
    have hca := exec_barren hfull budget volume fenced (hops op (.head _))
    obtain ⟨grace₁', h₁⟩ := hca grace₁
    obtain ⟨grace₂', h₂⟩ := hca grace₂
    unfold replies step
    rw [h₁, h₂]
    cases exec budget volume (barren arena fenced .empty) op with
    | error e | ok p => exact congrArg (_ :: ·) (ih (fun x hx => hops x (.tail op hx)) ..)

end Barren

/-! ### A record that shows -/

def newVolume (ceiling : Int) (grace : KeyedTable key) : Volume :=
  barren (some ⟨ceiling, 0, 0⟩) .empty grace

def firstRow (f o : UInt64) : ExtentRow := ⟨castI64 f, o.toNat, 1, 0, 1, .invalid⟩

def oneByteVolume (ceiling : Int) (grace : KeyedTable key) (f d o : UInt64) : Volume :=
  { newVolume ceiling grace with
    arena := some ⟨ceiling, 1, 1⟩
    extents := .put .empty (firstRow f o)
    grants := .put .empty ((firstRow f o).grantRow d.toNat .rw) }

theorem asI64_of_le {v : UInt64} (what : String) (h : (v.toNat : Int) ≤ i64Max) :
    asI64 v what = .ok (v.toNat : Int) := by
  unfold asI64
  rw [refuse, if_neg (not_lt.mpr h)]
  rfl

theorem checkedEnd_one {o : UInt64} (h : (o.toNat : Int) < i64Max) :
    checkedEnd o 1 = .ok ((o.toNat : Int) + 1) := by
  have hone : ((1 : UInt64).toNat : Int) = 1 := rfl
  unfold i64Max at h
  unfold checkedEnd i64Max
  simp only [refuse, hone]
  rw [if_neg (by decide), if_neg (by omega), if_neg (by omega)]
  rfl

theorem verifyWindow_oneByte (volume : String) (ceiling : Int) (grace : KeyedTable key)
    (f d o : UInt64) :
    verifyWindowInvariants volume (oneByteVolume ceiling grace f d o) [(firstRow f o).touched] =
      .ok () := by
  set v := oneByteVolume ceiling grace f d o
  have hexs : v.extents.rows = [firstRow f o] := rfl
  have hgrs : v.grants.rows = [(firstRow f o).grantRow d.toNat .rw] := rfl
  have hprev : verifyPrev volume v (firstRow f o).touched = .ok () := by
    simp [verifyPrev, last, select, hexs, ExtentRow.touched]
  have hnx : verifyNext volume v (firstRow f o).touched = .ok () := by
    simp [verifyNext, first, select, hexs, ExtentRow.touched]
  have hplc : verifyPlacement volume 1 v (firstRow f o).touched = .ok () := by
    have hre : v.free.rows = [] := rfl
    have hpkd : v.quarantine.rows = [] := rfl
    simp [verifyPlacement, hexs, hre, hpkd, firstRow, ExtentRow.touched, refuse]
  have hgen : verifyTouchedGrants volume v (firstRow f o).touched = .ok () := by
    simp [verifyTouchedGrants, grantsAt, select, hgrs, staleGrant, grantedExtent,
      lookup, hexs, ExtentRow.touched, ExtentRow.grantRow, ExtentRow.key,
      refuse]
  change ([(firstRow f o).touched].forM fun t => do
      verifyPrev volume v t
      verifyNext volume v t
      verifyPlacement volume 1 v t
      verifyTouchedGrants volume v t) = _
  rw [forM_ok]
  intro t ht
  rw [mem_singleton.mp ht, hprev, hnx, hplc, hgen]
  rfl

theorem grant_firstByte {ceiling : Int} (hrm : 0 < ceiling) (grace : KeyedTable key) (f d : UInt64)
    {o : UInt64} (ho : (o.toNat : Int) < i64Max) (hd : (d.toNat : Int) ≤ i64Max) :
    grant budget.rows volume (newVolume ceiling grace) f d o 1 true =
      .ok (oneByteVolume ceiling grace f d o, [(firstRow f o).granted []]) := by
  unfold grant
  have hfcd : refuseFenced (newVolume ceiling grace) d.toNat = .ok () := rfl
  have hrw : overlappingExtents (newVolume ceiling grace) (castI64 f) o.toNat (o.toNat + 1) =
    [] := rfl
  have hgaps : gapsFrom ((o.toNat : Int) + 1) o.toNat [] = [⟨o.toNat, 1⟩] := by
    unfold gapsFrom
    rw [if_pos (by omega)]
    congr 2
    omega
  have hbud : checkRowBudget budget.rows (newVolume ceiling grace) [⟨o.toNat, 1⟩] = .ok () := by
    have hpos := budget.pos
    simp only [checkRowBudget, newVolume, barren, refuse]
    rw [if_neg]
    simp only [length_singleton]
    omega
  have hspace : takeSpace (newVolume ceiling grace) true 1 =
      .ok ⟨{ newVolume ceiling grace with arena := some ⟨ceiling, 1, 0⟩ }, 0, 1, false⟩ := by
    change takeBump (newVolume ceiling grace) 1 = _
    simp only [takeBump, newVolume, barren, refuse]
    rw [if_neg (by omega)]
    rfl
  rw [asI64_of_le _ ho.le, checkedEnd_one ho, asI64_of_le _ hd]
  have hal : [⟨(o.toNat : Int), 1⟩].foldlM (allocateGap (castI64 f) true)
      ⟨newVolume ceiling grace, [], []⟩ = .ok ⟨{ newVolume ceiling grace with
        arena := some ⟨ceiling, 1, 0⟩
        extents := .put .empty (firstRow f o) }, [firstRow f o], []⟩ := by
    rw [foldlM_cons, allocateGap, hspace]
    rfl
  have hvfy := verifyWindow_oneByte volume ceiling grace f d o
  have hstt : grantRows (Volume.addExtentRows { newVolume ceiling grace with
      arena := some ⟨ceiling, 1, 0⟩
      extents := .put .empty (firstRow f o) } 1) d.toNat .rw [firstRow f o] =
      oneByteVolume ceiling grace f d o := rfl
  simp only [ok_bind, hfcd, hrw, hgaps, hbud, hal]
  change (verifyWindowInvariants volume
    (grantRows (Volume.addExtentRows { newVolume ceiling grace with
      arena := some ⟨ceiling, 1, 0⟩
      extents := .put .empty (firstRow f o) } 1) d.toNat .rw [firstRow f o])
        [(firstRow f o).touched] >>= _) = _
  rw [hstt, hvfy]
  rfl

section Commit

variable {ceiling : Int} {grace : KeyedTable key} {f c d o : UInt64}

theorem lookup_firstByte (hne : c ≠ d) : (oneByteVolume ceiling grace f d o).grants.lookup
    (toLex (castI64 f, toLex ((firstRow f o).logicalOffset, (c.toNat : Int)))) = none := by
  refine lookup_eq_none.mpr fun g hg => ?_
  rw [mem_singleton.mp (show g ∈ [(firstRow f o).grantRow d.toNat .rw] from hg)]
  intro hkey
  have hcd : (d.toNat : Int) = c.toNat := by
    simp only [GrantRow.key, ExtentRow.grantRow, EmbeddingLike.apply_eq_iff_eq,
      Prod.mk.injEq] at hkey
    exact hkey.2.2
  exact hne (UInt64.toNat_inj.mp (by omega)).symm

variable (ho : (o.toNat : Int) < i64Max) (hc : (c.toNat : Int) ≤ i64Max)
include ho hc

theorem commit_firstByte : commitExtents (oneByteVolume ceiling grace f d o) f c o 1 =
    checkCommit (oneByteVolume ceiling grace f d o) (castI64 f) c.toNat (firstRow f o) >>=
      fun _ => pure ([firstRow f o].foldl (promoteRow (castI64 f))
        (oneByteVolume ceiling grace f d o, 0)) := by
  have hrw : overlappingExtents (oneByteVolume ceiling grace f d o) (castI64 f) o.toNat
      (o.toNat + 1) = [firstRow f o] := by
    have hexs : (oneByteVolume ceiling grace f d o).extents.rows = [firstRow f o] := rfl
    simp [overlappingExtents, select, hexs, firstRow]
  unfold commitExtents
  rw [asI64_of_le _ ho.le, checkedEnd_one ho, asI64_of_le _ hc]
  simp only [ok_bind, hrw]
  change ((checkCommit _ _ _ (firstRow f o) >>= fun _ => pure ()) >>= _) = _
  rw [bind_assoc]
  rfl

theorem commit_without_record (hne : c ≠ d) :
    commitExtents (oneByteVolume ceiling .empty f d o) f c o 1 =
      .error (.commitRejected "no grant for this client") := by
  rw [commit_firstByte ho hc, checkCommit, genHeld, lookup_firstByte hne]
  rfl

theorem commit_with_record (hne : c ≠ d) {q : GraceRow} (hq : q ∈ grace)
    (hfi : q.fileId = castI64 f) (hoff : q.logicalOffset = o.toNat) (hcl : q.clientId = c.toNat) :
    commitExtents (oneByteVolume ceiling grace f d o) f c o 1 ≠
      .error (.commitRejected "no grant for this client") := by
  -- the record is the only one in the window
  have hwindow : ∀ x, x ∈ ((oneByteVolume ceiling grace f d o).grace.select fun q =>
      q.fileId = castI64 f && q.clientId = (c.toNat : Int) &&
        (firstRow f o).logicalOffset ≤ q.logicalOffset &&
        q.logicalOffset < (firstRow f o).logicalOffset + (firstRow f o).length) ↔ x = q := by
    intro x
    simp only [mem_select, Bool.and_eq_true, decide_eq_true_eq]
    constructor
    · rintro ⟨hx, ⟨⟨hxf, hxc⟩, hlo⟩, hhi⟩
      have hxo : x.logicalOffset = o.toNat := by
        change (o.toNat : Int) ≤ _ at hlo
        change _ < (o.toNat : Int) + 1 at hhi
        omega
      exact eq_of_key_eq hx hq (key_eq.mpr
        ⟨hxf.trans hfi.symm, hxo.trans hoff.symm, hxc.trans hcl.symm⟩)
    · rintro rfl
      refine ⟨hq, ⟨⟨hfi, hcl⟩, ?_⟩, ?_⟩
      · exact hoff.ge
      · change _ < (o.toNat : Int) + 1
        omega
  have hgens : genHeld (oneByteVolume ceiling grace f d o) (castI64 f) c.toNat (firstRow f o) =
      .ok (some q.gen) := by
    unfold genHeld
    rw [lookup_firstByte hne]
    dsimp only
    generalize (oneByteVolume ceiling grace f d o).grace.select (fun q =>
      q.fileId = castI64 f && q.clientId = (c.toNat : Int) &&
        (firstRow f o).logicalOffset ≤ q.logicalOffset &&
        q.logicalOffset < (firstRow f o).logicalOffset + (firstRow f o).length) = l at hwindow ⊢
    have hmem : ∀ n, n ∈ l.map gen ↔ n = q.gen := fun n => by
      simp only [mem_map, hwindow, exists_eq_left]
      exact eq_comm
    have hmin : (l.map gen).min? = some q.gen :=
      min?_eq_some_iff.mpr ⟨(hmem _).mpr rfl, fun n hn => ((hmem n).mp hn).ge⟩
    have hmax : (l.map gen).max? = some q.gen :=
      max?_eq_some_iff.mpr ⟨(hmem _).mpr rfl, fun n hn => ((hmem n).mp hn).le⟩
    rw [hmin, hmax]
    exact congrArg _ (if_pos rfl)
  rw [commit_firstByte ho hc, checkCommit, hgens]
  simp only [ok_bind, refuse]
  split
  · simp
  · simp [pure, Except.pure]

end Commit

/-! ### The new volume and its namesake -/

theorem run_dropped (budget : Budget) (volume : String) (ops : List Op) (ceiling : UInt64) :
    runOps budget volume .empty (ops ++ [.dropVolume, .registerVolume ceiling]) =
      if (ceiling.toNat : Int) ≤ i64Max then
        newVolume ceiling.toNat (runOps budget volume .empty ops).grace
      else barren none .empty (runOps budget volume .empty ops).grace := by
  have hdr : step budget volume (runOps budget volume .empty ops) .dropVolume =
    barren none .empty (runOps budget volume .empty ops).grace := rfl
  have hregister : ∀ grace, exec budget volume (barren none .empty grace)
      (.registerVolume ceiling) = asI64 ceiling "ceiling exceeds i64" >>= fun c =>
        pure (newVolume c grace, .done) := by
    intro grace
    dsimp only [exec]
    unfold registerVolume
    cases asI64 ceiling "ceiling exceeds i64" <;> rfl
  rw [runOps_append, runOps_cons, runOps_cons, hdr]
  change step budget volume _ _ = _
  split
  · next h =>
    refine step_of_ok (r := .done) ?_
    rw [hregister, asI64_of_le _ h]
    rfl
  · next h =>
    refine step_of_error (e := .invalidRange "ceiling exceeds i64") ?_
    rw [hregister, asI64, refuse, if_pos (not_le.mp h)]
    rfl

/-- The call that shows a record: a grant of the byte to somebody else, and a commit by the
recorded client. -/
def showingCalls (f d c o : UInt64) : List Op := [.grant f d o 1 true, .commitExtents f c o 1]

theorem showingCalls_isCall (f d c o : UInt64) : ∀ op ∈ showingCalls f d c o, op.IsCall := by
  intro op hop
  rcases mem_pair.mp hop with rfl | rfl
  · trivial
  · trivial

theorem replies_show_record {ceiling : Int} (hrm : 0 < ceiling) {grace : KeyedTable key}
    {q : GraceRow} (hq : q ∈ grace) {f c d o : UInt64} (hf : castI64 f = q.fileId)
    (ho : (o.toNat : Int) = q.logicalOffset) (homax : (o.toNat : Int) < i64Max)
    (hc : (c.toNat : Int) = q.clientId) (hcmax : (c.toNat : Int) ≤ i64Max)
    (hdmax : (d.toNat : Int) ≤ i64Max) (hne : c ≠ d) :
    replies budget volume (newVolume ceiling grace) (showingCalls f d c o) ≠
      replies budget volume (newVolume ceiling .empty) (showingCalls f d c o) := by
  have hgr : ∀ grace, exec budget volume (newVolume ceiling grace) (.grant f d o 1 true) =
      .ok (oneByteVolume ceiling grace f d o, .extents [(firstRow f o).granted []]) := by
    intro grace
    change answer _ (grant _ _ _ _ _ _ _ _) = _
    rw [grant_firstByte hrm grace f d homax hdmax]
    rfl
  intro heq
  unfold showingCalls replies replies at heq
  rw [step_of_ok (hgr grace), step_of_ok (hgr .empty)] at heq
  have hcom := (cons.inj (cons.inj heq).2).1
  have hex : ∀ s, exec budget volume s (.commitExtents f c o 1) =
    answer Reply.count (commitExtents s f c o 1) := fun _ => rfl
  rw [hex, hex, commit_without_record homax hcmax hne] at hcom
  apply commit_with_record homax hcmax hne hq hf.symm ho.symm hc.symm
  cases hres : commitExtents (oneByteVolume ceiling grace f d o) f c o 1 with
  | ok p =>
    rw [hres] at hcom
    cases hcom
  | error e =>
    rw [hres] at hcom
    exact congrArg Except.error (Except.error.inj hcom)

/-- **When a re-created volume is a new volume.** Every later sequence of calls answers as after
`register_volume` alone exactly when the dropped volume left no grace record, or the new arena has
no room or was refused. -/
theorem recreated_volume_is_new_iff (budget : Budget) (volume : String) (ops : List Op)
    (ceiling : UInt64) :
    (∀ calls : List Op, (∀ op ∈ calls, op.IsCall) →
      replies budget volume
          (runOps budget volume .empty (ops ++ [.dropVolume, .registerVolume ceiling])) calls =
        replies budget volume (runOps budget volume .empty [.registerVolume ceiling]) calls) ↔
    (runOps budget volume .empty ops).grace = .empty ∨ ceiling = 0 ∨
      i64Max < (ceiling.toNat : Int) := by
  have hfr : runOps budget volume .empty [.registerVolume ceiling] =
      if (ceiling.toNat : Int) ≤ i64Max then newVolume ceiling.toNat .empty
      else barren none .empty .empty := by
    exact run_dropped budget volume [] ceiling
  rw [run_dropped, hfr]
  generalize hgra : (runOps budget volume .empty ops).grace = grace
  constructor
  · intro h
    by_contra hnot
    push Not at hnot
    obtain ⟨hne, hz, hmax⟩ := hnot
    have hrm : 0 < (ceiling.toNat : Int) := by
      have : ceiling.toNat ≠ 0 := fun h0 => hz (UInt64.toNat_inj.mp h0)
      omega
    rw [if_pos hmax, if_pos hmax] at h
    obtain ⟨q, hq⟩ : ∃ q, q ∈ grace := by
      by_contra hno
      push Not at hno
      exact hne (ext_rows (eq_nil_iff_forall_not_mem.mpr hno))
    obtain ⟨⟨f, hf⟩, hoff, hcl⟩ := (reachable_lawful budget volume ops).inRange.grace q (hgra ▸ hq)
    have ho := toNat_ofInt hoff.1 hoff.2.le
    have hc := toNat_ofInt hcl.1 hcl.2
    -- any client but the recorded one can be granted the byte
    obtain ⟨d, hd, hcd⟩ : ∃ d : UInt64, (d.toNat : Int) ≤ i64Max ∧ UInt64.ofInt q.clientId ≠ d := by
      by_cases h0 : UInt64.ofInt q.clientId = 0
      · exact ⟨1, by decide, by rw [h0]; decide⟩
      · exact ⟨0, by decide, h0⟩
    exact replies_show_record hrm hq hf ho (ho.trans_lt hoff.2) hc (hc.trans_le hcl.2) hd hcd
      (h _ (showingCalls_isCall _ _ _ _))
  · rintro (rfl | rfl | hmax) calls hcs
    · rfl
    · rw [if_pos (by decide), if_pos (by decide)]
      refine replies_barren (fun a ha => ?_) hcs _ _ _
      rw [← Option.some.inj ha]
      decide
    · rw [if_neg (not_le.mpr hmax), if_neg (not_le.mpr hmax)]
      exact replies_barren (fun a ha => absurd ha (by simp)) hcs _ _ _

/-- A block is granted, returned, and the volume dropped and registered again. Client 2 is granted
the block of the new volume, and client 1 commits it. -/
theorem dead_namesake_commits :
    replies (extentRowBudget none) "v"
        (runOps (extentRowBudget none) "v" .empty [.registerVolume 100000, .grant 1 1 0 4096 true,
          .layoutReturn 1 1 0 4096, .dropVolume, .registerVolume 100000])
        [.grant 1 2 0 4096 true, .commitExtents 1 1 0 4096] =
      [.ok (.extents [⟨0, 4096, 0, 1, false, false⟩]), .ok (.count 1)] ∧
    replies (extentRowBudget none) "v"
        (runOps (extentRowBudget none) "v" .empty [.registerVolume 100000])
        [.grant 1 2 0 4096 true, .commitExtents 1 1 0 4096] =
      [.ok (.extents [⟨0, 4096, 0, 1, false, false⟩]),
        .error (.commitRejected "no grant for this client")] := by
  decide

end Flint.Extent
