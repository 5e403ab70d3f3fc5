import Flint.Extent.Layouts

/-!
# What fenced clients still owe

A client that was granted a row may write its bytes until it returns the row, is revoked, or is cut
off at the target, which a fence record with `delivered_unix > 0` attests. Until then the bytes must
not reach the free list. The evidence is in the grant rows on a mapped row, and in the list of
clients of a quarantined range; `Tracked` says that it is complete.

`reclaim_complete` breaks this when it cuts into a row (`freed_on_unconfirmed_fence`).
-/

namespace Flint.Extent

open KeyedTable Outcome Decimal Moves List Bool

/-! ### Debts -/

/-- When a `layout_return` gives a row back: when its range meets the row, or covers it. -/
inductive ReturnRule
  | meets | covers

def ReturnRule.GivesBack (rule : ReturnRule) (r : ExtentRow) (start stop : Int) : Prop :=
  match rule with
  | .meets => r.logicalOffset < stop ∧ start < r.logicalOffset + r.length
  | .covers => start ≤ r.logicalOffset ∧ r.logicalOffset + r.length ≤ stop

def Op.Lends (client b : Int) : Op → Reply → Prop
  | .grant _ c _ _ _, .extents exts | .grantRead _ c _ _, .extents exts =>
    client = c.toNat ∧ InReply exts b
  | _, _ => False

def Op.Settles (rule : ReturnRule) (s : Volume) (client b : Int) : Op → Prop
  | .layoutReturn f c o l => client = c.toNat ∧ ∃ r ∈ s.extents, r.fileId = castI64 f ∧
    b ∈ r.physical ∧ rule.GivesBack r o.toNat (o.toNat + l.toNat)
  | .revokeClient c => client = c.toNat
  | _ => False

/-- Some transaction of the run granted the client the byte, and no later one that committed settled
it or allocated the byte anew. -/
def Owes (budget : Budget) (volume : String) (rule : ReturnRule) (client b : Int) :
    List Op → Prop :=
  Since (exec budget volume) (runOps budget volume .empty)
    (fun _ _ op reply => op.Lends client b reply)
    fun s s' op _ => (s'.Mapped b → s.Mapped b) ∧ ¬op.Settles rule s client b

def owesAfter (rule : ReturnRule) (s s' : Volume) (op : Op) (reply : Reply)
    (owes : Int → Int → Prop) (client b : Int) : Prop :=
  op.Lends client b reply ∨ owes client b ∧ (s'.Mapped b → s.Mapped b) ∧ ¬op.Settles rule s client b

variable {budget : Budget} {volume : String} {rule : ReturnRule} {s s' t : Volume}
  {owes : Int → Int → Prop}

def QuarantineRow.WaitsFor (q : QuarantineRow) (client : Int) : Prop :=
  ∀ s, sweepable s q → 0 < deliveredUnix s client

/-- Every debt has its evidence. -/
structure Tracked (owes : Int → Int → Prop) (s : Volume) : Prop where
  mapped : ∀ client b, owes client b → ∀ r ∈ s.extents, b ∈ r.physical →
    ∃ g ∈ s.grants, g.On r ∧ g.clientId = client
  parked : ∀ client b, owes client b → ∀ q ∈ s.quarantine, b ∈ q.span → q.WaitsFor client

theorem Tracked.mono {owes' : Int → Int → Prop} (h : Tracked owes s)
    (hle : ∀ client b, owes' client b → owes client b) : Tracked owes' s where
  mapped client b ho := h.mapped client b (hle client b ho)
  parked client b ho := h.parked client b (hle client b ho)

theorem waitsFor_of_mem {ids : List Int} {client : Int} (hmem : client ∈ ids)
    (hlo : -i64Max - 1 ≤ client) (hhi : client ≤ i64Max) (phys len gen now : Int) :
    (QuarantineRow.mk phys len gen (joinCsv ids) now).WaitsFor client := by
  intro s hsweep
  unfold sweepable allDelivered at hsweep
  rw [and_eq_true, all_eq_true, csvFields_joinCsv (ne_nil_of_mem hmem)] at hsweep
  have hfield := hsweep.1 _ (mem_map_of_mem hmem)
  rw [parseInt_trim_toString hlo hhi] at hfield
  exact of_decide_eq_true hfield

/-! ### Moves that keep the evidence -/

theorem Join.tracked (hs : Sound s) (h : Join s s') (hT : Tracked owes s) : Tracked owes s' := by
  cases h with
  | mk head tail others extents hold hrun hqt hnew =>
    have hmem : ∀ r ∈ head :: tail ++ others, r ∈ s.extents := fun r hr => hold.mem_iff.mpr hr
    refine ⟨fun client b ho r hr hb => ?_, hT.parked⟩
    rcases mem_cons.mp (hnew.mem_iff.mp hr) with rfl | hr
    · obtain ⟨x, hx, hbx⟩ := exists_run_physical hrun
        (fun r hr => hs.positive.extents r (hmem r (mem_append_left _ hr))) hb
      obtain ⟨g, hg, hon, -⟩ := hT.mapped client b ho x (hmem x (mem_append_left _ hx)) hbx
      exact absurd hon (hqt x hx g hg)
    · exact hT.mapped client b ho r (hmem r (mem_append_right _ hr)) hb

theorem Regroup.tracked (hs : Sound s) (h : Regroup s s') (hT : Tracked owes s) :
    Tracked owes s' := by
  induction h with
  | refl => exact hT
  | @tail t u hst hte ih =>
    rcases hte with hj | ⟨n, rfl⟩
    · exact hj.tracked (sound (Regroup.moves hst : Moves (fun _ => False) s t) hs) ih
    · exact ⟨ih.mapped, ih.parked⟩

def WholeRows (s : Volume) (file start stop : Int) : Prop :=
  ∀ r ∈ overlappingExtents s file start stop, (∃ g ∈ s.grants, g.On r) →
    start ≤ r.logicalOffset ∧ r.logicalOffset + r.length ≤ stop

/-- What a loop of cuts keeps: a byte that has become free is owed by confirmed clients only. -/
structure CutsSafely (owes : Int → Int → Prop) (file start stop : Int) (s t : Volume) : Prop where
  tracked : Tracked owes t
  whole : WholeRows t file start stop
  freed : ∀ b, ¬s.Free b → t.Free b → ∀ client, owes client b → 0 < deliveredUnix s client

theorem deliveredUnix_congr (h : t.fenced = s.fenced) (client : Int) :
    deliveredUnix t client = deliveredUnix s client := by
  unfold deliveredUnix
  rw [h]

variable {file start stop : Int}

theorem kept_eq_nil (hwh : WholeRows s file start stop) {r : ExtentRow} (hr : r ∈ s.extents)
    (hfi : r.fileId = file) (hmt : r.logicalOffset < stop ∧ start < r.logicalOffset + r.length)
    (hgr : ∃ g ∈ s.grants, g.On r) {k : ExtentRow} : k ∉ r.kept start stop := by
  intro hk
  obtain ⟨-, -, -, hpos, hlo, hhi, -, hout⟩ := kept_spec hmt hk
  have hin := hwh r (mem_overlappingExtents.mpr ⟨hr, hfi, hmt⟩) hgr
  omega

theorem Cut.safely {u : Volume} (ht : Sound t) (hrng : InRange t) (hfen : t.fenced = s.fenced)
    (h : Cut file start stop t u) (hC : CutsSafely owes file start stop s t)
    : CutsSafely owes file start stop s u := by
  cases h with
  | mk r others extents free quarantine hold hfi hmt hlt hqt hnew hgo =>
    have hr : r ∈ t.extents := hold.mem_iff.mpr (.head _)
    have hoths : ∀ x ∈ others, x ∈ t.extents := fun x hx => hold.mem_iff.mpr (.tail r hx)
    have hne : r ∉ others := (nodup_cons.mp (hold.nodup_iff.mp t.extents.nodup)).1
    -- who owes a byte of the row has a grant on it
    have howed : ∀ client b, owes client b → b ∈ r.physical →
        ∃ g ∈ t.grants, g.On r ∧ g.clientId = client :=
      fun client b ho hb => hC.tracked.mapped client b ho r hr hb
    have hcut : ∀ b, b ∈ (⟨r.cutPhys start stop, (r.cut start stop).length⟩ : Span) →
      b ∈ r.physical := fun b => cut_physical (ht.positive.extents r hr) hmt hlt
    refine ⟨⟨fun client b ho x hx hb => ?_, fun client b ho q hq hb => ?_⟩, fun x hx hg => ?_,
      fun b hnot hfr client ho => ?_⟩
    · rcases mem_append.mp (hnew.mem_iff.mp hx) with hk | hx
      · -- a kept side of a row that somebody owes bytes of: there is none
        obtain ⟨g, hg, hon, -⟩ := howed client b ho (kept_physical hmt hk hb)
        exact absurd hk (kept_eq_nil hC.whole hr hfi hmt ⟨g, hg, hon⟩)
      · obtain ⟨g, hg, hon, hc⟩ := hC.tracked.mapped client b ho x (hoths x hx) hb
        refine ⟨g, mem_delete.mpr ⟨hg, eq_false_iff.mpr fun hp => ?_⟩, hon, hc⟩
        rw [and_eq_true, decide_eq_true_eq, decide_eq_true_eq] at hp
        have heq : x = r := hon.unique ⟨hp.1.trans hfi.symm, hp.2⟩ (hoths x hx) hr
        exact hne (heq ▸ hx)
    · cases hgo with
      | freed => exact hC.tracked.parked client b ho q hq hb
      | parked quarantine now _ hpark =>
        rcases (mem_insert hpark).mp hq with rfl | hq
        · obtain ⟨g, hg, hon, rfl⟩ := howed client b ho (hcut b hb)
          have hids : g.clientId ∈ clientsOn t r :=
            mem_map_of_mem (mem_grantsAt.mpr ⟨hg, hon.1, hon.2⟩)
          have hlo : -i64Max - 1 ≤ (0 : Int) := by decide
          exact waitsFor_of_mem hids (hlo.trans (hrng.grants g hg).1) (hrng.grants g hg).2
            _ _ _ _
        · exact hC.tracked.parked client b ho q hq hb
    · obtain ⟨hx, hxf, hxmeets⟩ := mem_overlappingExtents.mp hx
      rcases mem_append.mp (hnew.mem_iff.mp hx) with hk | hx
      · obtain ⟨-, -, -, -, -, -, -, hout⟩ := kept_spec hmt hk
        omega
      · obtain ⟨g, hg, hon⟩ := hg
        exact hC.whole x (mem_overlappingExtents.mpr ⟨hoths x hx, hxf, hxmeets⟩)
          ⟨g, (mem_delete.mp hg).1, hon⟩
    · cases hgo with
      | freed free hall hco =>
        obtain ⟨f, hf, hbf⟩ := hfr
        rcases hco.backed f hf b hbf with ⟨hbr, -⟩ | ⟨x, hx, hbx, -⟩
        · obtain ⟨g, hg, hon, rfl⟩ := howed client b ho (hcut b hbr)
          rw [← deliveredUnix_congr hfen]
          exact hall g hg hon
        · exact hC.freed b hnot ⟨x, hx, hbx⟩ client ho
      | parked => exact hC.freed b hnot hfr client ho

theorem Cuts.safely (hs : Sound s) (hrng : InRange s)
    (h : Relation.ReflTransGen (Cut file start stop) s t) (hT : Tracked owes s)
    (hwh : WholeRows s file start stop) : CutsSafely owes file start stop s t := by
  induction h with
  | refl => exact ⟨hT, hwh, fun b hnot hfr => absurd hfr hnot⟩
  | @tail t u hcu hcut ih =>
    have hmvs : Moves (fun _ => False) s t := Cuts.moves hcu
    exact hcut.safely (sound hmvs hs) (inRange hs hmvs hrng) (Cuts.frame hcu).2 ih

theorem Sweeps.tracked (h : Relation.ReflTransGen (Sweep s) s t) (hT : Tracked owes s) :
    Tracked owes t ∧ ∀ b, ¬s.Free b → t.Free b → ∀ client, owes client b →
      0 < deliveredUnix s client := by
  induction h with
  | refl => exact ⟨hT, fun b hnot hfr => absurd hfr hnot⟩
  | tail _ hsweep ih =>
    cases hsweep with
    | mk q free hq hrel hco =>
      refine ⟨⟨ih.1.mapped, fun client b ho x hx hb => ?_⟩, fun b hnot hfr client ho => ?_⟩
      · exact ih.1.parked client b ho x (mem_deleteKey.mp hx).1 hb
      · obtain ⟨f, hf, hbf⟩ := hfr
        rcases hco.backed f hf b hbf with ⟨hbq, -⟩ | ⟨x, hx, hbx, -⟩
        · exact ih.1.parked client b ho q hq hbq s hrel
        · exact ih.2 b hnot ⟨x, hx, hbx⟩ client ho

/-! ### Transactions that keep the evidence -/

theorem Tracked.lend (hs' : Sound s') {file client : Int} {exts : List GrantedExtent}
    (hrw : ∀ r ∈ s.extents, r ∈ s'.extents) (hgrs : ∀ g ∈ s.grants, g ∈ s'.grants)
    (hqrt : s'.quarantine = s.quarantine)
    (hlent : ∀ b, InReply exts b → ∃ r, b ∈ r.physical ∧ GrantedTo s' file client r)
    (hT : Tracked owes s) :
    Tracked (fun c b => c = client ∧ InReply exts b ∨ owes c b ∧ (s'.Mapped b → s.Mapped b))
      s' := by
  refine ⟨?_, ?_⟩
  · rintro c b (⟨rfl, hin⟩ | ⟨ho, hold⟩) r hr hb
    · obtain ⟨x, hbx, hx, -, hhol⟩ := hlent b hin
      obtain rfl := hs'.eq_of_physical hr hx hb hbx
      obtain ⟨g, hg, hon, hc, -⟩ := hhol
      exact ⟨g, hg, hon, hc⟩
    · obtain ⟨x, hx, hbx⟩ := hold ⟨r, hr, hb⟩
      obtain rfl := hs'.eq_of_physical hr (hrw x hx) hb hbx
      obtain ⟨g, hg, hon, hc⟩ := hT.mapped c b ho r hx hb
      exact ⟨g, hgrs g hg, hon, hc⟩
  · rintro c b (⟨rfl, hin⟩ | ⟨ho, -⟩) q hq hb
    · -- a byte just granted is mapped, so it is not parked
      obtain ⟨x, hbx, hx, -⟩ := hlent b hin
      exact absurd ⟨q, hq, hb⟩ (hs'.not_free_of_mapped ⟨x, hx, hbx⟩).2
    · exact hT.parked c b ho q (hqrt ▸ hq) hb

theorem GrantSpec.keeps (hs : Sound s) {f c : UInt64} {start stop : Int} {rows new : List ExtentRow}
    (h : GrantSpec s f c start stop s' rows new) :
    (∀ r ∈ s.extents, r ∈ s'.extents) ∧ (∀ g ∈ s.grants, g ∈ s'.grants) ∧
      s'.quarantine = s.quarantine := by
  obtain ⟨t, hpl, rfl⟩ := h.result
  have hgrs : t.grants = s.grants := by rw [hpl.frame]
  have hqrt : t.quarantine = s.quarantine := by rw [hpl.frame]
  refine ⟨fun r hr => (hpl.mem_extents hs).mpr (.inr hr), fun g hg => ?_, hqrt⟩
  exact mem_grantRows_of_mem (s := t.addExtentRows new.length) (hgrs ▸ hg)

theorem Place.free_of_free {e : ExtentRow} (h : Place e s s') {b : Int} (hb : s'.Free b) :
    s.Free b := by
  cases h with
  | mk t _ _ _ _ _ _ htk =>
    obtain ⟨f, hf, hbf⟩ := hb
    generalize e.physicalOffset = phys at htk
    generalize e.gen = gen at htk
    cases htk with
    | reuse x free hx _ _ hbkd _ =>
      obtain ⟨y, hy, hby, -⟩ := hbkd f hf b hbf
      exact ⟨y, hy, hby⟩
    | bump => exact ⟨f, hf, hbf⟩

theorem Placed.free_of_free {es : List ExtentRow} (h : Placed s es t) {b : Int} (hb : t.Free b) :
    s.Free b := by
  induction h with
  | nil => exact hb
  | snoc _ he ih => exact ih (he.free_of_free hb)

theorem returnGrants_tracked {f c : UInt64} {start stop : Int}
    (hcar : ∀ r ∈ overlappingExtents s (castI64 f) start stop,
      (∃ g ∈ s.grants, g.On r ∧ g.clientId = c.toNat) → rule.GivesBack r start stop)
    (hT : Tracked owes s) :
    Tracked (fun client b => owes client b ∧ ¬(client = c.toNat ∧ ∃ r ∈ s.extents,
        r.fileId = castI64 f ∧ b ∈ r.physical ∧ rule.GivesBack r start stop))
      (returnGrants s (castI64 f) c.toNat start stop) := by
  refine ⟨?_, fun client b ho q hq hb => hT.parked client b ho.1 q hq hb⟩
  rintro client b ⟨ho, hnot⟩ r hr hb
  obtain ⟨g, hg, hon, hc⟩ := hT.mapped client b ho r hr hb
  refine ⟨g, mem_delete.mpr ⟨hg, eq_false_iff.mpr fun hret => hnot ?_⟩, hon, hc⟩
  unfold returnedGrant at hret
  simp only [and_eq_true, decide_eq_true_eq, any_eq_true] at hret
  obtain ⟨⟨hf, hcl⟩, x, hx, hxo⟩ := hret
  obtain ⟨hxmem, hxf, -⟩ := mem_overlappingExtents.mp hx
  obtain rfl := GrantRow.On.unique ⟨hf.trans hxf.symm, hxo.symm⟩ hon hxmem hr
  exact ⟨hc.symm.trans hcl, x, hr, hxf, hb, hcar x hx ⟨g, hg, hon, hcl⟩⟩

/-- A reclaim takes the rows with grants whole, and a return covers what it gives back where it
must. The transactions on an operator's word are not among them. -/
def Op.Careful (rule : ReturnRule) (s : Volume) : Op → Prop
  | .reclaimComplete f o l _ => WholeRows s (castI64 f) o.toNat (o.toNat + l.toNat)
  | .layoutReturn f c o l => ∀ r ∈ overlappingExtents s (castI64 f) o.toNat (o.toNat + l.toNat),
    (∃ g ∈ s.grants, g.On r ∧ g.clientId = c.toNat) → rule.GivesBack r o.toNat (o.toNat + l.toNat)
  | .releaseQuarantine | .dropVolume => False
  | _ => True

def FreesNothing (s s' : Volume) : Prop := ∀ b, s'.Free b → s.Free b

theorem FreesNothing.of_eq (h : s'.free = s.free) : FreesNothing s s' := by
  rintro b ⟨f, hf, hb⟩
  exact ⟨f, h ▸ hf, hb⟩

/-- What a careful transaction keeps: the evidence, and a byte that it frees is owed by confirmed
clients only. -/
structure KeepsEvidence (rule : ReturnRule) (owes : Int → Int → Prop) (s s' : Volume) (op : Op)
    (reply : Reply) : Prop where
  tracked : Tracked (owesAfter rule s s' op reply owes) s'
  freed : ∀ b, ¬s.Free b → s'.Free b → ∀ client, owes client b → 0 < deliveredUnix s' client

theorem KeepsEvidence.of_quiet {op : Op} {reply : Reply} (hlends : ∀ c b, ¬op.Lends c b reply)
    (hfr : FreesNothing s s') (hT : Tracked (fun c b => owes c b ∧ ¬op.Settles rule s c b) s') :
    KeepsEvidence rule owes s s' op reply where
  tracked := hT.mono fun c b h => (h.resolve_left (hlends c b)).imp_right And.right
  freed b hnot hf := absurd (hfr b hf) hnot

theorem exec_keepsEvidence (hs : Lawful s) (hT : Tracked owes s) {op : Op} {reply : Reply}
    (hop : op.Careful rule s) (h : exec budget volume s op = .ok (s', reply)) :
    KeepsEvidence rule owes s s' op reply := by
  have hs' := exec_lawful hs h
  have hless : Tracked (fun c b => owes c b ∧ ¬op.Settles rule s c b) s :=
    hT.mono fun _ _ => And.left
  cases exec_executed hs.sound h with
  | @granted f c o l fresh _ _ _ _ _ _ _ hsp =>
    have hgets : (Op.grant f c o l fresh).GetsLayout f c := ⟨rfl, rfl⟩
    obtain ⟨hrw, hgrs, hqrt⟩ := hsp.keeps hs.sound
    refine ⟨(hT.lend hs'.sound hrw hgrs hqrt fun b hb =>
      inReply_grantedTo hs hgets h hb).mono ?_, fun b hnot hfr => absurd ?_ hnot⟩
    · rintro client b (hlends | ⟨ho, hold, -⟩)
      · exact .inl hlends
      · exact .inr ⟨ho, hold⟩
    · obtain ⟨t, hpl, rfl⟩ := hsp.result
      exact hpl.free_of_free hfr
  | @grantedRead f c o l _ _ _ _ rows hsp =>
    have hgets : (Op.grantRead f c o l).GetsLayout f c := ⟨rfl, rfl⟩
    obtain rfl := hsp.result
    have hgrs : ∀ g ∈ s.grants, g ∈ (grantRows s c.toNat .read rows).grants :=
      fun _ => mem_grantRows_of_mem
    refine ⟨(Tracked.lend (s := s) hs'.sound (fun _ => id) hgrs rfl
      (fun b hb => inReply_grantedTo hs hgets h hb) hT).mono ?_,
      fun b hnot hfr => absurd hfr hnot⟩
    rintro client b (hlends | ⟨ho, hold, -⟩)
    · exact .inl hlends
    · exact .inr ⟨ho, hold⟩
  | @returned f c _ _ _ _ start stop har hsp =>
    have hret : Sound (returnGrants s (castI64 f) c.toNat start stop) :=
      sound (returnGrants_moves fun _ _ _ => id : Moves (fun _ => False) s _) hs.sound
    refine .of_quiet (fun _ _ => id) (.of_eq (by rw [hsp.regroup.frame]; rfl))
      (hsp.regroup.tracked hret ?_)
    rw [har.start_eq, har.stop_eq]
    exact returnGrants_tracked hop hT
  | committed hsp =>
    have hgrs : s'.grants = s.grants := by rw [hsp.frame]
    have hqrt : s'.quarantine = s.quarantine := by rw [hsp.frame]
    refine .of_quiet (fun _ _ => id) (.of_eq (by rw [hsp.frame])) ⟨fun c b ho r hr hb => ?_,
      fun c b ho q hq => hless.parked c b ho q (hqrt ▸ hq)⟩
    rw [hgrs]
    obtain ⟨x, hx, rfl | ⟨-, -, rfl⟩⟩ := hsp.origin r hr
    · exact hless.mapped c b ho r hx hb
    · exact hless.mapped c b ho x hx hb
  | @reclaimed f _ _ _ _ _ start stop har hsp =>
    obtain ⟨t, n, hcu, rfl⟩ := hsp.result
    have hwh : WholeRows s (castI64 f) start stop := by
      rw [har.start_eq, har.stop_eq]
      exact hop
    have hC := Cuts.safely hs.sound hs.inRange hcu hT hwh
    have hfen : (t.addExtentRows n).fenced = s.fenced := (Cuts.frame hcu).2
    refine ⟨?_, fun b hnot hfr client ho => ?_⟩
    · have hT' : Tracked owes (t.addExtentRows n) := ⟨hC.tracked.mapped, hC.tracked.parked⟩
      exact hT'.mono fun _ _ ho => (ho.resolve_left id).1
    · rw [deliveredUnix_congr hfen]
      exact hC.freed b hnot hfr client ho
  | swept hsws =>
    obtain ⟨hT', hfreed⟩ := Sweeps.tracked hsws hT
    have hfen : s'.fenced = s.fenced := by rw [(Sweeps.unparks hsws).frame]
    refine ⟨hT'.mono fun _ _ ho => (ho.resolve_left id).1, fun b hnot hfr client ho => ?_⟩
    rw [deliveredUnix_congr hfen]
    exact hfreed b hnot hfr client ho
  | @fenced c =>
    refine .of_quiet (fun _ _ => id) (.of_eq rfl) ⟨fun client b ho r hr hb => ?_, hless.parked⟩
    -- the grant may be fenced now, but it is there
    obtain ⟨g, hg, hon, hc⟩ := hless.mapped client b ho r hr hb
    have hmem := mem_fenceGrants (p := fun g => g.clientId = c.toNat && !g.fenced) hg
    split at hmem
    · exact ⟨_, hmem, hon, hc⟩
    · exact ⟨g, hmem, hon, hc⟩
  | @revoked c _ _ hsp =>
    have hdr : Sound (dropGrantsOf s c.toNat) :=
      (Move.release fun _ _ _ => id : Move (fun _ => False) s _).sound hs.sound
    refine .of_quiet (fun _ _ => id) (.of_eq (by rw [hsp.regroup.frame]; rfl))
      (hsp.regroup.tracked hdr
      ⟨fun client b ho r hr hb => ?_, hless.parked⟩)
    obtain ⟨g, hg, hon, hc⟩ := hless.mapped client b ho r hr hb
    refine ⟨g, mem_delete.mpr ⟨hg, decide_eq_false fun heq => ho.2 ?_⟩, hon, hc⟩
    exact hc.symm.trans heq
  | registerKept | expandKept | registered | expanded =>
    exact .of_quiet (fun _ _ => id) (.of_eq rfl) ⟨hless.mapped, hless.parked⟩
  | recorded hrec =>
    refine .of_quiet (fun _ _ hlends => ?_) (.of_eq rfl) ⟨hless.mapped, hless.parked⟩
    cases op <;> first | exact hlends | exact hrec
  | unparked | dropped => exact absurd hop id

/-! ### Runs -/

def Allows (budget : Budget) (volume : String) (rule : ReturnRule) (s : Volume) (op : Op) : Prop :=
  ∀ s' reply, exec budget volume s op = .ok (s', reply) → op.Careful rule s

theorem tracked_run {ops : List Op}
    (h : Steps (step budget volume) (Allows budget volume rule) .empty ops) :
    Tracked (fun client b => Owes budget volume rule client b ops)
      (runOps budget volume .empty ops) := by
  induction ops using reverseRecOn with
  | nil =>
    exact ⟨fun _ _ ho => absurd ho not_since_nil,
      fun _ _ ho => absurd ho not_since_nil⟩
  | append_singleton ops op ih =>
    obtain ⟨hops, hop, -⟩ := steps_append.mp h
    have hlaw := reachable_lawful budget volume ops
    rw [runOps_append]
    change Tracked _ (step budget volume (runOps budget volume .empty ops) op)
    cases hxc : exec budget volume (runOps budget volume .empty ops) op with
    | error e =>
      rw [step_of_error hxc]
      exact (ih hops).mono fun _ _ => Since.of_error hxc
    | ok result =>
      rw [step_of_ok hxc]
      exact (exec_keepsEvidence hlaw (ih hops) (hop _ _ hxc) hxc).tracked.mono
        fun _ _ => Since.of_ok hxc

/-- **No free on an unconfirmed fence.** Whenever a byte enters the free list, every client that
still owes it has a confirmed fence. -/
theorem no_free_on_unconfirmed_fence (budget : Budget) (volume : String) (rule : ReturnRule)
    (ops : List Op) (op : Op)
    (hcar : Steps (step budget volume) (Allows budget volume rule) .empty (ops ++ [op])) (b : Int)
    (hbef : ¬(runOps budget volume .empty ops).Free b)
    (haft : (runOps budget volume .empty (ops ++ [op])).Free b) (client : Int)
    (howes : Owes budget volume rule client b ops) :
    0 < deliveredUnix (runOps budget volume .empty (ops ++ [op])) client := by
  obtain ⟨hops, hop, -⟩ := steps_append.mp hcar
  rw [runOps_append] at haft ⊢
  refine step_invariant (P := fun s => s.Free b → 0 < deliveredUnix s client)
    (fun hfr => absurd hfr hbef) (fun s' reply h hfr => ?_) haft
  have hlaw := reachable_lawful budget volume ops
  exact (exec_keepsEvidence hlaw (tracked_run hops) (hop _ _ h) h).freed b hbef hfr client howes

theorem owes_two_blocks : Owes (extentRowBudget none) "v" rule 1 0
    ([.registerVolume 100000] ++ [.grant 1 1 0 8192 true]) := by
  have hxc : exec (extentRowBudget none) "v"
      (runOps (extentRowBudget none) "v" .empty [.registerVolume 100000])
      (.grant 1 1 0 8192 true) = .ok (_, .extents [⟨0, 8192, 0, 1, false, false⟩]) :=
    exec_of_reply (by decide)
  exact .gained hxc ⟨rfl, _, .head _, by decide⟩

/-- A client that is fenced, with the fence confirmed, and whose row is reclaimed whole. -/
theorem freed_on_confirmed_fence : 0 < deliveredUnix (runOps (extentRowBudget none) "v" .empty
    ([.registerVolume 100000] ++ [.grant 1 1 0 8192 true] ++ [.fenceRecord 1 7] ++
      [.fenceClient 1] ++ [.markFenceDelivered 1 8] ++ [.reclaimComplete 1 0 8192 9])) 1 := by
  refine no_free_on_unconfirmed_fence _ _ .covers _ _ ?_ 0 (by decide) (by decide) 1 ?_
  · refine ⟨fun _ _ _ => trivial, fun _ _ _ => trivial, fun _ _ _ => trivial,
      fun _ _ _ => trivial, fun _ _ _ => trivial, fun _ _ _ r hr _ => ?_, trivial⟩
    have hinside : ∀ r ∈ overlappingExtents (runOps (extentRowBudget none) "v" .empty
        [.registerVolume 100000, .grant 1 1 0 8192 true, .fenceRecord 1 7, .fenceClient 1,
          .markFenceDelivered 1 8]) 1 0 8192,
        0 ≤ r.logicalOffset ∧ r.logicalOffset + r.length ≤ 8192 := by decide
    exact hinside r hr
  · exact .kept (.kept (.kept owes_two_blocks fun _ _ _ => ⟨fun _ => by decide, id⟩)
      fun _ _ _ => ⟨fun _ => by decide, id⟩) fun _ _ _ => ⟨fun _ => by decide, id⟩

def halfReclaimed : List Op :=
  [.registerVolume 100000] ++ [.grant 1 1 0 8192 true] ++ [.fenceClient 1] ++
    [.reclaimComplete 1 4096 4096 5]

/-- The cut drops the grant of the whole row, so a second reclaim frees the first block, while the
fence of the client that owes it was never delivered. -/
theorem freed_on_unconfirmed_fence :
    let after := runOps (extentRowBudget none) "v" .empty
      (halfReclaimed ++ [.reclaimComplete 1 0 4096 6])
    ¬(runOps (extentRowBudget none) "v" .empty halfReclaimed).Free 0 ∧ after.Free 0 ∧
      Owes (extentRowBudget none) "v" .meets 1 0 halfReclaimed ∧ deliveredUnix after 1 = 0 := by
  dsimp only
  refine ⟨by decide, by decide, ?_, by decide⟩
  -- the grant lends byte 0, and it stays mapped through the fence and the first reclaim
  exact .kept (.kept owes_two_blocks fun _ _ _ => ⟨fun _ => by decide, id⟩)
    fun _ _ _ => ⟨fun _ => by decide, id⟩

end Flint.Extent
