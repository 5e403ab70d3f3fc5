import Flint.Extent.Debts

/-!
# Who may commit a row

`commit_extents` promotes a provisional row when the client has a live grant on it, or when the
generation records that its returns left inside the row all carry the row's generation (`Rights`).
A record can outlive its row in a `reclaim_complete` and wait for the next one mapped there, and a
merge can make it stand for the bytes of other clients (`commit_without_grant`).
-/

namespace Flint.Extent

open KeyedTable Outcome ExtentRow List

def Op.Grants (client b : Int) : Op → Reply → Prop
  | .grant _ c _ _ _, .extents exts => client = c.toNat ∧ InReply exts b
  | _, _ => False

def GrantedSince (budget : Budget) (volume : String) (client b : Int) : List Op → Prop :=
  Since (exec budget volume) (runOps budget volume .empty)
    (fun _ _ op reply => op.Grants client b reply) fun s s' _ _ => s'.Mapped b → s.Mapped b

def grantedAfter (s s' : Volume) (op : Op) (reply : Reply) (granted : Int → Int → Prop)
    (client b : Int) : Prop :=
  op.Grants client b reply ∨ granted client b ∧ (s'.Mapped b → s.Mapped b)

/-! ### The evidence -/

def GraceRow.In (q : GraceRow) (r : ExtentRow) : Prop :=
  q.fileId = r.fileId ∧ q.logicalOffset ∈ r.logical

instance (q : GraceRow) (r : ExtentRow) : Decidable (q.In r) := inferInstanceAs (Decidable (_ ∧ _))

structure Rights (granted : Int → Int → Prop) (s : Volume) : Prop where
  held : ∀ r ∈ s.extents, r.state = .invalid → ∀ g ∈ s.grants, g.On r → g.fenced = false →
    ∀ b ∈ r.physical, granted g.clientId b
  recorded : ∀ r ∈ s.extents, r.state = .invalid → ∀ q ∈ s.grace, q.In r → q.gen = r.gen →
    ∀ b ∈ r.physical, granted q.clientId b

variable {budget : Budget} {volume : String} {s s' t : Volume} {granted : Int → Int → Prop}

theorem Rights.mono {granted' : Int → Int → Prop} (h : Rights granted s)
    (hle : ∀ client b, s.Mapped b → granted client b → granted' client b) : Rights granted' s where
  held r hr hinv g hg hon hlv b hb :=
    hle _ b ⟨r, hr, hb⟩ (h.held r hr hinv g hg hon hlv b hb)
  recorded r hr hinv q hq hin hgen b hb :=
    hle _ b ⟨r, hr, hb⟩ (h.recorded r hr hinv q hq hin hgen b hb)

theorem Rights.of_subset (h : Rights granted s)
    (hro : ∀ r ∈ s'.extents, r.state = .invalid → r ∈ s.extents)
    (hgrs : ∀ g ∈ s'.grants, g.fenced = false → g ∈ s.grants)
    (hgra : ∀ q ∈ s'.grace, q ∈ s.grace) : Rights granted s' where
  held r hr hinv g hg hon hlv := h.held r (hro r hr hinv) hinv g (hgrs g hg hlv) hon hlv
  recorded r hr hinv q hq := h.recorded r (hro r hr hinv) hinv q (hgra q hq)

theorem Rights.of_eq (h : Rights granted s) (hro : s'.extents = s.extents)
    (hgrs : s'.grants = s.grants) (hgra : s'.grace = s.grace) : Rights granted s' :=
  h.of_subset (fun _ hr _ => hro ▸ hr) (fun _ hg _ => hgrs ▸ hg) fun _ hq => hgra ▸ hq

variable {file client : Int}

/-- **What a commit's check finds**: a live grant on the row, or a record inside it. -/
theorem checkCommit_ok {r : ExtentRow} (hfi : r.fileId = file)
    (h : checkCommit s file client r = .ok ()) :
    (∃ g ∈ s.grants, g.On r ∧ g.clientId = client ∧ g.fenced = false) ∨
      ∃ q ∈ s.grace, q.In r ∧ q.clientId = client ∧ q.gen = r.gen := by
  unfold checkCommit at h
  obtain ⟨found, hfnd, h⟩ := bind_ok.mp h
  cases found with
  | none => cases h
  | some gen =>
    obtain rfl : gen = r.gen := not_not.mp (refuse_ok.mp h)
    unfold genHeld at hfnd
    split at hfnd
    · next g hg =>
      -- the live door
      obtain ⟨hg, hkey⟩ := lookup_eq_some.mp hg
      simp only [GrantRow.key, EmbeddingLike.apply_eq_iff_eq, Prod.mk.injEq] at hkey
      split at hfnd
      · cases hfnd
      · next hlv =>
        exact .inl ⟨g, hg, ⟨hkey.1.trans hfi.symm, hkey.2.1⟩, hkey.2.2, by simpa using hlv⟩
    · -- the door of the records: the least of their generations is the row's
      dsimp only at hfnd
      split at hfnd
      · next a b hmin hmax =>
        have hso := Except.ok.inj hfnd
        split at hso
        · cases hso
          obtain ⟨q, hq, hgen⟩ := mem_map.mp (min?_mem hmin)
          simp only [mem_select, Bool.and_eq_true, decide_eq_true_eq] at hq
          obtain ⟨hq, ⟨⟨hqf, hqc⟩, hlo⟩, hhi⟩ := hq
          exact .inr ⟨q, hq, ⟨hqf.trans hfi.symm, hlo, hhi⟩, hqc, hgen⟩
        · cases hso
      · exact absurd (Except.ok.inj hfnd) (by simp)

variable {start stop : Int}

theorem Cut.rights (hs : Sound s) (h : Cut file start stop s s') (hR : Rights granted s) :
    Rights granted s' := by
  cases h with
  | mk r others extents free quarantine hold hfi hmt hlt hqt hnew hgo =>
    have hr : r ∈ s.extents := hold.mem_iff.mpr (.head _)
    have hoths : ∀ x ∈ others, x ∈ s.extents := fun x hx => hold.mem_iff.mpr (.tail r hx)
    have hkp : ∀ k ∈ r.kept start stop, k.fileId = r.fileId ∧ k.gen = r.gen ∧
        k.state = r.state ∧ (∀ b ∈ k.logical, b ∈ r.logical) ∧ k.logicalOffset ∈ r.logical := by
      intro k hk
      obtain ⟨hkf, hkg, hks, hpos, hlo, hhi, -⟩ := kept_spec hmt hk
      refine ⟨hkf, hkg, hks, fun b hb => ?_, ?_⟩
      · rw [mem_logical] at hb ⊢
        omega
      · rw [mem_logical]
        omega
    refine ⟨fun x hx hinv g hg hon hlv b hb => ?_, fun x hx hinv q hq hin hgen b hb => ?_⟩
    · have hg := (mem_delete.mp hg).1
      rcases mem_append.mp (hnew.mem_iff.mp hx) with hk | hx
      · -- a grant at a kept side would be a grant on the row, and those are fenced
        obtain ⟨hkf, -, -, -, hklo⟩ := hkp x hk
        obtain ⟨y, hy, hony, -⟩ := hs.granted g hg
        have hyr : y = r := by
          refine hs.eq_of_logical hy hr (hony.1.symm.trans (hon.1.trans hkf))
            (b := x.logicalOffset) ?_ hklo
          have hpos := hs.positive.extents y hy
          have hlo : y.logicalOffset = x.logicalOffset := hony.2.symm.trans hon.2
          rw [mem_logical]
          omega
        have hfcd := hqt g hg (hyr ▸ hony)
        rw [hlv] at hfcd
        cases hfcd
      · exact hR.held x (hoths x hx) hinv g hg hon hlv b hb
    · have hq := (mem_delete.mp hq).1
      rcases mem_append.mp (hnew.mem_iff.mp hx) with hk | hx
      · obtain ⟨hkf, hkg, hks, hlog, -⟩ := hkp x hk
        exact hR.recorded r hr (hks.symm.trans hinv) q hq ⟨hin.1.trans hkf, hlog _ hin.2⟩
          (hgen.trans hkg) b (kept_physical hmt hk hb)
      · exact hR.recorded x (hoths x hx) hinv q hq hin hgen b hb

theorem Cuts.rights (hs : Sound s) (h : Relation.ReflTransGen (Cut file start stop) s t)
    (hR : Rights granted s) : Rights granted t := by
  induction h with
  | refl => exact hR
  | @tail t u hcu hcut ih =>
    exact hcut.rights (Moves.sound (Cuts.moves hcu : Moves (fun _ => False) s t) hs) ih

/-! ### Joining -/

def PartsOf (s s' : Volume) : Prop :=
  ∀ r' ∈ s'.extents, ∀ b ∈ r'.physical, ∃ r ∈ s.extents, b ∈ r.physical ∧ r.state = r'.state ∧
    r.fileId = r'.fileId ∧ r'.logicalOffset ≤ r.logicalOffset ∧
    r.logicalOffset + r.length ≤ r'.logicalOffset + r'.length

theorem PartsOf.refl (s : Volume) : PartsOf s s :=
  fun r hr _ hb => ⟨r, hr, hb, rfl, rfl, le_refl _, le_refl _⟩

theorem PartsOf.trans {u : Volume} (h₁ : PartsOf s t) (h₂ : PartsOf t u) : PartsOf s u := by
  intro r'' hr'' b hb
  obtain ⟨r', hr', hb', hstt', hfi', hlo', hhi'⟩ := h₂ r'' hr'' b hb
  obtain ⟨r, hr, hbr, hstt, hfi, hlo, hhi⟩ := h₁ r' hr' b hb'
  exact ⟨r, hr, hbr, hstt.trans hstt', hfi.trans hfi', hlo'.trans hlo, hhi.trans hhi'⟩

theorem Join.partsOf (hs : Sound s) (h : Join s s') : PartsOf s s' := by
  cases h with
  | mk head tail others extents hold hrun hqt hnew =>
    have hmem : ∀ r ∈ head :: tail ++ others, r ∈ s.extents := fun r hr => hold.mem_iff.mpr hr
    have hpos : ∀ r ∈ head :: tail, 0 < r.length := fun r hr =>
      hs.positive.extents r (hmem r (mem_append_left _ hr))
    intro r' hr' b hb
    rcases mem_cons.mp (hnew.mem_iff.mp hr') with rfl | hr'
    · obtain ⟨x, hx, hbx⟩ := exists_run_physical hrun hpos hb
      obtain ⟨hfi, hstt⟩ := run_agrees hrun x hx
      obtain ⟨hlo, hhi, -⟩ := length_le_joinedRow hrun hpos hx
      exact ⟨x, hmem x (mem_append_left _ hx), hbx, hstt, hfi, hlo, hhi⟩
    · exact PartsOf.refl s r' (hmem r' (mem_append_right _ hr')) b hb

theorem Regroup.partsOf (hs : Sound s) (h : Regroup s s') : PartsOf s s' := by
  induction h with
  | refl => exact .refl s
  | @tail t u hst hte ih =>
    rcases hte with hj | ⟨n, rfl⟩
    · exact ih.trans (hj.partsOf (Moves.sound (Regroup.moves hst : Moves (fun _ => False) s t) hs))
    · exact ih

theorem Regroup.granted_row (h : Regroup s s') {r : ExtentRow} (hr : r ∈ s'.extents)
    {g : GrantRow} (hg : g ∈ s'.grants) (hon : g.On r) : r ∈ s.extents ∧ g ∈ s.grants := by
  induction h with
  | refl => exact ⟨hr, hg⟩
  | tail hst hte ih =>
    rcases hte with hj | ⟨n, rfl⟩
    · cases hj with
      | mk head tail others extents hold hrun hqt hnew =>
        refine ih ?_ hg
        rcases mem_cons.mp (hnew.mem_iff.mp hr) with rfl | hr
        · -- the joined row starts where its first part did
          exact absurd hon (hqt head (.head _) g hg)
        · exact hold.mem_iff.mpr (mem_append_right _ hr)
    · exact ih hr hg

/-- A client with a record in a provisional row at the row's generation has one in each row that the
row was joined from. -/
def JoinsLike (s s' : Volume) : Prop :=
  ∀ r' ∈ s'.extents, r'.state = .invalid → ∀ q ∈ s'.grace, q.In r' → q.gen = r'.gen →
    ∀ r ∈ s.extents, r.fileId = r'.fileId → r'.logicalOffset ≤ r.logicalOffset →
      r.logicalOffset + r.length ≤ r'.logicalOffset + r'.length →
      ∃ q' ∈ s'.grace, q'.clientId = q.clientId ∧ q'.In r ∧ q'.gen = r.gen

instance (s s' : Volume) : Decidable (JoinsLike s s') := by
  unfold JoinsLike
  infer_instance

theorem Regroup.rights (hs : Sound s) (h : Regroup s s') (hlike : JoinsLike s s')
    (hR : Rights granted s) : Rights granted s' := by
  refine ⟨fun r hr hinv g hg hon hlv b hb => ?_, fun r' hr' hinv q hq hin hgen b hb => ?_⟩
  · obtain ⟨hr, hg⟩ := h.granted_row hr hg hon
    exact hR.held r hr hinv g hg hon hlv b hb
  · obtain ⟨r, hr, hbr, hstt, hfi, hlo, hhi⟩ := h.partsOf hs r' hr' b hb
    obtain ⟨q', hq', hcl, hin', hgen'⟩ := hlike r' hr' hinv q hq hin hgen r hr hfi hlo hhi
    have hgra : s'.grace = s.grace := by rw [h.frame]
    rw [← hcl]
    exact hR.recorded r hr (hstt.trans hinv) q' (hgra ▸ hq') hin' hgen' b hbr

/-! ### Transactions -/

theorem returnGrants_rights (hs : Sound s) (hR : Rights granted s) :
    Rights granted (returnGrants s file client start stop) := by
  refine ⟨fun r hr hinv g hg => hR.held r hr hinv g (mem_delete.mp hg).1,
    fun r hr hinv q hq hin hgen b hb => ?_⟩
  rcases mem_returnGrants_grace hq with hq | ⟨g, hg, -, hlv, rfl⟩
  · exact hR.recorded r hr hinv q hq hin hgen b hb
  · obtain ⟨x, hx, hon, -⟩ := hs.granted g hg
    have hpos := hs.positive.extents x hx
    have hxr : x = r := by
      refine hs.eq_of_logical hx hr (hon.1.symm.trans hin.1) (b := g.logicalOffset) ?_ hin.2
      have hlo := hon.2
      rw [mem_logical]
      omega
    exact hR.held r hr hinv g hg (hxr ▸ hon) hlv b hb

/-- A record that a new row meets is the client's own. -/
def MeetsOwn (client : Int) (s s' : Volume) : Prop :=
  ∀ r ∈ s'.extents, r ∉ s.extents → ∀ q ∈ s'.grace, q.In r → q.gen = r.gen → q.clientId = client

instance (client : Int) (s s' : Volume) : Decidable (MeetsOwn client s s') := by
  unfold MeetsOwn
  infer_instance

variable {f c : UInt64}

theorem GrantSpec.rights {o l : UInt64} {fresh : Bool} {rows new : List ExtentRow}
    {reused : List Int} (hs : Lawful s) (hs' : Lawful s')
    (h : GrantSpec s f c start stop s' rows new) (hown : MeetsOwn c.toNat s s')
    (hR : Rights granted s) :
    Rights (grantedAfter s s' (.grant f c o l fresh)
      (.extents (rows.map fun e => e.granted reused)) granted) s' := by
  obtain ⟨t, hpl, hres⟩ := h.result
  have hro : ∀ r ∈ s.extents, r ∈ s'.extents := (h.keeps hs.sound).1
  have hgra : s'.grace = s.grace := by
    rw [hres]
    change t.grace = s.grace
    rw [hpl.frame]
  have hreply : ∀ r ∈ rows, r ∈ s'.extents → ∀ b ∈ r.physical,
      InReply (rows.map fun e => e.granted reused) b := fun r hx hr b =>
    Describes.inReply ⟨rfl, rfl, rfl, rfl⟩ hs' hr (mem_map.mpr ⟨r, hx, rfl⟩)
  refine ⟨fun r hr hinv g hg hon hlv b hb => ?_, fun r hr hinv q hq hin hgen b hb => ?_⟩
  · rcases mem_grantRows (s := t.addExtentRows new.length) (hres ▸ hg) with hold | ⟨x, hx, rfl⟩
    · have hold : g ∈ s.grants := by
        change g ∈ t.grants at hold
        rw [hpl.frame] at hold
        exact hold
      -- an old grant is on an old row
      obtain ⟨y, hy, hony, -⟩ := hs.sound.granted g hold
      obtain rfl := hon.unique hony hr (hro y hy)
      exact .inr ⟨hR.held r hy hinv g hold hon hlv b hb, fun _ => ⟨r, hy, hb⟩⟩
    · have hx' := (h.grantedTo hs.sound hx).1
      obtain rfl := hon.unique ⟨rfl, rfl⟩ hr hx'
      exact .inl ⟨rfl, hreply r hx hr b hb⟩
  · by_cases hold : r ∈ s.extents
    · exact .inr ⟨hR.recorded r hold hinv q (hgra ▸ hq) hin hgen b hb, fun _ => ⟨r, hold, hb⟩⟩
    · have hnew : r ∈ new := by
        have hr' := hr
        rw [hres] at hr'
        exact (mem_append.mp ((hpl.extents_perm hs.sound).mem_iff.mp hr')).resolve_right hold
      have hx := h.rows_perm.mem_iff.mpr (mem_append_right _ hnew)
      exact .inl ⟨hown r hr hold q hq hin hgen, hreply r hx hr b hb⟩

theorem GrantReadSpec.rights {rows : List ExtentRow} (h : GrantReadSpec s f c start stop s' rows)
    (hR : Rights granted s) : Rights granted s' := by
  obtain rfl := h.result
  refine ⟨fun r hr hinv g hg hon hlv b hb => ?_, hR.recorded⟩
  rcases mem_grantRows hg with hold | ⟨x, hx, rfl⟩
  · exact hR.held r hr hinv g hold hon hlv b hb
  · rw [h.rows_eq] at hx
    obtain ⟨hx, hrw⟩ := mem_filter.mp hx
    obtain rfl := hon.unique ⟨rfl, rfl⟩ hr (mem_overlappingExtents.mp hx).1
    rw [hinv] at hrw
    exact absurd hrw (by decide)

def Op.KeepsRights (s s' : Volume) : Op → Prop
  | .grant _ c _ _ _ => MeetsOwn c.toNat s s'
  | .layoutReturn .. | .revokeClient _ => JoinsLike s s'
  | _ => True

theorem exec_rights (hs : Lawful s) (hR : Rights granted s) {op : Op} {reply : Reply}
    (h : exec budget volume s op = .ok (s', reply)) (hop : op.KeepsRights s s') :
    Rights (grantedAfter s s' op reply granted) s' := by
  have hs' := exec_lawful hs h
  have hold : Rights (grantedAfter s s' op reply granted) s :=
    hR.mono fun _ _ hm hg => .inr ⟨hg, fun _ => hm⟩
  cases exec_executed hs.sound h with
  | granted _ hsp => exact hsp.rights hs hs' hop hR
  | grantedRead hsp => exact hsp.rights hold
  | @returned f c _ _ _ _ start stop _ hsp =>
    have hret : Sound (returnGrants s (castI64 f) c.toNat start stop) :=
      Moves.sound (returnGrants_moves fun _ _ _ => id : Moves (fun _ => False) s _) hs.sound
    exact hsp.regroup.rights hret hop (returnGrants_rights hs.sound hold)
  | @revoked c _ _ hsp =>
    have hdr : Sound (dropGrantsOf s c.toNat) :=
      (Move.release fun _ _ _ => id : Move (fun _ => False) s _).sound hs.sound
    refine hsp.regroup.rights hdr hop (hold.of_subset (fun _ hr _ => hr) (fun g hg _ => ?_)
      fun _ => id)
    exact (mem_delete.mp hg).1
  | committed hsp =>
    have hgrs : s'.grants = s.grants := by rw [hsp.frame]
    have hgra : s'.grace = s.grace := by rw [hsp.frame]
    refine hold.of_subset (fun r hr hinv => ?_) (fun g hg _ => hgrs ▸ hg) fun q hq => hgra ▸ hq
    obtain ⟨x, hx, rfl | ⟨-, -, rfl⟩⟩ := hsp.origin r hr
    · exact hx
    · cases hinv
  | reclaimed _ hsp =>
    obtain ⟨t, n, hcu, rfl⟩ := hsp.result
    exact (Cuts.rights hs.sound hcu hold).of_subset (fun _ hr _ => hr) (fun _ hg _ => hg) fun _ =>
      id
  | unparked h => exact hold.of_eq (by rw [h.frame]) (by rw [h.frame]) (by rw [h.frame])
  | swept h =>
    have hfrm := (Sweeps.unparks h).frame
    exact hold.of_eq (by rw [hfrm]) (by rw [hfrm]) (by rw [hfrm])
  | fenced =>
    refine hold.of_subset (fun _ hr _ => hr) (fun g hg hlv => ?_) fun q hq => (mem_delete.mp hq).1
    obtain ⟨x, hx, rfl | ⟨-, rfl⟩⟩ := exists_of_mem_fenceGrants hg
    · exact hx
    · cases hlv
  | registerKept | expandKept => exact hold
  | registered | expanded | recorded => exact hold.of_eq rfl rfl rfl
  | dropped =>
    exact ⟨fun r hr => absurd hr (not_mem_empty r),
      fun r hr => absurd hr (not_mem_empty r)⟩

/-! ### Runs -/

def RespectsRights (budget : Budget) (volume : String) (s : Volume) (op : Op) : Prop :=
  ∀ s' reply, exec budget volume s op = .ok (s', reply) → op.KeepsRights s s'

variable {ops : List Op}

theorem rights_run (h : Steps (step budget volume) (RespectsRights budget volume) .empty ops) :
    Rights (fun client b => GrantedSince budget volume client b ops)
      (runOps budget volume .empty ops) := by
  induction ops using reverseRecOn with
  | nil =>
    exact ⟨fun r hr => absurd hr (not_mem_empty r),
      fun r hr => absurd hr (not_mem_empty r)⟩
  | append_singleton ops op ih =>
    obtain ⟨hops, hop, -⟩ := steps_append.mp h
    have hlaw := reachable_lawful budget volume ops
    rw [runOps_append]
    change Rights _ (step budget volume (runOps budget volume .empty ops) op)
    cases hxc : exec budget volume (runOps budget volume .empty ops) op with
    | error e =>
      rw [step_of_error hxc]
      refine (ih hops).mono fun _ _ _ hsin => .kept hsin fun s' reply hok => ?_
      rw [hxc] at hok
      cases hok
    | ok result =>
      rw [step_of_ok hxc]
      refine (exec_rights hlaw (ih hops) hxc (hop _ _ hxc)).mono fun client b _ haft => ?_
      rcases haft with hgrs | ⟨hsin, hkp⟩
      · exact .gained hxc hgrs
      · refine .kept hsin fun s' reply hok => ?_
        obtain ⟨rfl, -⟩ := Prod.mk.inj (Except.ok.inj (hok.symm.trans hxc))
        exact hkp

/-- **A commit belongs to the incarnation**: every byte of a row that `commit_extents` turns into a
committed one was granted to the client since it was last allocated. -/
theorem commit_belongs_to_grant (budget : Budget) (volume : String) (ops : List Op)
    (hops : Steps (step budget volume) (RespectsRights budget volume) .empty ops)
    (f c o l n : UInt64) (s' : Volume)
    (hcom : exec budget volume (runOps budget volume .empty ops) (.commitExtents f c o l) =
      .ok (s', .count n))
    (r : ExtentRow) (hr : r ∈ (runOps budget volume .empty ops).extents)
    (hinv : r.state = .invalid) (hr' : { r with state := .rw } ∈ s'.extents)
    (b : Int) (hb : b ∈ r.physical) : GrantedSince budget volume c.toNat b ops := by
  obtain ⟨m, h, -⟩ := answer_ok.mp hcom
  obtain ⟨start, stop, -, hsp⟩ := commitExtents_ok h
  have hR := rights_run hops
  -- the row changed, so it is a row of the range and was checked
  have htgt : r ∈ overlappingExtents (runOps budget volume .empty ops) (castI64 f) start stop := by
    obtain ⟨x, hx, hor⟩ := hsp.origin _ hr'
    have hkey : x.fileId = r.fileId ∧ x.logicalOffset = r.logicalOffset := by
      rcases hor with rfl | ⟨-, -, heq⟩
      · exact ⟨rfl, rfl⟩
      · exact ⟨(congrArg fileId heq).symm, (congrArg logicalOffset heq).symm⟩
    obtain rfl : x = r := eq_of_key_eq hx hr (key_eq.mpr hkey)
    rcases hor with heq | ⟨hov, -⟩
    · have hrw := congrArg state heq
      rw [hinv] at hrw
      cases hrw
    · exact hov
  have hfi := (mem_overlappingExtents.mp htgt).2.1
  rcases checkCommit_ok hfi (hsp.checked r htgt) with
    ⟨g, hg, hon, hcl, hlv⟩ | ⟨q, hq, hin, hcl, hgen⟩
  · exact hcl ▸ hR.held r hr hinv g hg hon hlv b hb
  · exact hcl ▸ hR.recorded r hr hinv q hq hin hgen b hb

/-- A client that returned its layout first and commits second, as the record allows. -/
theorem returned_layout_commits : GrantedSince (extentRowBudget none) "v" 1 0
    [.registerVolume 100000, .grant 1 1 0 4096 true, .layoutReturn 1 1 0 4096] := by
  refine commit_belongs_to_grant (extentRowBudget none) "v"
    [.registerVolume 100000, .grant 1 1 0 4096 true, .layoutReturn 1 1 0 4096]
    ⟨fun _ _ _ => trivial, ?_, ?_, trivial⟩ 1 1 0 4096 1 _ (exec_of_reply (by decide))
    ⟨1, 0, 4096, 0, 1, .invalid⟩ (by decide) rfl (by decide) 0 (by decide)
  · intro s' reply h
    rw [← step_of_ok h]
    change MeetsOwn _ _ _
    decide
  · intro s' reply h
    rw [← step_of_ok h]
    change JoinsLike _ _
    decide

/-! ### Commits of another client's bytes -/

variable {b : Int}

theorem not_grantedSince_of_reply (h : ¬GrantedSince budget volume client b ops) (op : Op)
    (exts : List GrantedExtent)
    (hrpl : (exec budget volume (runOps budget volume .empty ops) op).map Prod.snd =
      .ok (.extents exts)) (hb : ¬InReply exts b) :
    ¬GrantedSince budget volume client b (ops ++ [op]) := by
  intro hsin
  rcases hsin.of_ok (exec_of_reply hrpl) with hgrs | ⟨hsin, -⟩
  · cases op with
    | grant => exact hb hgrs.2
    | _ => exact hgrs
  · exact h hsin

theorem not_grantedSince_of_other (h : ¬GrantedSince budget volume client b ops) (op : Op)
    (hop : ∀ reply, ¬op.Grants client b reply) :
    ¬GrantedSince budget volume client b (ops ++ [op]) := by
  intro hsin
  rcases since_snoc hsin with ⟨s', reply, -, hgrs⟩ | ⟨hsin, -⟩
  · exact hop reply hgrs
  · exact h hsin

theorem not_grants_of_ne {o l : UInt64} {fresh : Bool} (h : client ≠ c.toNat) (reply : Reply) :
    ¬(Op.grant f c o l fresh).Grants client b reply := by
  cases reply with
  | extents exts => exact fun hgrs => h hgrs.1
  | _ => exact id

/-- Client 1 gets two rows and returns them, which joins them; they are reclaimed, and client 2 gets
a row at the fresh offset of the second. -/
def staleRecord : List Op :=
  [.registerVolume 100000] ++ [.grant 1 1 0 4096 true] ++ [.grant 1 1 4096 4096 true] ++
    [.layoutReturn 1 1 0 8192] ++ [.reclaimComplete 1 0 8192 5] ++ [.grant 1 2 4096 4096 true]

/-- Two clients get neighbouring rows and return them, which joins the rows. -/
def sharedRecord : List Op :=
  [.registerVolume 100000] ++ [.grant 1 1 0 4096 true] ++ [.grant 1 2 4096 4096 true] ++
    [.layoutReturn 1 1 0 4096] ++ [.layoutReturn 1 2 4096 4096]

structure PromotesUngranted (ops : List Op) (f c o l : UInt64) (r : ExtentRow) (b : Int) :
    Prop where
  provisional : r ∈ (runOps (extentRowBudget none) "v" .empty ops).extents ∧ r.state = .invalid
  promoted : { r with state := .rw } ∈
    (runOps (extentRowBudget none) "v" .empty (ops ++ [.commitExtents f c o l])).extents
  byte : b ∈ r.physical
  ungranted : ¬GrantedSince (extentRowBudget none) "v" c.toNat b ops

/-- In the first run client 1 promotes client 2's row by a record that the reclaim left behind; in
the second, client 2 promotes client 1's bytes with its own. -/
theorem commit_without_grant :
    PromotesUngranted staleRecord 1 1 4096 4096 ⟨1, 4096, 4096, 8192, 1, .invalid⟩ 8192 ∧
      PromotesUngranted sharedRecord 1 2 4096 4096 ⟨1, 0, 8192, 0, 1, .invalid⟩ 0 := by
  refine ⟨⟨by decide, by decide, by decide, ?_⟩, by decide, by decide, by decide, ?_⟩
  · -- the replies to client 1 end before byte 8192
    have hno : ¬GrantedSince (extentRowBudget none) "v" 1 8192 [.registerVolume 100000] :=
      not_grantedSince_of_other not_since_nil _ fun _ => id
    have hfst := not_grantedSince_of_reply hno (.grant 1 1 0 4096 true)
      [⟨0, 4096, 0, 1, false, false⟩] (by decide) (by decide)
    have hsec := not_grantedSince_of_reply hfst (.grant 1 1 4096 4096 true)
      [⟨4096, 4096, 4096, 1, false, false⟩] (by decide) (by decide)
    have hreturn := not_grantedSince_of_other hsec (.layoutReturn 1 1 0 8192) fun _ => id
    have hrec := not_grantedSince_of_other hreturn (.reclaimComplete 1 0 8192 5) fun _ => id
    exact not_grantedSince_of_other hrec _ (not_grants_of_ne (by decide))
  · -- the only reply to client 2 starts at byte 4096
    have hno : ¬GrantedSince (extentRowBudget none) "v" 2 0 [.registerVolume 100000] :=
      not_grantedSince_of_other not_since_nil _ fun _ => id
    have hfst := not_grantedSince_of_other hno (.grant 1 1 0 4096 true)
      (not_grants_of_ne (by decide))
    have hsec := not_grantedSince_of_reply hfst (.grant 1 2 4096 4096 true)
      [⟨4096, 4096, 4096, 1, false, false⟩] (by decide) (by decide)
    have hreturn := not_grantedSince_of_other hsec (.layoutReturn 1 1 0 4096) fun _ => id
    exact not_grantedSince_of_other hreturn _ fun _ => id

end Flint.Extent
