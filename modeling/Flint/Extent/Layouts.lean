import Flint.Extent.Runs

/-!
# Layouts that clients hold

`grant` and `grant_read` tell a client where each byte of a range lives and at which generation
while it holds the layout. No move touches a row on which an unfenced grant stands, except that a
commit may change the row's state (`Move.held`).
-/

namespace Flint.Extent

open ExtentRow KeyedTable Reply Outcome List Bool Span

variable {budget : Budget} {volume : String} {s s' : Volume}

def Volume.MapsTo (s : Volume) (file lo phys gen : Int) : Prop :=
  ∃ r ∈ s.extents, r.fileId = file ∧ lo ∈ r.logical ∧
    phys = r.physicalOffset + (lo - r.logicalOffset) ∧ gen = r.gen

def Volume.Holds (s : Volume) (client file lo : Int) : Prop :=
  ∃ r ∈ s.extents, r.fileId = file ∧ lo ∈ r.logical ∧
    ∃ g ∈ s.grants, g.On r ∧ g.clientId = client ∧ g.fenced = false

variable {file : Int}

theorem Volume.MapsTo.mapped {lo phys gen : Int} (h : s.MapsTo file lo phys gen) :
    s.Mapped phys := by
  obtain ⟨r, hr, -, hlo, rfl, -⟩ := h
  refine ⟨r, hr, ?_⟩
  rw [mem_logical] at hlo
  rw [mem_physical]
  omega

theorem Sound.mapsTo_inj (hs : Sound s) {file' lo lo' phys gen gen' : Int}
    (h : s.MapsTo file lo phys gen) (h' : s.MapsTo file' lo' phys gen') :
    file = file' ∧ lo = lo' := by
  obtain ⟨r, hr, hf, hlo, hphys, -⟩ := h
  obtain ⟨r', hr', hf', hlo', hphys', -⟩ := h'
  have hmem : ∀ {x : ExtentRow} {b : Int}, b ∈ x.logical →
      phys = x.physicalOffset + (b - x.logicalOffset) → phys ∈ x.physical := by
    intro x b hb hx
    rw [mem_logical] at hb
    rw [mem_physical]
    omega
  obtain rfl := hs.eq_of_physical hr hr' (hmem hlo hphys) (hmem hlo' hphys')
  exact ⟨hf.symm.trans hf', by omega⟩

/-! ### A held row stays -/

structure Held (s : Volume) (r : ExtentRow) (g : GrantRow) : Prop where
  row : ∃ state, { r with state } ∈ s.extents
  grant : g ∈ s.grants

variable {start stop : Int}

section Held

variable {spare : GrantRow → Prop} {r : ExtentRow} {g : GrantRow} (hon : g.On r)
include hon

theorem Join.held (h : Join s s') (hhd : Held s r g) : Held s' r g := by
  obtain ⟨⟨state, hr⟩, hg⟩ := hhd
  cases h with
  | mk head tail others extents hold hrun hqt hnew =>
    refine ⟨⟨state, hnew.mem_iff.mpr (.tail _ ?_)⟩, hg⟩
    rcases mem_append.mp (hold.mem_iff.mp hr) with hrun' | hoth
    · exact absurd hon (hqt _ hrun' g hg)
    · exact hoth

variable (hlv : g.fenced = false)
include hlv

theorem Cut.held (h : Cut file start stop s s') (hhd : Held s r g) : Held s' r g := by
  obtain ⟨⟨state, hr⟩, hg⟩ := hhd
  cases h with
  | mk t others extents free quarantine hold hfi hmt hrng hqt hnew hgo =>
    -- the row that is cut carries fenced grants only
    have hne : ¬g.On t := fun h => absurd (hlv.symm.trans (hqt g hg h)) (by simp)
    refine ⟨⟨state, hnew.mem_iff.mpr (mem_append_right _ ?_)⟩, mem_delete.mpr ⟨hg, ?_⟩⟩
    · rcases mem_cons.mp (hold.mem_iff.mp hr) with heq | hoth
      · exact absurd (heq ▸ hon) hne
      · exact hoth
    · refine eq_false_iff.mpr fun hp => hne ?_
      rw [and_eq_true, decide_eq_true_eq, decide_eq_true_eq] at hp
      exact ⟨hp.1.trans hfi.symm, hp.2⟩

theorem Move.held (hs : Sound s) (hspa : spare g) (h : Move spare s s')
    (hhd : Held s r g) : Held s' r g := by
  cases h with
  | @place e _ _ h =>
    obtain ⟨⟨state, hr⟩, hg⟩ := hhd
    have hmem := (h.extents_perm hs.positive).mem_iff.mpr (.tail e hr)
    refine ⟨⟨state, hmem⟩, ?_⟩
    rw [h.frame]
    exact hg
  | join h => exact h.held hon hhd
  | cut h => exact h.held hon hlv hhd
  | unpark h =>
    rw [h.frame]
    exact ⟨hhd.row, hhd.grant⟩
  | hold => exact ⟨hhd.row, mem_insertOrIgnore.mpr (.inl hhd.grant)⟩
  | release hp =>
    refine ⟨hhd.row, mem_delete.mpr ⟨hhd.grant, ?_⟩⟩
    exact eq_false_iff.mpr fun h => hp g hhd.grant h hspa
  | @fence _ p hp =>
    have hnot : p g = false := eq_false_iff.mpr fun h => hp g hhd.grant h hspa
    have hmem := mem_fenceGrants (p := p) hhd.grant
    rw [hnot] at hmem
    exact ⟨hhd.row, hmem⟩
  | @promote _ p =>
    obtain ⟨state, hr⟩ := hhd.row
    have hmem := mem_promoteExtents (p := p) hr
    refine ⟨?_, hhd.grant⟩
    split at hmem
    · exact ⟨.rw, hmem⟩
    · exact ⟨state, hmem⟩
  | remember | recount | register | expand | records => exact ⟨hhd.row, hhd.grant⟩

theorem Moves.held (hs : Sound s) (hspa : spare g) (h : Moves spare s s')
    (hhd : Held s r g) : Held s' r g := by
  induction h with
  | refl => exact hhd
  | tail hmvs hmv ih => exact hmv.held hon hlv (Moves.sound hmvs hs) hspa ih

end Held

/-! ### Getting a layout -/

structure Describes (x : GrantedExtent) (r : ExtentRow) : Prop where
  logicalOffset : x.logicalOffset = UInt64.ofInt r.logicalOffset
  length : x.length = UInt64.ofInt r.length
  physicalOffset : x.physicalOffset = UInt64.ofInt r.physicalOffset
  generation : x.generation = UInt64.ofInt r.gen

def GrantedTo (s : Volume) (file client : Int) (r : ExtentRow) : Prop :=
  r ∈ s.extents ∧ r.fileId = file ∧ ∃ g ∈ s.grants, g.On r ∧ g.clientId = client ∧ g.fenced = false

variable {rows : List ExtentRow} {r : ExtentRow}

theorem grantedTo_grantRows {client : Int} {mode : GrantMode}
    (hunfenced : ∀ g ∈ s.grants, g.clientId = client → g.fenced = false)
    (hr : r ∈ rows) (hmem : r ∈ s.extents) (hfi : r.fileId = file) :
    GrantedTo (grantRows s client mode rows) file client r := by
  obtain ⟨g, hg, hon, hc⟩ : ∃ g ∈ (grantRows s client mode rows).grants, g.On r ∧
    g.clientId = client := exists_grantRows hr
  refine ⟨hmem, hfi, g, hg, hon, hc, ?_⟩
  rcases mem_grantRows hg with hold | ⟨x, -, rfl⟩
  · exact hunfenced g hold hc
  · rfl

variable {f c : UInt64}

theorem GrantSpec.grantedTo (hs : Sound s) {new : List ExtentRow}
    (h : GrantSpec s f c start stop s' rows new) (hr : r ∈ rows) :
    GrantedTo s' (castI64 f) c.toNat r := by
  obtain ⟨t, hpl, rfl⟩ := h.result
  have hgrs : t.grants = s.grants := by rw [hpl.frame]
  have hrow : r ∈ t.extents ∧ r.fileId = castI64 f := by
    rw [hpl.mem_extents hs]
    rcases mem_append.mp (h.rows_perm.mem_iff.mp hr) with hr | hr
    · exact ⟨.inr (mem_overlappingExtents.mp hr).1, (mem_overlappingExtents.mp hr).2.1⟩
    · exact ⟨.inl hr, (h.new_rows r hr).1⟩
  exact grantedTo_grantRows (fun g hg => h.unfenced g (hgrs ▸ hg)) hr hrow.1 hrow.2

theorem GrantReadSpec.grantedTo (h : GrantReadSpec s f c start stop s' rows)
    (hr : r ∈ rows) : GrantedTo s' (castI64 f) c.toNat r := by
  have hov := hr
  rw [h.rows_eq] at hov
  obtain ⟨hmem, hfi, -⟩ := mem_overlappingExtents.mp (mem_filter.mp hov).1
  rw [h.result]
  exact grantedTo_grantRows h.unfenced hr hmem hfi

def Op.GetsLayout (f c : UInt64) : Op → Prop
  | .grant f' c' _ _ _ | .grantRead f' c' _ _ => f' = f ∧ c' = c
  | _ => False

variable {op : Op} {exts : List GrantedExtent} {x : GrantedExtent}

theorem getsLayout_ok (hs : Sound s) (hop : op.GetsLayout f c)
    (h : exec budget volume s op = .ok (s', .extents exts)) (hx : x ∈ exts) :
    ∃ r, Describes x r ∧ GrantedTo s' (castI64 f) c.toNat r := by
  cases op with
  | grant f' c' o l fresh =>
    obtain ⟨rfl, rfl⟩ := hop
    obtain ⟨a, h, hrpl⟩ := answer_ok.mp h
    obtain rfl := extents.inj hrpl
    obtain ⟨start, stop, rows, new, reused, -, hsp, rfl⟩ := grant_ok hs h
    obtain ⟨r, hr, rfl⟩ := mem_map.mp hx
    exact ⟨r, ⟨rfl, rfl, rfl, rfl⟩, hsp.grantedTo hs hr⟩
  | grantRead f' c' o l =>
    obtain ⟨rfl, rfl⟩ := hop
    obtain ⟨a, h, hrpl⟩ := answer_ok.mp h
    obtain rfl := extents.inj hrpl
    obtain ⟨start, stop, rows, -, hsp, rfl⟩ := grantRead_ok h
    obtain ⟨r, hr, rfl⟩ := mem_map.mp hx
    exact ⟨r, ⟨rfl, rfl, rfl, rfl⟩, hsp.grantedTo hr⟩
  | _ => exact absurd hop id

theorem Describes.values (h : Describes x r) (hs : Lawful s) (hr : r ∈ s.extents) :
    (x.logicalOffset.toNat : Int) = r.logicalOffset ∧ (x.length.toNat : Int) = r.length ∧
      (x.physicalOffset.toNat : Int) = r.physicalOffset := by
  have hpos := hs.sound.positive.extents r hr
  obtain ⟨-, hlo, hhi⟩ := hs.inRange.rows r hr
  have hhome : ∀ b, b ∈ r.physical → 0 ≤ b ∧ b < s.watermark := by
    intro b hb
    have hcvr : 0 < cover s.homes b := by
      have hmapped : s.Mapped b := ⟨r, hr, hb⟩
      rw [s.mapped_iff] at hmapped
      rw [s.cover_homes]
      omega
    rw [hs.tiled.2 b] at hcvr
    by_contra hnot
    rw [if_neg hnot] at hcvr
    exact lt_irrefl 0 hcvr
  have hfst := hhome r.physicalOffset (mem_iff.mpr ⟨le_refl _, by
    change r.physicalOffset < r.physicalOffset + r.length; omega⟩)
  -- the watermark is below the ceiling, which is in range
  have hmax : s.watermark ≤ i64Max := by
    unfold Volume.watermark
    cases ha : s.arena with
    | none => exact (by decide : (0 : Int) ≤ i64Max)
    | some a => exact (hs.sound.ceiling a ha).trans (hs.inRange.ceiling a ha)
  rw [h.logicalOffset, h.length, h.physicalOffset]
  exact ⟨toNat_ofInt hlo (by omega), toNat_ofInt (by omega) (by omega),
    toNat_ofInt hfst.1 (by omega)⟩

def InReply (exts : List GrantedExtent) (b : Int) : Prop :=
  ∃ x ∈ exts, (x.physicalOffset.toNat : Int) ≤ b ∧ b < x.physicalOffset.toNat + x.length.toNat

instance (exts : List GrantedExtent) (b : Int) : Decidable (InReply exts b) := by
  unfold InReply
  infer_instance

variable {b : Int}

theorem Describes.inReply (h : Describes x r) (hs : Lawful s) (hr : r ∈ s.extents)
    (hx : x ∈ exts) (hb : b ∈ r.physical) : InReply exts b := by
  obtain ⟨-, hlen, hphys⟩ := h.values hs hr
  rw [mem_physical] at hb
  exact ⟨x, hx, by omega, by omega⟩

theorem inReply_grantedTo (hs : Lawful s) (hop : op.GetsLayout f c)
    (h : exec budget volume s op = .ok (s', .extents exts)) (hb : InReply exts b) :
    ∃ r, b ∈ r.physical ∧ GrantedTo s' (castI64 f) c.toNat r := by
  obtain ⟨x, hx, hlo, hhi⟩ := hb
  obtain ⟨r, hdesc, hgrd⟩ := getsLayout_ok hs.sound hop h hx
  obtain ⟨-, hlen, hphys⟩ := hdesc.values (exec_lawful hs h) hgrd.1
  refine ⟨r, ?_, hgrd⟩
  rw [mem_physical]
  omega

/-! ### A layout while it is held -/

/-- The transactions that end the client's hold on `x`: a return that overlaps the row, the client's
fence or revocation, and the end of the volume. -/
def Op.EndsLayout (f c : UInt64) (x : GrantedExtent) : Op → Prop
  | .layoutReturn f' c' o l => f' = f ∧ c' = c ∧
    o.toNat < x.logicalOffset.toNat + x.length.toNat ∧ x.logicalOffset.toNat < o.toNat + l.toNat
  | .fenceClient c' | .revokeClient c' => c' = c
  | .dropVolume => True
  | _ => False

theorem not_givesUp {g : GrantRow} (hon : g.On r) (hcl : g.clientId = c.toNat)
    (hfi : r.fileId = castI64 f) (hlo : (x.logicalOffset.toNat : Int) = r.logicalOffset)
    (hlen : (x.length.toNat : Int) = r.length) (hhd : Held s r g) (hop : ¬op.EndsLayout f c x) :
    ¬op.GivesUp s g := by
  intro hgives
  refine hop ?_
  cases op with
  | layoutReturn f' c' o l =>
    unfold Op.GivesUp returnedGrant at hgives
    simp only [and_eq_true, decide_eq_true_eq, any_eq_true] at hgives
    obtain ⟨⟨hf, hc⟩, t, ht, hto⟩ := hgives
    obtain ⟨htmem, htf, hsto, hst⟩ := mem_overlappingExtents.mp ht
    obtain ⟨state, hr⟩ := hhd.row
    -- the returned row is the held one
    have hkey : ({ r with state } : ExtentRow) = t :=
      GrantRow.On.unique (r := { r with state }) hon ⟨hf.trans htf.symm, hto.symm⟩ hr htmem
    have htlo : t.logicalOffset = r.logicalOffset := by rw [← hkey]
    have htlen : t.length = r.length := by rw [← hkey]
    have hcc : c' = c := UInt64.toNat_inj.mp (by omega)
    have hff : f' = f := castI64_injective (hf.symm.trans (hon.1.trans hfi))
    exact ⟨hff, hcc, by omega, by omega⟩
  | fenceClient c' | revokeClient c' =>
    have hc : g.clientId = c'.toNat := hgives
    exact UInt64.toNat_inj.mp (by omega)
  | dropVolume => trivial
  | registerVolume | expandVolume | grant | grantRead | commitExtents | reclaimComplete
  | releaseQuarantine | sweepQuarantineDelivered | fenceRecord | markFenceDelivered
  | unfenceRecord | hostAdmit | hostEvict | nodeAttach | nodeDetach => exact absurd hgives id

theorem run_held (hs : Sound s) {g : GrantRow} (hon : g.On r)
    (hlv : g.fenced = false) (hcl : g.clientId = c.toNat) (hfi : r.fileId = castI64 f)
    (hlo : (x.logicalOffset.toNat : Int) = r.logicalOffset)
    (hlen : (x.length.toNat : Int) = r.length) (hhd : Held s r g) {later : List Op}
    (hlat : Steps (step budget volume) (fun s op => op.EndsLayout f c x →
      ∃ e, exec budget volume s op = .error e) s later) :
    Sound (runOps budget volume s later) ∧ Held (runOps budget volume s later) r g := by
  refine run_invariant_of_steps (P := fun s => Sound s ∧ Held s r g)
    (fun s op hP hop => ?_) ⟨hs, hhd⟩ hlat
  refine step_invariant (P := fun s => Sound s ∧ Held s r g) hP fun s' reply hxc => ?_
  have hnot : ¬op.EndsLayout f c x := by
    intro hends
    obtain ⟨e, herr⟩ := hop hends
    rw [herr] at hxc
    cases hxc
  have hdr : op ≠ .dropVolume := by
    rintro rfl
    exact hnot trivial
  have hmvs := (exec_executed hP.1 hxc).moves hP.1 hdr
  have hspa := not_givesUp hon hcl hfi hlo hlen hP.2 hnot
  exact ⟨exec_sound hP.1 hxc, Moves.held hon hlv hP.1 hspa hmvs hP.2⟩

/-- **A granted layout stays true while it is held**: up to the return, fence or revocation, each
byte of a returned extent is still mapped to the same byte of the volume at the same generation, and
to it alone. -/
theorem layout_stays_true (budget : Budget) (volume : String) (before : List Op) (op : Op)
    (f c : UInt64) (hop : op.GetsLayout f c) (s₁ : Volume) (exts : List GrantedExtent)
    (hget : exec budget volume (runOps budget volume .empty before) op = .ok (s₁, .extents exts))
    (x : GrantedExtent) (hx : x ∈ exts) :
    ∃ gen : Int, x.generation = UInt64.ofInt gen ∧ ∀ later : List Op,
      Steps (step budget volume) (fun s op => op.EndsLayout f c x →
        ∃ e, exec budget volume s op = .error e) s₁ later →
      let s := runOps budget volume s₁ later
      ∀ i : ℕ, i < x.length.toNat →
        s.MapsTo (castI64 f) (x.logicalOffset.toNat + i) (x.physicalOffset.toNat + i) gen ∧
          ¬s.Free (x.physicalOffset.toNat + i) ∧ ¬s.Parked (x.physicalOffset.toNat + i) ∧
          ∀ file lo gen', s.MapsTo file lo (x.physicalOffset.toNat + i) gen' →
            file = castI64 f ∧ lo = x.logicalOffset.toNat + i := by
  have hbef := reachable_lawful budget volume before
  obtain ⟨r, hdesc, hr, hfi, g, hg, hon, hcl, hlv⟩ :=
    getsLayout_ok hbef.sound hop hget hx
  have hs₁ := exec_lawful hbef hget
  obtain ⟨hlo, hlen, hphys⟩ := hdesc.values hs₁ hr
  refine ⟨r.gen, hdesc.generation, ?_⟩
  intro later hlat s i hi
  obtain ⟨hs, ⟨state, hrow⟩, -⟩ := run_held hs₁.sound hon hlv hcl hfi hlo hlen
    ⟨⟨r.state, hr⟩, hg⟩ hlat
  have hmaps : s.MapsTo (castI64 f) (x.logicalOffset.toNat + i) (x.physicalOffset.toNat + i)
      r.gen := by
    refine ⟨_, hrow, hfi, mem_iff.mpr ?_, ?_, rfl⟩
    · change r.logicalOffset ≤ _ ∧ _ < r.logicalOffset + r.length
      omega
    · change _ = r.physicalOffset + (_ - r.logicalOffset)
      omega
  obtain ⟨hfr, hpkd⟩ := hs.not_free_of_mapped hmaps.mapped
  exact ⟨hmaps, hfr, hpkd, fun file lo gen' h => hs.mapsTo_inj h hmaps⟩

/-- A layout of two blocks, through a neighbour's grant, a commit and a refused reclaim. -/
theorem layout_kept_through_commit :
    ∃ gen : Int, (1 : UInt64) = UInt64.ofInt gen ∧
      (runOps (extentRowBudget none) "v" .empty [.registerVolume 100000, .grant 1 1 0 8192 true,
        .grant 1 2 8192 4096 true, .commitExtents 1 1 0 8192,
        .reclaimComplete 1 0 12288 5]).MapsTo 1 5000 5000 gen := by
  obtain ⟨gen, hgen, hstays⟩ := layout_stays_true (extentRowBudget none) "v"
    [.registerVolume 100000]
    (.grant 1 1 0 8192 true) 1 1 ⟨rfl, rfl⟩ _ [⟨0, 8192, 0, 1, false, false⟩]
    (exec_of_reply (by decide)) ⟨0, 8192, 0, 1, false, false⟩ (.head _)
  refine ⟨gen, hgen, (hstays [.grant 1 2 8192 4096 true, .commitExtents 1 1 0 8192,
    .reclaimComplete 1 0 12288 5] ?_ 5000 (by decide)).1⟩
  exact ⟨fun h => absurd h id, fun h => absurd h id, fun h => absurd h id, trivial⟩

/-! ### Write layouts -/

/-- A `grant` returned an extent with the byte to the client, which has had an unfenced grant on the
byte's row in every state since. -/
def WriteHolds (budget : Budget) (volume : String) (ops : List Op) (c f : UInt64) (b : Int) :
    Prop :=
  ∃ before after o l fresh s₁ exts, ops = before ++ .grant f c o l fresh :: after ∧
    exec budget volume (runOps budget volume .empty before) (.grant f c o l fresh) =
      .ok (s₁, .extents exts) ∧
    (∃ x ∈ exts, (x.logicalOffset.toNat : Int) ≤ b ∧ b < x.logicalOffset.toNat + x.length.toNat) ∧
    ∀ seen, seen <+: after → (runOps budget volume s₁ seen).Holds c.toNat (castI64 f) b

variable {o l : UInt64} {fresh : Bool}

theorem holder_of_grant (hs : Lawful s)
    (h : exec budget volume s (.grant f c o l fresh) = .ok (s', .extents exts)) (hx : x ∈ exts)
    (hb : (x.logicalOffset.toNat : Int) ≤ b ∧ b < x.logicalOffset.toNat + x.length.toNat)
    {client : Int} (hhol : s.Holds client (castI64 f) b) : client = c.toNat := by
  have hs' := exec_lawful hs h
  have hmvs := (exec_executed hs.sound h).moves hs.sound (by simp)
  obtain ⟨a, hgr, hrpl⟩ := answer_ok.mp h
  obtain rfl := extents.inj hrpl
  obtain ⟨start, stop, rows, new, reused, -, hsp, rfl⟩ := grant_ok hs.sound hgr
  obtain ⟨r, hr, rfl⟩ := mem_map.mp hx
  obtain ⟨hmem, hfi, -⟩ := hsp.grantedTo hs.sound hr
  have hdesc : Describes (r.granted reused) r := ⟨rfl, rfl, rfl, rfl⟩
  obtain ⟨hlo, hlen, -⟩ := hdesc.values hs' hmem
  obtain ⟨t, ht, htf, hbt, g, hg, hon, hcl, hlv⟩ := hhol
  -- the row that held the byte before is the row that was returned
  obtain ⟨state, ht'⟩ := (Moves.held hon hlv hs.sound id hmvs ⟨⟨t.state, ht⟩, hg⟩).row
  have hrt : r = { t with state } := by
    refine hs'.sound.eq_of_logical hmem ht' (hfi.trans htf.symm) (b := b) ?_ hbt
    rw [mem_logical]
    omega
  have hmt : r.logicalOffset < stop ∧ start < r.logicalOffset + r.length := by
    rcases mem_append.mp (hsp.rows_perm.mem_iff.mp hr) with hr | hr
    · exact (mem_overlappingExtents.mp hr).2.2
    · have hnew := (hsp.new_rows r hr).2.2
      have hpos := hs'.sound.positive.extents r hmem
      omega
  have hov : t ∈ overlappingExtents s (castI64 f) start stop := by
    rw [hrt] at hmt
    exact mem_overlappingExtents.mpr ⟨ht, htf, hmt⟩
  have hsm := hsp.alone t hov g hg hon hlv
  obtain ⟨h₀, h₁⟩ := hs.inRange.grants g hg
  rw [← hsm, toNat_ofInt h₀ h₁]
  exact hcl.symm

theorem alone_after_grant (hs : Lawful s) {reply : Reply}
    (h : exec budget volume s (.grant f c o l fresh) = .ok (s', reply))
    (hr : r ∈ overlappingExtents s' (castI64 f) o.toNat (o.toNat + l.toNat)) {g : GrantRow}
    (hg : g ∈ s'.grants) (hon : g.On r) (hlv : g.fenced = false) : g.clientId = c.toNat := by
  have hmvs := (exec_executed hs.sound h).moves hs.sound (by simp)
  obtain ⟨a, hgr, -⟩ := answer_ok.mp h
  obtain ⟨start, stop, rows, new, reused, har, hsp, -⟩ := grant_ok hs.sound hgr
  obtain ⟨hr, hrf, hmt⟩ := mem_overlappingExtents.mp hr
  obtain ⟨t, hpl, hs'⟩ := hsp.result
  have hgrs : t.grants = s.grants := by rw [hpl.frame]
  rcases mem_grantRows (s := t.addExtentRows new.length) (hs' ▸ hg) with hold | ⟨x, -, rfl⟩
  · -- an older grant stands on a row that was in the range before
    have hold : g ∈ s.grants := hgrs ▸ hold
    obtain ⟨x, hx, honx, -⟩ := hs.sound.granted g hold
    obtain ⟨state, hx'⟩ := (Moves.held honx hlv hs.sound id hmvs ⟨⟨x.state, hx⟩, hold⟩).row
    have hrx := hon.unique (x := { x with state }) honx hr hx'
    rw [hrx] at hrf hmt
    have hov : x ∈ overlappingExtents s (castI64 f) start stop := by
      rw [har.start_eq, har.stop_eq]
      exact mem_overlappingExtents.mpr ⟨hx, hrf, hmt⟩
    obtain ⟨h₀, h₁⟩ := hs.inRange.grants g hold
    rw [← hsp.alone x hov g hold honx hlv, toNat_ofInt h₀ h₁]
  · rfl

theorem covered_by_grant (hs : Lawful s)
    (h : exec budget volume s (.grant f c o l fresh) = .ok (s', .extents exts)) (hlo : o.toNat ≤ b)
    (hhi : b < o.toNat + l.toNat) :
    s'.Holds c.toNat (castI64 f) b ∧ ∃ x ∈ exts, ∃ gen, x.generation = UInt64.ofInt gen ∧
      (x.logicalOffset.toNat : Int) ≤ b ∧ b < x.logicalOffset.toNat + x.length.toNat ∧
      s'.MapsTo (castI64 f) b (x.physicalOffset.toNat + (b - x.logicalOffset.toNat)) gen := by
  have hs' := exec_lawful hs h
  obtain ⟨a, hgr, hrpl⟩ := answer_ok.mp h
  obtain rfl := extents.inj hrpl
  obtain ⟨start, stop, rows, new, reused, har, hsp, rfl⟩ := grant_ok hs.sound hgr
  obtain ⟨r, hr, hb⟩ := hsp.covers b (har.start_eq ▸ hlo) (har.stop_eq ▸ hhi)
  obtain ⟨hmem, hfi, hhold⟩ := hsp.grantedTo hs.sound hr
  have hdesc : Describes (r.granted reused) r := ⟨rfl, rfl, rfl, rfl⟩
  obtain ⟨hxlo, hxlen, hxphys⟩ := hdesc.values hs' hmem
  have hbounds := mem_logical.mp hb
  refine ⟨⟨r, hmem, hfi, hb, hhold⟩, _, mem_map_of_mem hr, r.gen, hdesc.generation, ?_, ?_,
    r, hmem, hfi, hb, ?_, rfl⟩
  · omega
  · omega
  · omega

theorem writeHolds_ordered {ops before after before' after' : List Op} {c' o' l' : UInt64}
    {fresh' : Bool} (hops : ops = before ++ .grant f c o l fresh :: after)
    (hops' : ops = before' ++ .grant f c' o' l' fresh' :: after') (hne : c ≠ c') :
    (∃ seen, before' = before ++ .grant f c o l fresh :: seen ∧ seen <+: after) ∨
      ∃ seen, before = before' ++ .grant f c' o' l' fresh' :: seen ∧ seen <+: after' := by
  have heq := hops.symm.trans hops'
  rcases append_eq_append_iff.mp heq with ⟨m, hb, ha⟩ | ⟨m, hb, ha⟩
  · cases m with
    | nil =>
      have hop := (cons.inj ha).1
      exact absurd (Op.grant.inj hop).2.1 hne
    | cons op m =>
      obtain ⟨rfl, rfl⟩ := cons.inj ha
      exact .inl ⟨m, hb, prefix_append _ _⟩
  · cases m with
    | nil =>
      have hop := (cons.inj ha).1
      exact absurd (Op.grant.inj hop).2.1.symm hne
    | cons op m =>
      obtain ⟨rfl, rfl⟩ := cons.inj ha
      exact .inr ⟨m, hb, prefix_append _ _⟩

theorem writer_unique {before seen : List Op} {c' o' l' : UInt64} {fresh' : Bool} {s₁ s₂ : Volume}
    {exts' : List GrantedExtent}
    (hget : exec budget volume (runOps budget volume .empty before) (.grant f c o l fresh) =
      .ok (s₁, .extents exts)) (hhol : (runOps budget volume s₁ seen).Holds c.toNat (castI64 f) b)
    (hget' : exec budget volume
      (runOps budget volume .empty (before ++ .grant f c o l fresh :: seen))
      (.grant f c' o' l' fresh') = .ok (s₂, .extents exts'))
    (hx : ∃ x ∈ exts', (x.logicalOffset.toNat : Int) ≤ b ∧
      b < x.logicalOffset.toNat + x.length.toNat) : c = c' := by
  obtain ⟨x, hx, hb⟩ := hx
  have hstt : runOps budget volume .empty (before ++ .grant f c o l fresh :: seen) =
      runOps budget volume s₁ seen := by
    rw [runOps_append, runOps_cons, step_of_ok hget]
  rw [← hstt] at hhol
  have hc := holder_of_grant (reachable_lawful ..) hget' hx hb hhol
  exact UInt64.toNat_inj.mp (by omega)

/-- **Write layouts are exclusive.** At most one client holds a byte of a file by `grant`. And when
`grant` succeeds, no other client has an unfenced grant on a row that meets the range, all of which
is mapped, granted to the client and in the returned list. -/
theorem write_layout_exclusive (budget : Budget) (volume : String) (ops : List Op) :
    (∀ (f c c' : UInt64) (b : Int), WriteHolds budget volume ops c f b →
      WriteHolds budget volume ops c' f b → c = c') ∧
    ∀ (f c o l : UInt64) (fresh : Bool) (s' : Volume) (exts : List GrantedExtent),
      exec budget volume (runOps budget volume .empty ops) (.grant f c o l fresh) =
        .ok (s', .extents exts) →
      (∀ r ∈ overlappingExtents s' (castI64 f) o.toNat (o.toNat + l.toNat),
        ∀ g ∈ s'.grants, g.On r → g.fenced = false → g.clientId = c.toNat) ∧
      ∀ b : Int, o.toNat ≤ b → b < o.toNat + l.toNat →
        s'.Holds c.toNat (castI64 f) b ∧ ∃ x ∈ exts, ∃ gen, x.generation = UInt64.ofInt gen ∧
          (x.logicalOffset.toNat : Int) ≤ b ∧ b < x.logicalOffset.toNat + x.length.toNat ∧
          s'.MapsTo (castI64 f) b (x.physicalOffset.toNat + (b - x.logicalOffset.toNat)) gen := by
  constructor
  · rintro f c c' b ⟨before, after, o, l, fresh, s₁, exts, hops, hget, hx, hhol⟩
      ⟨before', after', o', l', fresh', s₂, exts', hops', hget', hx', hhol'⟩
    by_contra hne
    rcases writeHolds_ordered hops hops' hne with ⟨seen, rfl, hsn⟩ | ⟨seen, rfl, hsn⟩
    · exact hne (writer_unique hget (hhol seen hsn) hget' hx')
    · exact hne (writer_unique hget' (hhol' seen hsn) hget hx).symm
  · intro f c o l fresh s' exts h
    have hs := reachable_lawful budget volume ops
    exact ⟨fun r hr g hg hon hlv => alone_after_grant hs h hr hg hon hlv,
      fun b hlo hhi => covered_by_grant hs h hlo hhi⟩

end Flint.Extent
