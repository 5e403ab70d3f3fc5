import Flint.Tier.Marks

/-!
# What is acknowledged has a dirty row

Every change that may still be acknowledged (`Inv.ops`) is in a generation, or the file has a row
that no flush is about to delete (`Safe`), or its mark is on its way to the table (`OnItsWay`), and
then the operation that made it has not passed. Steps overlap in three ways that break this
(`marks_lost`), and the result is for the runs without them (`Ordered`).
-/

namespace Flint.Tier.Marks

open Function Tables Outcome FileCapture Option Bool

namespace Op

def changes : Op → Changes
  | .noted changes | .due changes | .passed changes => changes
  | .draining changes _ | .committed changes _ => changes
  | .idle | .failed _ => []

def waits : Op → Bool
  | .noted _ | .due _ => true
  | _ => false

def inHand : Op → List PendingMark
  | .draining _ marks => marks
  | _ => []

def returned : Op → List PendingMark
  | .failed marks => marks
  | _ => []

def held (op : Op) : List PendingMark := op.inHand ++ op.returned

def written : Op → List PendingMark
  | .committed _ marks => marks
  | _ => []

end Op

def Flush.seq? : Flush → Option ℕ
  | .idle => none
  | .listed seq | .took seq _ _ | .clearing seq | .cleared seq | .checked seq => some seq

def Flush.hasCleared : Flush → Bool
  | .cleared _ | .checked _ => true
  | _ => false

def Flush.carries (v : ℕ) : Flush → Prop
  | .took _ epoch upto => epoch.isDirty ∧ v ≤ upto
  | _ => False

namespace Server

variable {ω : Type} {s : Server ω} {i : Ident}

/-! ### The account -/

def Tracked (s : Server ω) (i : Ident) (v : ℕ) : Prop :=
  (i, v) ∈ s.acked ∨ ∃ o, (i, v) ∈ (s.ops o).changes

def Held (s : Server ω) (i : Ident) : Prop := ∃ o, ∃ p ∈ (s.ops o).held, p.ident = i

/-- A mark of the file is queued, or an operation has one that it has not written. -/
def Marked (s : Server ω) (i : Ident) : Prop := s.tables.isQueued i ∨ s.Held i

/-- The mark of a change to the file is on its way to the table. -/
def OnItsWay (s : Server ω) (i : Ident) (op : Op) : Prop :=
  op.waits ∧ s.Marked i ∨ ∃ p ∈ op.inHand, p.ident = i

/-- There is a row, and no flush is about to delete it. -/
def Safe (s : Server ω) (i : Ident) : Prop :=
  ∃ row, s.rows i = some row ∧ s.flush i ≠ .checked row.seq

/-- What holds of the file while its flush is at `f`. The number of the listing tells whether the
row was written since. -/
structure Phase (s : Server ω) (i : Ident) (f : Flush) : Prop where
  upto : ∀ seq epoch upto, f = .took seq epoch upto → s.published i ≤ upto ∧ upto ≤ s.version i
  captured : ∀ v, s.Tracked i v →
    (s.tables.captured i).isDirty ∨ f.carries v ∨ v ≤ s.published i
  listed : ∀ seq, f.seq? = some seq → (s.rows i).isSome
  /-- A row that is as it was listed has not been written since. -/
  unwritten : ∀ row, s.rows i = some row → f.seq? = some row.seq →
    ∀ o, ∀ p ∈ (s.ops o).written, p.ident ≠ i
  waiting : ∀ q, s.tables.queued.get? i = some q → f.seq? ≠ some q.seq
  inHand : ∀ o, ∀ p ∈ (s.ops o).inHand, p.ident = i → f.seq? ≠ some p.seq
  /-- Once the memo is cleared it stays so, for the row that was listed. -/
  cleared : ∀ row, s.rows i = some row → f.seq? = some row.seq → f.hasCleared →
    s.tables.durable i = false

theorem Phase.idle (hcap : ∀ v, s.Tracked i v →
    (s.tables.captured i).isDirty ∨ v ≤ s.published i) : s.Phase i .idle :=
  ⟨nofun, fun v hv => (hcap v hv).imp_right .inr, nofun, nofun, nofun, nofun, nofun⟩

structure Inv (s : Server ω) : Prop where
  flag : s.tables.FlagTrue
  versions : ∀ i v, s.Tracked i v → v ≤ s.version i
  durable : ∀ i, s.tables.durable i → (s.rows i).isSome
  written : ∀ o, ∀ p ∈ (s.ops o).written, (s.rows p.ident).isSome
  published : ∀ i, s.published i ≤ s.version i
  phase : ∀ i, s.Phase i (s.flush i)
  ops : ∀ o i v, (i, v) ∈ (s.ops o).changes → v ≤ s.published i ∨ s.Safe i ∨ s.OnItsWay i (s.ops o)
  acked : ∀ i v, (i, v) ∈ s.acked → v ≤ s.published i ∨ s.Safe i

theorem setFlush_self (f : Flush) : (s.setFlush i f).flush i = f := update_self ..

theorem setFlush_of_ne {j : Ident} (hj : j ≠ i) (f : Flush) :
    (s.setFlush i f).flush j = s.flush j := update_of_ne hj ..

theorem setOp_self [DecidableEq ω] (o : ω) (op : Op) : (s.setOp o op).ops o = op := update_self ..

theorem setOp_of_ne [DecidableEq ω] {o o' : ω} (ho : o' ≠ o) (op : Op) :
    (s.setOp o op).ops o' = s.ops o' := update_of_ne ho ..

namespace Inv

theorem start : (start : Server ω).Inv := by
  have hno : ∀ i v, ¬(Server.start : Server ω).Tracked i v := by
    rintro i v (hv | ⟨o, hv⟩) <;> cases hv
  exact ⟨fun _ _ => rfl, fun i v hv => absurd hv (hno i v), nofun, nofun, fun _ => le_rfl,
    fun i => .idle fun v hv => absurd hv (hno i v), nofun, nofun⟩

variable (h : s.Inv)

include h

theorem phase_of {f : Flush} (hfl : s.flush i = f) : s.Phase i f := hfl ▸ h.phase i

/-- A flush that is about to delete the row has cleared the memo. -/
theorem safe_of_durable (hdur : s.tables.durable i) : s.Safe i := by
  obtain ⟨row, hrow⟩ := isSome_iff_exists.mp (h.durable i hdur)
  refine ⟨row, hrow, fun hfl => ?_⟩
  exact eq_false_iff.mp ((h.phase_of hfl).cleared row hrow rfl rfl) hdur

/-! ### The flusher -/

/-- The flush of a file goes on. It is about to delete the row only when all is published. -/
theorem setFlush {f : Flush} (hf : s.Phase i f)
    (hck : (∀ seq, f ≠ .checked seq) ∨ ∀ v, s.Tracked i v → v ≤ s.published i) :
    (s.setFlush i f).Inv := by
  have hsafe : ∀ j v, s.Tracked j v → s.Safe j → v ≤ s.published j ∨ (s.setFlush i f).Safe j := by
    rintro j v hv ⟨row, hrow, hno⟩
    rcases eq_or_ne j i with rfl | hj
    · exact hck.symm.imp (fun hall => hall v hv) fun hck =>
        ⟨row, hrow, by rw [setFlush_self]; exact hck _⟩
    · exact .inr ⟨row, hrow, by rwa [setFlush_of_ne hj]⟩
  refine { h with
    phase := (forall_update_iff s.flush fun j => (s.setFlush i f).Phase j).mpr
      ⟨{ hf with }, fun j _ => { h.phase j with }⟩
    ops := fun o j v hv => ?_
    acked := fun j v hv => (h.acked j v hv).elim .inl (hsafe j v (.inl hv)) }
  rcases h.ops o j v hv with hle | hs | hway
  · exact .inl hle
  · exact (hsafe j v (.inr ⟨o, hv⟩) hs).imp_right .inl
  · exact .inr (.inr hway)

theorem list {row : DirtyRow} (hfl : s.flush i = .idle) (hrow : s.rows i = some row)
    (hwr : ∀ o, ∀ p ∈ (s.ops o).written, p.ident ≠ i)
    (hqueued : ∀ q ∈ s.tables.queued.get? i, q.seq ≠ row.seq)
    (hhand : ∀ o, ∀ p ∈ (s.ops o).inHand, p.ident = i → p.seq ≠ row.seq) :
    (s.setFlush i (.listed row.seq)).Inv :=
  h.setFlush { h.phase_of hfl with
    upto := nofun
    listed := fun _ _ => congrArg isSome hrow
    unwritten := fun _ _ _ => hwr
    waiting := fun q hq hseq => hqueued q hq (some.inj hseq).symm
    inHand := fun o p hp hid hseq => hhand o p hp hid (some.inj hseq).symm
    cleared := nofun } (.inl nofun)

variable {seq upto : ℕ} {epoch : FileCapture}

/-- A flush may end if what it has taken is captured. -/
theorem stop (hback : ∀ v, (s.flush i).carries v → (s.tables.captured i).isDirty) :
    (s.setFlush i .idle).Inv := by
  refine h.setFlush (.idle fun v hv => ?_) (.inl nofun)
  rcases (h.phase i).captured v hv with hd | hcar | hle
  · exact .inl hd
  · exact .inl (hback v hcar)
  · exact .inr hle

/-- What is captured is carried by the flush from now on. -/
theorem takeEpoch (hfl : s.flush i = .listed seq) :
    ({ s with tables := s.tables.takeEpoch i }.setFlush i
      (.took seq (s.tables.captured i) (s.version i))).Inv := by
  have hp := h.phase_of hfl
  have hcap : ∀ v, s.Tracked i v →
      (Flush.took seq (s.tables.captured i) (s.version i)).carries v ∨ v ≤ s.published i :=
    fun v hv => (hp.captured v hv).imp (fun hd => ⟨hd, h.versions i v hv⟩) (·.resolve_left id)
  have htk : (s.setFlush i (.took seq (s.tables.captured i) (s.version i))).Inv := by
    refine h.setFlush { hp with
      upto := ?_
      captured := fun v hv => .inr (hcap v hv)
      cleared := nofun } (.inl nofun)
    rintro _ _ _ ⟨⟩
    exact ⟨h.published i, le_rfl⟩
  refine { htk with phase := fun j => { htk.phase j with captured := fun v hv => ?_ } }
  rcases eq_or_ne j i with rfl | hj
  · rw [setFlush_self]
    exact .inr (hcap v hv)
  · exact ((htk.phase j).captured v hv).imp_left ((congrArg isDirty (update_of_ne hj ..)).trans ·)

/-- More is captured, and everything else is as it was. -/
theorem recapture {c : FileCapture} (hd : (s.tables.captured i).isDirty → c.isDirty) :
    { s with tables := { s.tables with captured := update s.tables.captured i c } }.Inv := by
  refine { h with phase := fun j => { h.phase j with captured := fun v hv => ?_ } }
  refine ((h.phase j).captured v hv).imp_left fun hdj => ?_
  rcases eq_or_ne j i with rfl | hj
  · exact (congrArg isDirty (update_self ..)).trans (hd hdj)
  · exact (congrArg isDirty (update_of_ne hj ..)).trans hdj

/-- New marks are queued, with numbers that no flush has listed. -/
theorem queue {t : Tables} {new : Ident → Prop} {n : ℕ} (hq : s.tables.Queues t new n)
    (hord : ∀ j, new j → s.tables.durable j = false → ∀ seq, (s.flush j).seq? = some seq →
      seq < s.tables.markSeq ∨ s.tables.markSeq + n ≤ seq) : { s with tables := t }.Inv := by
  refine { h with
    flag := hq.flag h.flag
    durable := fun j hd => h.durable j ((hq.durable j).symm.trans hd)
    phase := fun j => { h.phase j with
      captured := fun v hv => hq.captured j ▸ (h.phase j).captured v hv
      waiting := fun q hget hseq => ?_
      cleared := fun row hrow hseq hcl =>
        (hq.durable j).trans ((h.phase j).cleared row hrow hseq hcl) }
    ops := fun o j v hv => ?_ }
  · rcases hq.seq j q hget with hold | ⟨hnew, hdur, hle, hlt⟩
    · exact (h.phase j).waiting q hold hseq
    · exact (hord j hnew hdur q.seq hseq).elim hle.not_gt hlt.not_ge
  · refine (h.ops o j v hv).imp_right (Or.imp_right (Or.imp_left fun ⟨hw, hm⟩ => ⟨hw, ?_⟩))
    exact hm.imp_left fun hold => (hq.isQueued j).mpr (.inl hold)

theorem noteAt (path : Option Path) (m : Mutation)
    (hord : s.tables.durable i = false → (s.flush i).seq? ≠ some s.tables.markSeq) :
    { s with tables := s.tables.noteAt i path m }.Inv := by
  refine (h.recapture fun hd => isDirty_note (.inl hd)).queue (s.tables.queues_noteAt i path m) ?_
  rintro j rfl hdur seq hseq
  have hne : seq ≠ s.tables.markSeq := fun heq => hord hdur (heq ▸ hseq)
  exact hne.lt_or_gt

theorem publishDone (hfl : s.flush i = .took seq epoch upto) :
    (s.publish i seq epoch upto .done).Inv := by
  obtain ⟨hpub, hver⟩ := (h.phase_of hfl).upto _ _ _ rfl
  have hle : s.published ≤ update s.published i upto := le_update_self_iff.mpr hpub
  have hraised : { s with published := update s.published i upto }.Inv := by
    refine { h with
      published := update_le_iff.mpr ⟨hver, fun j _ => h.published j⟩
      phase := fun j => { h.phase j with
        upto := fun seq' epoch' upto' htook => ?_
        captured := fun v hv =>
          ((h.phase j).captured v hv).imp_right (Or.imp_right (·.trans (hle j))) }
      ops := fun o j v hv => (h.ops o j v hv).imp_left (·.trans (hle j))
      acked := fun j v hv => (h.acked j v hv).imp_left (·.trans (hle j)) }
    refine ((h.phase j).upto _ _ _ htook).imp_left fun hpub' => ?_
    rcases eq_or_ne j i with rfl | hj
    · cases hfl.symm.trans htook
      exact (update_self ..).le
    · exact (update_of_ne hj ..).le.trans hpub'
  -- what the flush carried is published
  refine hraised.setFlush { hraised.phase_of hfl with
    upto := nofun
    captured := fun v hv => ?_
    cleared := nofun } (.inl nofun)
  rcases (h.phase_of hfl).captured v hv with hd | ⟨-, hle'⟩ | hle'
  · exact .inl hd
  · exact .inr (.inr (hle'.trans (update_self i upto s.published).ge))
  · exact .inr (.inr (hle'.trans (hle i)))

/-- What was taken is captured again. -/
theorem publishFailed (hfl : s.flush i = .took seq epoch upto) :
    (s.publish i seq epoch upto .failed).Inv := by
  refine (h.recapture fun hd => isDirty_mergeBack (.inl hd)).stop fun v hcar => ?_
  have hdirty : epoch.isDirty := by
    rw [show (_ : Server ω).flush i = _ from hfl] at hcar
    exact hcar.1
  exact (congrArg isDirty (update_self ..)).trans (isDirty_mergeBack (.inr hdirty))

theorem publish (hfl : s.flush i = .took seq epoch upto) (how : Publish) :
    (s.publish i seq epoch upto how).Inv := by
  cases how with
  | done => exact h.publishDone hfl
  | failed => exact h.publishFailed hfl
  | foreign =>
    refine (h.publishFailed hfl).noteAt none .whole fun _ => ?_
    rw [Server.publish, setFlush_self]
    nofun

theorem skip (hfl : s.flush i = .took seq epoch upto) (hclean : epoch.isDirty = false) :
    (s.setFlush i (.clearing seq)).Inv := by
  have hp := h.phase_of hfl
  refine h.setFlush { hp with upto := nofun, captured := fun v hv => ?_, cleared := nofun }
    (.inl nofun)
  exact (hp.captured v hv).imp_right
    (Or.imp_left fun hcar => absurd hcar.1 (eq_false_iff.mp hclean))

theorem clear (hfl : s.flush i = .clearing seq) :
    ({ s with tables := s.tables.clearDurable i }.setFlush i (.cleared seq)).Inv := by
  have hle : update s.tables.durable i false ≤ s.tables.durable :=
    update_le_self_iff.mpr (Bool.false_le _)
  have hforgot : { s with tables := s.tables.clearDurable i }.Inv :=
    { h with
      durable := fun j hd => h.durable j (hle j hd)
      phase := fun j => { h.phase j with
        cleared := fun row hrow hseq hcl =>
          Bool.eq_false_of_le_false ((hle j).trans_eq ((h.phase j).cleared row hrow hseq hcl)) } }
  exact hforgot.setFlush { hforgot.phase_of hfl with
    upto := nofun
    cleared := fun _ _ _ _ => update_self .. } (.inl nofun)

/-- The flush ends without a deletion: there is a row, and the memo may say so. -/
theorem prime (hseq : (s.flush i).seq? = some seq) (hno : ∀ v, ¬(s.flush i).carries v) :
    ({ s with tables := s.tables.primeDurable i }.setFlush i .idle).Inv := by
  have hidle : (s.setFlush i .idle).Inv := h.stop fun v hcar => absurd hcar (hno v)
  refine { hidle with
    durable := (forall_update_iff s.tables.durable fun j d => d → (s.rows j).isSome).mpr
      ⟨fun _ => (h.phase i).listed seq hseq, fun j _ => h.durable j⟩
    phase := fun j => { hidle.phase j with cleared := fun row hrow hseq hcl => ?_ } }
  rcases eq_or_ne j i with rfl | hj
  · rw [setFlush_self] at hseq
    cases hseq
  · exact (update_of_ne hj ..).trans ((hidle.phase j).cleared row hrow hseq hcl)

/-- If nothing was captured since the flush began, every change is in a generation. -/
theorem inspect (hfl : s.flush i = .cleared seq) : (s.inspect i seq).Inv := by
  rw [Server.inspect]
  split
  · exact h.prime (by rw [hfl]; rfl) (by rw [hfl]; nofun)
  · next hno =>
    have hp := h.phase_of hfl
    refine h.setFlush { hp with upto := nofun } (.inr fun v hv => ?_)
    rcases hp.captured v hv with hd | hcar | hle
    · exact absurd (or_eq_true_iff.mpr (.inl hd)) hno
    · cases hcar
    · exact hle

/-- The row is as it was listed, so its bit is not known, and nobody is about to confirm it. -/
theorem deleteListed {row : DirtyRow} (hfl : s.flush i = .checked row.seq)
    (hrow : s.rows i = some row) :
    ({ s with rows := update s.rows i none }.setFlush i .idle).Inv := by
  have hp := h.phase_of hfl
  have hdur := hp.cleared row hrow rfl rfl
  have hstays : ∀ j, j ≠ i → update s.rows i none j = s.rows j := fun j hj => update_of_ne hj ..
  have hsafe : ∀ j, s.Safe j →
      ({ s with rows := update s.rows i none }.setFlush i .idle).Safe j := by
    rintro j ⟨row', hrow', hno⟩
    have hj : j ≠ i := by grind
    exact ⟨row', (hstays j hj).trans hrow', by rwa [setFlush_of_ne hj]⟩
  refine { h with
    durable := fun j hd => ?_
    written := fun o p hwr => ?_
    phase := (forall_update_iff s.flush fun j =>
      ({ s with rows := update s.rows i none }.setFlush i .idle).Phase j).mpr
        ⟨.idle fun v hv => (hp.captured v hv).imp_right (·.resolve_left id), fun j hj => ?_⟩
    ops := fun o j v hv => (h.ops o j v hv).imp_right (Or.imp_left (hsafe j))
    acked := fun j v hv => (h.acked j v hv).imp_right (hsafe j) }
  · have hj : j ≠ i := fun hj => eq_false_iff.mp hdur (hj ▸ hd)
    exact (congrArg _ (hstays j hj)).trans (h.durable j hd)
  · have hj := hp.unwritten row hrow rfl o p hwr
    exact (congrArg _ (hstays _ hj)).trans (h.written o p hwr)
  · exact { h.phase j with
      listed := fun seq hseq => (congrArg _ (hstays j hj)).trans ((h.phase j).listed seq hseq)
      unwritten := fun r hr => (h.phase j).unwritten r ((hstays j hj).symm.trans hr)
      cleared := fun r hr => (h.phase j).cleared r ((hstays j hj).symm.trans hr) }

theorem delete (hfl : s.flush i = .checked seq) (ok : Bool) : (s.delete i seq ok).Inv := by
  have hno : ∀ v, ¬(s.flush i).carries v := by rw [hfl]; nofun
  rw [Server.delete]
  split
  · rw [clearDirtyIfSeq]
    split
    · next hany =>
      obtain ⟨row, hrow, hseq⟩ := (any_eq_true ..).mp hany
      exact h.deleteListed (beq_iff_eq.mp hseq ▸ hfl) hrow
    · exact h.stop fun v hcar => absurd hcar (hno v)
  · exact h.prime (by rw [hfl]; rfl) hno

/-- The files that have a row are captured as a whole. -/
theorem restart : s.restart.Inv := by
  have hacked : ∀ i v, s.restart.Tracked i v → (i, v) ∈ s.acked := fun i v hv => hv.elim id nofun
  have hsafe : ∀ i v, (i, v) ∈ s.acked → v ≤ s.published i ∨ s.restart.Safe i := fun i v hv =>
    (h.acked i v hv).imp_right fun ⟨row, hrow, _⟩ => ⟨row, hrow, nofun⟩
  refine ⟨fun _ _ => rfl, fun i v hv => h.versions i v (.inl (hacked i v hv)), fun i => id, nofun,
    h.published, fun i => .idle fun v hv => ?_, nofun, hsafe⟩
  rcases hsafe i v (hacked i v hv) with hle | ⟨row, hrow, -⟩
  · exact .inr hle
  · exact .inl ((congrArg isDirty (if_pos (congrArg isSome hrow))).trans
      (isDirty_note (.inr rfl)))

/-! ### Operations -/

theorem ops_of {o : ω} {op : Op} (hop : s.ops o = op) : ∀ j v, (j, v) ∈ op.changes →
    v ≤ s.published j ∨ s.Safe j ∨ s.OnItsWay j op := hop ▸ h.ops o

/-- A row that is written has the number of its mark, which no flush has listed. -/
theorem markDirty {marks : List PendingMark}
    (hhand : ∀ p ∈ marks, (s.flush p.ident).seq? ≠ some p.seq) :
    { s with rows := Tier.markDirty s.rows marks }.Inv := by
  have hsome : ∀ j, (s.rows j).isSome → (Tier.markDirty s.rows marks j).isSome := fun j => by
    grind [markDirty_cases s.rows marks j]
  have hold : ∀ j row, Tier.markDirty s.rows marks j = some row →
      (s.flush j).seq? = some row.seq → s.rows j = some row := fun j => by
    grind [markDirty_cases s.rows marks j]
  have hsafe : ∀ j, s.Safe j → { s with rows := Tier.markDirty s.rows marks }.Safe j := by
    rintro j ⟨row, hrow, hno⟩
    obtain ⟨row', hrow'⟩ := isSome_iff_exists.mp (hsome j (congrArg _ hrow))
    refine ⟨row', hrow', fun hfl => hno ?_⟩
    have hsame := hold j row' hrow' (congrArg Flush.seq? hfl)
    exact some.inj (hsame.symm.trans hrow) ▸ hfl
  exact { h with
    durable := fun j hd => hsome j (h.durable j hd)
    written := fun o p hp => hsome _ (h.written o p hp)
    phase := fun j => { h.phase j with
      listed := fun seq hseq => hsome j ((h.phase j).listed seq hseq)
      unwritten := fun row hrow hseq => (h.phase j).unwritten row (hold j row hrow hseq) hseq
      cleared := fun row hrow hseq => (h.phase j).cleared row (hold j row hrow hseq) hseq }
    ops := fun o j v hv => (h.ops o j v hv).imp_right (Or.imp_left (hsafe j))
    acked := fun j v hv => (h.acked j v hv).imp_right (hsafe j) }

section Operations

variable [DecidableEq ω] {o : ω} {changes : Changes} {marks : List PendingMark}

/-- An operation goes on. What it has changed since is captured, what it has written is new to the
flush of the file, and a mark that it held is still held or queued, or the file is safe. -/
theorem setOp {old op : Op} (hop : s.ops o = old)
    (hch : ∀ j v, (j, v) ∈ op.changes →
      (j, v) ∈ old.changes ∨ v ≤ s.version j ∧ (s.tables.captured j).isDirty)
    (hwr : ∀ p ∈ op.written, ∃ row, s.rows p.ident = some row ∧
      (s.flush p.ident).seq? ≠ some row.seq)
    (hhand : ∀ p ∈ op.inHand, (s.flush p.ident).seq? ≠ some p.seq)
    (hheld : ∀ p ∈ old.held, (s.setOp o op).Marked p.ident ∨ s.Safe p.ident)
    (hops : ∀ j v, (j, v) ∈ op.changes → v ≤ s.published j ∨ s.Safe j ∨ s.OnItsWay j op) :
    (s.setOp o op).Inv := by
  subst hop
  have htr : ∀ j v, (s.setOp o op).Tracked j v →
      s.Tracked j v ∨ v ≤ s.version j ∧ (s.tables.captured j).isDirty := by
    rintro j v (hv | hv)
    · exact .inl (.inl hv)
    · rcases (exists_update_iff s.ops fun _ op => (j, v) ∈ op.changes).mp hv with hv | ⟨o', -, hv⟩
      · exact (hch j v hv).imp_left fun hv => .inr ⟨o, hv⟩
      · exact .inl (.inr ⟨o', hv⟩)
  have hmk : ∀ j, s.Marked j → (s.setOp o op).Marked j ∨ s.Safe j := by
    rintro j (hq | ⟨o', p, hp, rfl⟩)
    · exact .inl (.inl hq)
    · rcases eq_or_ne o' o with rfl | ho
      · exact hheld p hp
      · exact .inl (.inr ⟨o', p, by rwa [setOp_of_ne ho], rfl⟩)
  have hway : ∀ j v op', v ≤ s.published j ∨ s.Safe j ∨ s.OnItsWay j op' →
      v ≤ s.published j ∨ s.Safe j ∨ (s.setOp o op).OnItsWay j op' := by
    rintro j v op' (hle | hs | ⟨hw, hm⟩ | hin)
    · exact .inl hle
    · exact .inr (.inl hs)
    · exact .inr ((hmk j hm).symm.imp_right fun hm => .inl ⟨hw, hm⟩)
    · exact .inr (.inr (.inr hin))
  refine { h with
    versions := fun j v hv => (htr j v hv).elim (h.versions j v) And.left
    written := (forall_update_iff s.ops fun _ op => ∀ p ∈ op.written, (s.rows p.ident).isSome).mpr
      ⟨fun p hp => (hwr p hp).elim fun row hrow => congrArg _ hrow.1, fun o _ => h.written o⟩
    phase := fun j => { h.phase j with
      captured := fun v hv => (htr j v hv).elim ((h.phase j).captured v) fun hnew => .inl hnew.2
      unwritten := fun row hrow hseq =>
        (forall_update_iff s.ops fun _ op => ∀ p ∈ op.written, p.ident ≠ j).mpr
          ⟨?_, fun o _ => (h.phase j).unwritten row hrow hseq o⟩
      inHand := (forall_update_iff s.ops fun _ op => ∀ p ∈ op.inHand, p.ident = j →
          (s.flush j).seq? ≠ some p.seq).mpr
        ⟨fun p hp hid => hid ▸ hhand p hp, fun o _ => (h.phase j).inHand o⟩ }
    ops := (forall_update_iff s.ops fun _ op' => ∀ j v, (j, v) ∈ op'.changes →
      v ≤ s.published j ∨ s.Safe j ∨ (s.setOp o op).OnItsWay j op').mpr
        ⟨fun j v hv => hway j v op (hops j v hv), fun o' _ j v hv => hway j v _ (h.ops o' j v hv)⟩ }
  rintro p hp rfl
  obtain ⟨row', hrow', hno⟩ := hwr p hp
  exact hno (some.inj (hrow.symm.trans hrow') ▸ hseq)

theorem check (events : Bool) (hop : s.ops o = .noted changes)
    (hord : (s.tables.hasPending || events) = false → ∀ c ∈ changes, ¬s.Held c.1) :
    (s.setOp o (if s.tables.hasPending || events then .due changes else .passed changes)).Inv := by
  split
  · exact h.setOp hop (fun _ _ => .inl) nofun nofun nofun fun j v hv => h.ops_of hop j v hv
  · next hno =>
    -- no mark is queued, and no other operation has one of these files
    have hno := eq_false_iff.mpr hno
    refine h.setOp hop (fun _ _ => .inl) nofun nofun nofun
      fun j v hv => (h.ops_of hop j v hv).imp_right (Or.imp_right fun hway => ?_)
    have hq := eq_false_iff.mp (h.flag (or_eq_false_iff.mp hno).1 j)
    exact ((hway.resolve_right nofun).2.elim hq (hord hno _ hv)).elim

/-- The marks that were queued are in the hand of the operation. -/
theorem take (hop : s.ops o = .due changes) (hord : ∀ c ∈ changes, ¬s.Held c.1) :
    (s.take o changes).Inv := by
  rw [Server.take]
  generalize hnew : (if s.tables.waiting = [] then Op.passed changes
    else .draining changes s.tables.waiting) = op
  obtain ⟨hch, hwr, hhand⟩ :
      op.changes = changes ∧ op.written = [] ∧ op.inHand = s.tables.waiting := by
    grind [Op.changes, Op.written, Op.inHand]
  have hgo : (s.setOp o op).Inv := by
    refine h.setOp hop (fun _ _ => hch ▸ .inl) (by rw [hwr]; nofun) ?_ nofun fun j v hv => ?_
    · rw [hhand]
      exact fun p hp => (h.phase p.ident).waiting _ (mem_waiting.mp hp)
    · rw [hch] at hv
      refine (h.ops_of hop j v hv).imp_right (Or.imp_right fun hway => .inr ?_)
      rw [hhand]
      exact isQueued_iff_waiting.mp ((hway.resolve_right nofun).2.resolve_right (hord _ hv))
  refine { hgo with
    flag := fun _ _ => rfl
    phase := fun j => { hgo.phase j with waiting := nofun }
    ops := fun o' j v hv => (hgo.ops o' j v hv).imp_right (Or.imp_right (Or.imp_left ?_)) }
  refine fun ⟨hw, hm⟩ => ⟨hw, .inr (hm.elim (fun hq => ?_) id)⟩
  obtain ⟨p, hp, hid⟩ := isQueued_iff_waiting.mp hq
  exact ⟨o, p, by rw [setOp_self, Op.held, hhand]; exact List.mem_append_left _ hp, hid⟩

theorem commit (hop : s.ops o = .draining changes marks) (ok : Bool) :
    (s.commit o changes marks ok).Inv := by
  have hhand : ∀ p ∈ marks, (s.flush p.ident).seq? ≠ some p.seq := fun p hp =>
    (h.phase p.ident).inHand o p (by rwa [hop]) rfl
  have hheld : ∀ p ∈ (Op.draining changes marks).held, p ∈ marks := fun p hp =>
    (List.mem_append.mp hp).resolve_right nofun
  rw [Server.commit]
  split
  · have hnew : ∀ p ∈ marks, ∃ row, Tier.markDirty s.rows marks p.ident = some row ∧
        (s.flush p.ident).seq? ≠ some row.seq := by
      intro p
      grind [markDirty_cases s.rows marks p.ident]
    have hsafe : ∀ p ∈ marks, { s with rows := Tier.markDirty s.rows marks }.Safe p.ident :=
      fun p hp => (hnew p hp).imp fun row hrow => hrow.imp_right (mt (congrArg Flush.seq?))
    have hwrt := h.markDirty hhand
    refine hwrt.setOp hop (fun _ _ => .inl) hnew nofun (fun p hp => .inr (hsafe p (hheld p hp)))
      fun j v hv => (hwrt.ops_of hop j v hv).imp_right fun hway => .inl ?_
    rcases hway with hs | hno | ⟨p, hp, rfl⟩
    · exact hs
    · cases hno.1
    · exact hsafe p hp
  · refine h.setOp hop nofun nofun nofun (fun p hp => .inl (.inr ⟨o, p, ?_, rfl⟩)) nofun
    rw [setOp_self]
    exact List.mem_append_right _ (hheld p hp)

/-- The rows of the marks were written, and no flush has listed them since. -/
theorem confirm (hop : s.ops o = .committed changes marks) :
    ({ s with tables := s.tables.confirmDurable marks }.setOp o (.passed changes)).Inv := by
  have hwr : ∀ j, (marks.any fun p => p.ident == j) → ∃ p ∈ (s.ops o).written, p.ident = j := by
    intro j hany
    obtain ⟨p, hp, hid⟩ := List.any_eq_true.mp hany
    exact ⟨p, by rwa [hop], beq_iff_eq.mp hid⟩
  have hconf : { s with tables := s.tables.confirmDurable marks }.Inv := by
    refine { h with
      durable := fun j hd => (or_eq_true_iff.mp hd).elim (h.durable j) fun hany => ?_
      phase := fun j => { h.phase j with
        cleared := fun row hrow hseq hcl => or_eq_false_iff.mpr
          ⟨(h.phase j).cleared row hrow hseq hcl, eq_false_iff.mpr fun hany => ?_⟩ } }
    · obtain ⟨p, hp, rfl⟩ := hwr j hany
      exact h.written o p hp
    · obtain ⟨p, hp, hid⟩ := hwr j hany
      exact (h.phase j).unwritten row hrow hseq o p hp hid
  exact hconf.setOp hop (fun _ _ => .inl) nofun nofun nofun fun j v hv => h.ops_of hop j v hv

theorem requeue (hop : s.ops o = .failed marks)
    (hord : ∀ p ∈ marks, ∀ seq, (s.flush p.ident).seq? = some seq →
      seq < s.tables.markSeq ∨ s.tables.markSeq + marks.length ≤ seq) :
    ({ s with tables := s.tables.requeue marks }.setOp o .idle).Inv := by
  have hq := s.tables.queues_requeue marks
  have hback := h.queue hq (by rintro j ⟨p, hp, rfl⟩ -; exact hord p hp)
  refine hback.setOp hop nofun nofun nofun (fun p hp => ?_) nofun
  cases hdur : s.tables.durable p.ident with
  | true => exact .inr (h.safe_of_durable hdur)
  | false => exact .inl (.inl ((hq.isQueued _).mpr (.inr ⟨⟨p, hp, rfl⟩, hdur⟩)))

theorem ack (hop : s.ops o = .passed changes) :
    ({ s with acked := changes ++ s.acked }.setOp o .idle).Inv := by
  have htr : ∀ j v, { s with acked := changes ++ s.acked }.Tracked j v → s.Tracked j v := by
    rintro j v (hv | hv)
    · exact (List.mem_append.mp hv).symm.imp_right fun hv => ⟨o, by rwa [hop]⟩
    · exact .inr hv
  have hack : { s with acked := changes ++ s.acked }.Inv :=
    { h with
      versions := fun j v hv => h.versions j v (htr j v hv)
      phase := fun j => { h.phase j with
        captured := fun v hv => (h.phase j).captured v (htr j v hv) }
      acked := fun j v hv => (List.mem_append.mp hv).elim
        (fun hv => (h.ops_of hop j v hv).imp_right (·.resolve_right nofun)) (h.acked j v) }
  exact hack.setOp hop nofun nofun nofun nofun nofun

/-- A new change is captured, and its mark is queued unless the file has a row that is known. -/
theorem note (hop : (s.ops o).open? = some changes) (path : Option Path) (m : Mutation)
    (hord : s.tables.durable i = false → (s.flush i).seq? ≠ some s.tables.markSeq) :
    (s.note o changes i path m).Inv := by
  have hq := s.tables.queues_noteAt i path m
  have hnoted := h.noteAt path m hord
  rw [Server.note]
  generalize hver : (if m.isEmpty then s.version else
    update s.version i (s.version i + 1)) = version
  have hle : s.version ≤ version := by
    rw [← hver]
    split
    · exact le_rfl
    · exact le_update_self_iff.mpr (Nat.le_succ _)
  have hlater : { s with tables := s.tables.noteAt i path m, version }.Inv :=
    { hnoted with
      versions := fun j v hv => (hnoted.versions j v hv).trans (hle j)
      published := fun j => (hnoted.published j).trans (hle j)
      phase := fun j => { hnoted.phase j with
        upto := fun _ _ _ htk =>
          ((hnoted.phase j).upto _ _ _ htk).imp_right (·.trans (hle j)) } }
  have hnew : ∀ j v, (j, v) ∈ (if m.isEmpty then [] else [(i, s.version i + 1)]) →
      j = i ∧ m.isEmpty = false ∧ v ≤ version i := by
    intro j v hv
    split at hv
    · cases hv
    · next hm =>
      cases List.mem_singleton.mp hv
      exact ⟨rfl, eq_false_iff.mpr hm, by rw [← hver, if_neg hm, update_self]⟩
  obtain ⟨hch, hheld, hold⟩ : (s.ops o).changes = changes ∧ (s.ops o).held = [] ∧
      ∀ all j v, (j, v) ∈ changes → v ≤ s.published j ∨ s.Safe j ∨
        { s with tables := s.tables.noteAt i path m, version }.OnItsWay j (.noted all) := by
    cases hcase : s.ops o <;> rw [hcase] at hop <;> cases hop
    · exact ⟨rfl, rfl, nofun⟩
    · exact ⟨rfl, rfl, fun all j v hv => hlater.ops_of hcase j v hv⟩
  refine hlater.setOp rfl (fun j v hv => ?_) nofun nofun (hheld ▸ nofun) fun j v hv => ?_
  · refine (List.mem_append.mp hv).imp (hch ▸ id) fun hv => ?_
    obtain ⟨rfl, hm, hle⟩ := hnew j v hv
    refine ⟨hle, (congrArg isDirty ((hq.captured j).trans (update_self ..))).trans ?_⟩
    exact isDirty_note (.inr hm)
  · refine (List.mem_append.mp hv).elim (hold _ j v) fun hv => .inr ?_
    obtain ⟨rfl, -⟩ := hnew j v hv
    cases hdur : s.tables.durable j with
    | true => exact .inl (h.safe_of_durable hdur)
    | false => exact .inr (.inl ⟨rfl, .inl ((hq.isQueued j).mpr (.inr ⟨rfl, hdur⟩))⟩)

end Operations

end Inv

/-! ### Runs -/

section Runs

variable [DecidableEq ω]

/-- The step does not come in between what another operation or a flush has begun. -/
def Ordered (s : Server ω) : Action ω → Prop
  -- a new mark does not get the number that a flush has listed
  | .note _ i _ _ => s.tables.durable i = false → (s.flush i).seq? ≠ some s.tables.markSeq
  -- no other operation has a mark of the files that this one changed
  | .check o events =>
    (s.tables.hasPending || events) = false → ∀ c ∈ (s.ops o).changes, ¬s.Held c.1
  | .take o => ∀ c ∈ (s.ops o).changes, ¬s.Held c.1
  | .settle o => ∀ p ∈ (s.ops o).returned, ∀ seq ∈ (s.flush p.ident).seq?,
      seq < s.tables.markSeq ∨ s.tables.markSeq + (s.ops o).returned.length ≤ seq
  -- nobody is about to confirm the row, and no mark that is not written has its number
  | .list i => ∀ row ∈ s.rows i, (∀ o, ∀ p ∈ (s.ops o).written, p.ident ≠ i) ∧
      (∀ q ∈ s.tables.queued.get? i, q.seq ≠ row.seq) ∧
      ∀ o, ∀ p ∈ (s.ops o).inHand, p.ident = i → p.seq ≠ row.seq
  | _ => True

theorem Inv.step (h : s.Inv) (a : Action ω) (hord : s.Ordered a) : (s.step a).Inv := by
  cases a <;> rw [Server.step]
  case note o i path m =>
    split
    · next hop => exact h.note hop path m hord
    · exact h
  case check o events =>
    split
    · next hop => exact h.check events hop fun hflag c hc => hord hflag c (by rwa [hop])
    · exact h
  case take o =>
    split
    · next hop => exact h.take hop fun c hc => hord c (by rwa [hop])
    · exact h
  case commit o ok =>
    split
    · next hop => exact h.commit hop ok
    · exact h
  case settle o =>
    split
    · next hop => exact h.confirm hop
    · next hop =>
      rw [Ordered, hop] at hord
      exact h.requeue hop hord
    · exact h
  case ack o =>
    split
    · next hop => exact h.ack hop
    · exact h
  case list i =>
    split
    · next row hfl hrow =>
      obtain ⟨hwr, hqueued, hhand⟩ := hord row hrow
      exact h.list hfl hrow hwr hqueued hhand
    · exact h
  case giveUp i =>
    split
    · next hfl => exact h.stop (by rw [hfl]; nofun)
    · exact h
  case takeEpoch i =>
    split
    · next hfl => exact h.takeEpoch hfl
    · exact h
  case publish i how =>
    split
    · next hfl => exact h.publish hfl how
    · exact h
  case skip i =>
    split
    · next hfl =>
      split
      · exact h
      · next hclean => exact h.skip hfl (eq_false_iff.mpr hclean)
    · exact h
  case clear i =>
    split
    · next hfl => exact h.clear hfl
    · exact h
  case inspect i =>
    split
    · next hfl => exact h.inspect hfl
    · exact h
  case delete i ok =>
    split
    · next hfl => exact h.delete hfl ok
    · exact h
  case restart => exact h.restart

/-- In a run of such steps, a change that was acknowledged and that no generation contains has a
dirty row. -/
theorem acked_has_row {l : List (Action ω)} (h : Steps step Ordered start l) {i : Ident} {v : ℕ}
    (hacked : (i, v) ∈ (run step start l).acked) (hpub : (run step start l).published i < v) :
    ((run step start l).rows i).isSome := by
  have hinv : (run step start l).Inv :=
    run_invariant_of_steps (fun _ a hs ha => hs.step a ha) .start h
  rcases hinv.acked i v hacked with hle | ⟨row, hrow, -⟩
  · exact absurd hpub (Nat.not_lt.mpr hle)
  · rw [hrow]
    rfl

instance (s : Server Bool) (i : Ident) : Decidable (s.Held i) := by
  unfold Held
  infer_instance

instance (s : Server Bool) (a : Action Bool) : Decidable (s.Ordered a) := by
  unfold Ordered
  split <;> infer_instance

end Runs

def marked (o : Bool) (i : Ident) : List (Action Bool) :=
  [.note o i none (.write 0 1), .check o false, .take o, .commit o true]

def flushed (i : Ident) : List (Action Bool) :=
  [.list i, .takeEpoch i, .publish i .done, .clear i, .inspect i]

/-- Two operations, each with its own file, and a flush in which one of the files is changed again.
-/
theorem rows_kept : ((run step start (marked true (1, 1) ++ [.settle true, .ack true] ++
      flushed (1, 1) ++ marked false (1, 1) ++
        [.settle false, .ack false, .delete (1, 1) true])).rows
        (1, 1)).isSome :=
  acked_has_row (by decide) (show ((1, 1), 2) ∈ _ by decide) (by decide)

/-- One operation takes the mark of the other, which is acknowledged before the mark is written. -/
def takenByAnother : List (Action Bool) :=
  [.note true (1, 1) none (.write 0 1), .note false (2, 1) none (.write 0 1), .check false false,
    .take false, .check true false, .ack true]

/-- The row is listed, flushed and deleted before it is confirmed. -/
def listedUnconfirmed : List (Action Bool) :=
  marked true (1, 1) ++ flushed (1, 1) ++ [.delete (1, 1) true, .settle true, .ack true,
    .note false (1, 1) none (.write 0 1), .check false false, .ack false]

/-- After a restart the first mark has the number of the row that a flush is about to delete. -/
def numberRepeats : List (Action Bool) :=
  marked true (1, 1) ++ [.restart] ++ flushed (1, 1) ++ marked false (1, 1) ++
    [.settle false, .ack false, .delete (1, 1) true]

/-- A change was acknowledged that is in no generation and has no row. -/
def Lost (s : Server Bool) (i : Ident) (v : ℕ) : Prop :=
  (i, v) ∈ s.acked ∧ s.published i < v ∧ s.rows i = none

instance (s : Server Bool) (i : Ident) (v : ℕ) : Decidable (s.Lost i v) := by
  unfold Lost
  infer_instance

/-- Each of the three runs loses a change. -/
theorem marks_lost : (run step start takenByAnother).Lost (1, 1) 1 ∧
    (run step start listedUnconfirmed).Lost (1, 1) 2 ∧
    (run step start numberRepeats).Lost (1, 1) 2 := by
  decide

end Server

end Flint.Tier.Marks
