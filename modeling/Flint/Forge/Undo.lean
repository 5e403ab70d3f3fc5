import Flint.Forge.Restorable

/-!
# Undo points keep their packs

An undo point is a copy of a snapshot that a push made unreachable, and nothing but the copy names
its packs any more. Two sweeps delete packs that nothing names; each spares the packs of the undo
points it reads, and reads only the newest points, up to a configured number. So the result is for
the runs in which every pass reads the young points (`Reads`) and not beyond
(`unread_point_loses_packs`).
-/

namespace Flint.Forge.Packs

open Outcome Repo SortedSet List Option

variable {ν : Type} {O : Objects ν} {C : Config} {s s' : Repo ν}

/-! ### The bucket -/

structure Consistent (s : Repo ν) : Prop where
  uploaded : ∀ p ∈ s.snap.packs, s.Uploaded p
  built : ∀ fold ∈ s.fold, ∀ b ∈ fold.built, s.Uploaded b.1
  cell : ∀ c ∈ s.cell, c = s.snap
  past : ∀ q ∈ s.points, q.snap.seq ≤ s.snap.seq
  copy : ∀ q ∈ s.points, q.snap.seq = s.snap.seq → q.snap = s.snap
  dated : ∀ q ∈ s.points, q.time ≤ s.clock

/-- What a step other than a pass has done to the bucket since `s`. -/
structure Advances (s s' : Repo ν) : Prop where
  clock : s.clock ≤ s'.clock
  files : ∀ f, (s.files f).isSome → (s'.files f).isSome
  points : s'.points = s.points ∨ s'.points = (writePoint s s.snap).points
  snap : s'.snap = s.snap ∨ s'.snap.seq = s.snap.seq + 1
  uploaded : ∀ p ∈ s'.snap.packs, s'.Uploaded p
  built : ∀ fold ∈ s'.fold, ∀ b ∈ fold.built, s'.Uploaded b.1
  cell : ∀ c ∈ s'.cell, c = s'.snap

namespace Advances

theorem refl (h : Consistent s) : Advances s s :=
  ⟨le_rfl, fun _ => id, .inl rfl, .inl rfl, h.uploaded, h.built, h.cell⟩

variable (h : Advances s s')

include h

theorem keeps {p : ν} (hp : s.Uploaded p) : s'.Uploaded p := ⟨h.files _ hp.1, h.files _ hp.2⟩

theorem locally (disk : List (File ν)) (retained : List (Retained ν))
    (ledger : List (LedgerEntry ν)) (serving : Bool) :
    Advances s
      { s' with disk, retained, ledger, serving } :=
  { h with }

theorem ended : Advances s s'.ended :=
  { h with built := nofun, cell := nofun }

theorem setFold {fold : Option (Fold ν)}
    (hblt : ∀ f ∈ fold, ∀ b ∈ f.built, s'.Uploaded b.1) : Advances s { s' with fold } :=
  { h with built := hblt }

theorem keepPoint (hclock : s'.clock = s.clock) (hpoints : s'.points = s.points)
    (accepted : List RefUpdate) (point : Bool) :
    Advances s (Packs.keepPoint O C s' s.snap accepted point) := by
  rw [Packs.keepPoint]
  split
  · refine { h with points := .inr ?_ }
    rw [writePoint, writePoint, hclock, hpoints]
  · exact h

theorem cas {next : Snapshot ν} (hseq : next.seq = s.snap.seq + 1)
    (hpks : ∀ p ∈ next.packs, s'.Uploaded p) (c : CasEnd) : Advances s (s'.cas next c) := by
  have hlan : Advances s { s' with snap := next, cell := some next } :=
    { h with snap := .inr hseq, uploaded := hpks, cell := by simp }
  cases c with
  | landed => exact hlan
  | lost => exact hlan.ended
  | failed => exact h.ended

end Advances

namespace Consistent

theorem start : Consistent (start : Repo ν) where
  uploaded := nofun
  built := nofun
  cell := nofun
  past := nofun
  copy := nofun
  dated := nofun

theorem mem_points_of_advances (h : Advances s s') {q : UndoPoint ν} (hq : q ∈ s'.points) :
    q = ⟨s.clock, s.snap⟩ ∨ q ∈ s.points := by
  rcases h.points with hsm | hwr
  · exact .inr (hsm ▸ hq)
  · rw [hwr] at hq
    exact (mem_cons.mp hq).imp id fun hq => (mem_filter.mp hq).1

theorem advances (h : Consistent s) (hadv : Advances s s') : Consistent s' := by
  have hpt : ∀ q ∈ s'.points, q.snap.seq ≤ s.snap.seq ∧
      (q.snap.seq = s.snap.seq → q.snap = s.snap) ∧
      q.time ≤ s.clock := by
    intro q hq
    rcases mem_points_of_advances hadv hq with rfl | hq
    · exact ⟨le_rfl, fun _ => rfl, le_rfl⟩
    · exact ⟨h.past q hq, h.copy q hq, h.dated q hq⟩
  have hdated : ∀ q ∈ s'.points, q.time ≤ s'.clock := fun q hq => (hpt q hq).2.2.trans hadv.clock
  rcases hadv.snap with hsm | hnx
  · refine ⟨hadv.uploaded, hadv.built, hadv.cell, fun q hq => ?_, fun q hq hseq => ?_, hdated⟩
    · rw [hsm]
      exact (hpt q hq).1
    · rw [hsm] at hseq ⊢
      exact (hpt q hq).2.1 hseq
  · refine ⟨hadv.uploaded, hadv.built, hadv.cell, fun q hq => ?_, fun q hq hseq => ?_, hdated⟩
    · exact (hpt q hq).1.trans (hnx ▸ Nat.le_succ _)
    · -- the new generation has no copy yet
      have hle := (hpt q hq).1
      omega

end Consistent

structure Pruned (C : Config) (now : ℕ) (s s' : Repo ν) : Prop where
  idle : s.fold = none
  clock : s'.clock = s.clock
  snap : s'.snap = s.snap
  cell : s'.cell = s.cell
  fold : s'.fold = s.fold
  files : ∀ f, f.name ∈ s.snap.packs ++ undoStems C s now → s'.files f = s.files f
  subset : ∀ q ∈ s'.points, q ∈ s.points
  points : ∀ q ∈ s.points, q ∉ expired C s now → q ∈ s'.points

theorem Consistent.pruned (h : Consistent s) {now : ℕ} (hprn : Pruned C now s s') :
    Consistent s' where
  uploaded p hp := by
    rw [hprn.snap] at hp
    have hkp : ∀ e, s'.files ⟨p, e⟩ = s.files ⟨p, e⟩ := fun e =>
      hprn.files _ (mem_append.mpr (.inl hp))
    rw [Uploaded, hkp, hkp]
    exact h.uploaded p hp
  built := by
    simp [hprn.fold, hprn.idle]
  cell := by
    rw [hprn.cell, hprn.snap]
    exact h.cell
  past q hq := hprn.snap ▸ h.past q (hprn.subset q hq)
  copy q hq := hprn.snap ▸ h.copy q (hprn.subset q hq)
  dated q hq := hprn.clock ▸ h.dated q (hprn.subset q hq)

/-! ### One undo point -/

structure Recoverable (had : File ν → Option ℕ) (q : UndoPoint ν) (s : Repo ν) : Prop where
  point : ∃ q' ∈ s.points, q'.snap = q.snap ∧ q.time ≤ q'.time
  files : ∀ f, f.name ∈ q.snap.packs → (had f).isSome → (s.files f).isSome

section Point

variable {had : File ν → Option ℕ} {q : UndoPoint ν} {now : ℕ}

/-- A copy is written over only by a copy of the same snapshot. -/
theorem Recoverable.advances (h : Recoverable had q s) (hs : Consistent s) (hadv : Advances s s') :
    Recoverable had q s' := by
  refine ⟨?_, fun f hf hhad => hadv.files f (h.files f hf hhad)⟩
  obtain ⟨q', hq', hsn, htm⟩ := h.point
  rcases hadv.points with hsm | hwr
  · exact ⟨q', hsm ▸ hq', hsn, htm⟩
  · rw [hwr]
    by_cases hseq : q'.snap.seq = s.snap.seq
    · exact ⟨⟨s.clock, s.snap⟩, .head _, (hs.copy q' hq' hseq).symm.trans hsn,
        htm.trans (hs.dated q' hq')⟩
    · exact ⟨q', .tail _ (mem_filter.mpr ⟨hq', decide_eq_true hseq⟩), hsn, htm⟩

theorem isOld_of_young (h : now - q.time < C.undoWindow) : isOld C now q = false :=
  decide_eq_false (Nat.not_le.mpr h)

theorem mem_undoStems (hq : q ∈ newestPoints C s) (hyng : now - q.time < C.undoWindow) {p : ν}
    (hp : p ∈ q.snap.packs) : p ∈ undoStems C s now := by
  rw [undoStems, if_neg (Nat.ne_of_gt (Nat.zero_lt_of_lt hyng))]
  refine mem_flatMap.mpr ⟨q, mem_filter.mpr ⟨hq, ?_⟩, hp⟩
  rw [isOld_of_young hyng]
  rfl

theorem not_mem_expired (hyng : now - q.time < C.undoWindow) : q ∉ expired C s now := by
  rw [expired, if_neg (Nat.ne_of_gt (Nat.zero_lt_of_lt hyng))]
  intro hmem
  have hold := (mem_filter.mp hmem).2
  rw [isOld_of_young hyng] at hold
  cases hold

theorem Recoverable.pruned (h : Recoverable had q s) (hprn : Pruned C now s s')
    (hrds : ∀ q ∈ s.points, now - q.time < C.undoWindow → q ∈ newestPoints C s)
    (hyng : now - q.time < C.undoWindow) : Recoverable had q s' := by
  obtain ⟨q', hq', hsn, htm⟩ := h.point
  -- a copy that was written again is younger
  have hyng' : now - q'.time < C.undoWindow := (Nat.sub_le_sub_left htm now).trans_lt hyng
  refine ⟨⟨q', hprn.points q' hq' (not_mem_expired hyng'), hsn, htm⟩, fun f hf hhad => ?_⟩
  have hstem := mem_undoStems (hrds q' hq' hyng') hyng' (hsn ▸ hf)
  rw [hprn.files f (mem_append.mpr (.inr hstem))]
  exact h.files f hf hhad

end Point

/-! ### Steps that are not passes -/

variable [LinearOrder ν]

theorem Advances.upload (h : Advances s s') (files : List (File ν)) :
    Advances s (s'.upload files) :=
  { h with
    files := fun f hf => isSome_upload.mpr (.inr (h.files f hf))
    uploaded := fun p hp => (h.uploaded p hp).upload files
    built := fun fold hfo b hb => (h.built fold hfo b hb).upload files }

namespace Consistent

variable (h : Consistent s)

include h

theorem batch (accepted : List RefUpdate) (server : Option ν) (unreadable : List ν)
    (how : BatchEnd ν) : Advances s (Packs.batch O C s accepted server unreadable how) := by
  rw [Packs.batch]
  split
  · exact .refl h
  · next cell hce =>
    obtain rfl := h.cell cell hce
    have hln : Advances s (landServerPack s server) :=
      (Advances.refl h).locally _ s.retained s.ledger s.serving
    split
    · exact hln.ended
    · next named hneeded =>
      have hrtn : Advances s (unretain (landServerPack s server) named) :=
        hln.locally _ _ s.ledger s.serving
      cases how with
      | upload landed => exact (hrtn.upload _).ended
      | cas point c =>
        refine Advances.cas ((hrtn.upload _).keepPoint rfl rfl accepted point) rfl
          (fun p hp => ?_) c
        rw [Uploaded, keepPoint_files]
        exact uploaded_pending hp (fun hnew => (onDisk_of_needed hneeded hp).resolve_left hnew)
          (h.uploaded p)

theorem spawn (plan : Plan ν) : Advances s (Packs.spawn s plan) := by
  rw [Packs.spawn]
  split
  · exact .refl h
  · split
    · refine (Advances.refl h).setFold fun fold hfo b hb => ?_
      cases hfo
      cases hb
    · exact .refl h

theorem build (f : ν) (beside : List Ext) : Advances s (Packs.build O s f beside) := by
  rw [Packs.build]
  split
  · split
    · refine ((Advances.refl h).upload _).setFold fun fold hfo b hb => ?_
      cases hfo
      cases hb
      exact ⟨isSome_upload.mpr (.inl (.head _)), isSome_upload.mpr (.inl (.tail _ (.head _)))⟩
    · exact (Advances.refl h).setFold (by simp)
  · exact .refl h

omit h in
theorem landFold (h : Advances s s') (snap : Snapshot ν) (f : ν) (beside : List Ext) :
    Advances s (Packs.landFold s' snap f beside) := by
  rw [Packs.landFold]
  split
  · exact h
  · exact h.locally _ s'.retained s'.ledger s'.serving

omit h in
theorem publishFold (h : Advances s s') {f : ν} (hkn : ∀ p ∈ s.snap.packs, s'.Uploaded p)
    (hf : s'.Uploaded f) (drop : List ν) (now : ℕ) (c : CasEnd) :
    Advances s (Packs.publishFold C s' s.snap f drop now c) := by
  have hpks : ∀ p ∈ (ofList (s.snap.packs.filter (· ∉ drop) ++ [f])).rows, s'.Uploaded p := by
    intro p hp
    rcases mem_append.mp (mem_ofList.mp hp) with hp | hp
    · exact hkn p (mem_filter.mp hp).1
    · obtain rfl := mem_singleton.mp hp
      exact hf
  have hcas : ∀ c, Advances s (s'.cas { s.snap with
      seq := s.snap.seq + 1
      packs := (ofList (s.snap.packs.filter (· ∉ drop) ++ [f])).rows } c) :=
    fun c => h.cas rfl hpks c
  cases c with
  | landed => exact (hcas .landed).locally _ _ _ s'.serving
  | lost => exact hcas .lost
  | failed => exact hcas .failed

theorem foldCommit (now : ℕ) (c : CasEnd) : Advances s (Packs.foldCommit O C s now c) := by
  rw [Packs.foldCommit]
  split
  · next cell inputs isBase f beside hce hfo =>
    obtain rfl := h.cell cell hce
    have hno : Advances s { s with fold := none } :=
      (Advances.refl h).setFold (by simp)
    dsimp only
    split
    · exact hno
    · have hln := landFold hno s.snap f beside
      exact publishFold hln (fun p hp => hln.keeps (h.uploaded p hp))
        (hln.keeps (h.built _ hfo _ rfl)) _ now c
  · exact .refl h

theorem reclaim (c : CasEnd) : Advances s (Packs.reclaim O s c) := by
  rw [Packs.reclaim]
  split
  · exact .refl h
  · next cell hce =>
    obtain rfl := h.cell cell hce
    split
    · exact .refl h
    · exact .refl h
    · next v drop hdr =>
      have hpks : ∀ p ∈ s.snap.packs.filter (· ∉ v :: drop), s.Uploaded p :=
        fun p hp => h.uploaded p (mem_filter.mp hp).1
      have hcas : ∀ c, Advances s (s.cas { s.snap with
          seq := s.snap.seq + 1
          packs := s.snap.packs.filter (· ∉ v :: drop) } c) :=
        fun c => (Advances.refl h).cas rfl hpks c
      cases c with
      | landed => exact (hcas .landed).locally _ s.retained s.ledger s.serving
      | lost | failed => exact hcas _

theorem restore : Advances s (Packs.restore s) := by
  rw [Packs.restore]
  split
  · exact .refl h
  · split
    · exact { Advances.refl h with cell := by simp }
    · split
      · exact { Advances.refl h with cell := fun _ hc => (mem_some_iff.mp hc).symm }
      · exact .refl h

end Consistent

/-! ### One step -/

def Action.passAt : Action ν → Option ℕ
  | .sweep now _ _ | .sweepLedger now _ => some now
  | _ => none

theorem Consistent.step (h : Consistent s) {a : Action ν} (ha : a.passAt = none) :
    Advances s (Packs.step O C s a) := by
  have hgd : ∀ {b : Bool} {t : Repo ν}, Advances s t → Advances s (if b then t else s) :=
    fun ht => iteInduction (fun _ => ht) fun _ => .refl h
  cases a with
  | tick => exact { Advances.refl h with clock := Nat.le_add_right _ _ }
  | arrive => exact (Advances.refl h).locally _ _ _ _
  | batch => exact hgd (h.batch _ _ _ _)
  | spawn => exact hgd (h.spawn _)
  | build => exact h.build _ _
  | foldCommit => exact hgd (h.foldCommit _ _)
  | abortFold => exact (Advances.refl h).setFold nofun
  | unlinkRetained => exact hgd ((Advances.refl h).locally _ _ _ _)
  | reclaim => exact iteInduction (fun _ => .refl h) fun _ => h.reclaim _
  | serve => exact hgd ((Advances.refl h).locally _ _ _ _)
  | restart => exact (Advances.refl h).ended.locally _ _ _ _
  | restore => exact h.restore
  | sweep | sweepLedger => cases ha

theorem pruned_sweep (C : Config) (s : Repo ν) (now : ℕ) (reached : File ν → Bool)
    (finishes : Bool) :
    sweep C s now reached finishes = s ∨ Pruned C now s (sweep C s now reached finishes) := by
  rw [sweep]
  split
  · next hpass =>
    refine .inr ⟨hpass.2.1, rfl, rfl, rfl, rfl, fun f hf => if_neg fun hgo => hgo.1 hf, ?_, ?_⟩
    · intro q hq
      dsimp only at hq
      split at hq
      · exact (mem_filter.mp hq).1
      · exact hq
    · intro q hq hkp
      dsimp only
      split
      · exact mem_filter.mpr ⟨hq, decide_eq_true hkp⟩
      · exact hq
  · exact .inl rfl

theorem pruned_sweepLedger (C : Config) (s : Repo ν) (now : ℕ) (reached : File ν → Bool) :
    sweepLedger C s now reached = s ∨ Pruned C now s (sweepLedger C s now reached) := by
  rw [sweepLedger]
  split
  · next hpass =>
    exact .inr ⟨hpass.2.1, rfl, rfl, rfl, rfl, fun f hf => if_neg fun hgo => hgo.2.1 hf,
      fun q hq => hq, fun q hq _ => hq⟩
  · exact .inl rfl

theorem step_pass {a : Action ν} {now : ℕ} (ha : a.passAt = some now) :
    step O C s a = s ∨ Pruned C now s (step O C s a) := by
  cases a with
  | sweep now' reached finishes =>
    obtain rfl := some.inj ha
    rw [step]
    split
    · exact pruned_sweep C s now' reached finishes
    · exact .inl rfl
  | sweepLedger now' reached =>
    obtain rfl := some.inj ha
    rw [step]
    split
    · exact pruned_sweepLedger C s now' reached
    · exact .inl rfl
  | _ => cases ha

theorem consistent_step (h : Consistent s) (a : Action ν) : Consistent (step O C s a) := by
  cases ha : a.passAt with
  | none => exact h.advances (h.step ha)
  | some now =>
    rcases step_pass ha with heq | hprn
    · rw [heq]
      exact h
    · exact h.pruned hprn

theorem consistent_run (l : List (Action ν)) : Consistent (run (step O C) .start l) :=
  run_invariant (P := Consistent) (fun _ a h => consistent_step h a) .start l

/-! ### The run of an undo point -/

/-- A pass reads the undo points that it finds young. -/
def Reads (C : Config) (s : Repo ν) (a : Action ν) : Prop :=
  ∀ now ∈ a.passAt, ∀ q ∈ s.points, now - q.time < C.undoWindow → q ∈ newestPoints C s

section Point

variable {had : File ν → Option ℕ} {q : UndoPoint ν}

theorem Recoverable.step (h : Recoverable had q s) (hs : Consistent s) {a : Action ν}
    (hrds : Reads C s a) (hyng : ∀ now ∈ a.passAt, now - q.time < C.undoWindow) :
    Recoverable had q (step O C s a) := by
  cases ha : a.passAt with
  | none => exact h.advances hs (hs.step ha)
  | some now =>
    rcases step_pass ha with heq | hprn
    · rw [heq]
      exact h
    · exact h.pruned hprn (hrds now ha) (hyng now ha)

theorem Recoverable.run (h : Recoverable had q s) (hs : Consistent s) {l : List (Action ν)}
    (hl : Steps (Packs.step O C) (Reads C) s l)
    (hyng : ∀ a ∈ l, ∀ now ∈ a.passAt, now - q.time < C.undoWindow) :
    Recoverable had q (run (Packs.step O C) s l) := by
  induction l generalizing s with
  | nil => exact h
  | cons a l ih =>
    exact ih (h.step hs hl.1 (hyng a (.head _))) (consistent_step hs a) hl.2
      fun b hb => hyng b (.tail a hb)

theorem point_written (hs : Consistent s) {a : Action ν} (hnew : q ∉ s.points)
    (hq : q ∈ (step O C s a).points) : ∀ p ∈ q.snap.packs, (step O C s a).Uploaded p := by
  cases ha : a.passAt with
  | none =>
    intro p hp
    rcases Consistent.mem_points_of_advances (hs.step ha) hq with rfl | hold
    · exact (hs.step ha).keeps (hs.uploaded p hp)
    · exact absurd hold hnew
  | some now =>
    rcases step_pass ha with heq | hprn
    · rw [heq] at hq
      exact absurd hq hnew
    · exact absurd (hprn.subset q hq) hnew

end Point

/-- While every pass finds an undo point young and reads the young ones, the point stays and so do
the files of its packs. And no pass deletes a file of a pack that the live snapshot names. -/
theorem undo_point_recoverable (O : Objects ν) (C : Config) (l : List (Action ν))
    (h : Steps (step O C) (Reads C) .start l) :
    (∀ before a after q, l = before ++ a :: after → q ∉ (run (step O C) .start before).points →
      let written := run (step O C) .start (before ++ [a])
      q ∈ written.points →
      (∀ b ∈ after, ∀ now ∈ b.passAt, now - q.time < C.undoWindow) →
      let s := run (step O C) .start l
      (∃ q' ∈ s.points, q'.snap = q.snap) ∧
        ∀ p ∈ q.snap.packs, (s.files ⟨p, .pack⟩).isSome ∧ (s.files ⟨p, .idx⟩).isSome ∧
          ∀ e, (written.files ⟨p, e⟩).isSome → (s.files ⟨p, e⟩).isSome) ∧
    ∀ before a after, l = before ++ a :: after → a.passAt.isSome →
      ∀ f, f.name ∈ (run (step O C) .start before).snap.packs →
        (run (step O C) .start (before ++ [a])).files f =
          (run (step O C) .start before).files f := by
  refine ⟨?_, ?_⟩
  · rintro before a after q rfl hnew written hq hyng s
    have hspl : before ++ a :: after = (before ++ [a]) ++ after := by simp
    have hrun : s = run (step O C) written after := by
      rw [← run_append, ← hspl]
    rw [hspl, steps_append] at h
    have hup : ∀ p ∈ q.snap.packs, written.Uploaded p := by
      have hst : written = step O C (run (step O C) .start before) a :=
        run_append _ _ _ _
      rw [hst] at hq ⊢
      exact point_written (consistent_run before) hnew hq
    have hwr : Recoverable written.files q written :=
      ⟨⟨q, hq, rfl, le_rfl⟩, fun _ _ => id⟩
    have hend := hwr.run (consistent_run (before ++ [a])) h.2 hyng
    rw [← hrun] at hend
    obtain ⟨q', hq', hsn, -⟩ := hend.point
    exact ⟨⟨q', hq', hsn⟩, fun p hp => ⟨hend.files _ hp (hup p hp).1, hend.files _ hp (hup p hp).2,
      fun e he => hend.files _ hp he⟩⟩
  · rintro before a after rfl hpass f hf
    obtain ⟨now, ha⟩ := isSome_iff_exists.mp hpass
    rw [run_append]
    show (step O C (run (step O C) .start before) a).files f = _
    rcases step_pass ha with heq | hprn
    · rw [heq]
    · exact hprn.files f (mem_append.mpr (.inl hf))

instance (C : Config) (s : Repo ν) (a : Action ν) : Decidable (Reads C s a) :=
  inferInstanceAs (Decidable (∀ now ∈ a.passAt, _))

def unrelated : ℕ → List Str
  | 1 => [absent, Str.single 'a']
  | 2 => [absent, Str.single 'b']
  | 3 => [absent, Str.single 'c']
  | _ => []

/-- The branch is forced from one commit to the next, twice, with a restart in between. The sweep
comes while both undo points are young. -/
def forcedTwice : List (Action ℕ) :=
  [.restore, .serve] ++ push absent (Str.single 'a') 1 ++ [.tick 1] ++
    push (Str.single 'a') (Str.single 'b') 2 ++
    [.restart (fun _ => true) true, .restore, .reclaim .landed, .serve] ++
    push (Str.single 'b') (Str.single 'c') 3 ++ [.tick 5, .sweep 6 (fun _ => true) true]

def undoing (points : ℕ) : Config := ⟨100, points, 1, 900⟩

/-- With room for both points the first commit stays. -/
theorem forced_twice_recoverable :
    let s := run (step (words unrelated) (undoing 2)) .start forcedTwice
    Steps (step (words unrelated) (undoing 2)) (Reads (undoing 2)) .start forcedTwice ∧
      (∃ q ∈ s.points, q.snap.packs = [1]) ∧ (s.files ⟨1, .pack⟩).isSome := by
  intro s
  have hsts : Steps (step (words unrelated) (undoing 2)) (Reads (undoing 2)) .start
      forcedTwice := by
    decide +kernel
  have hspl : forcedTwice = forcedTwice.take 6 ++ move (Str.single 'a') (Str.single 'b') ::
      forcedTwice.drop 7 := rfl
  have hpt := (undo_point_recoverable _ _ _ hsts).1 _ _ _
    ⟨1, ⟨1, published .empty [⟨Str.single 'm', absent, Str.single 'a'⟩], [1]⟩⟩ hspl
    (by decide +kernel) (by decide +kernel) (by decide +kernel)
  obtain ⟨q, hq, hsn⟩ := hpt.1
  exact ⟨hsts, ⟨q, hq, congrArg Snapshot.packs hsn⟩, (hpt.2 1 (.head _)).1⟩

/-- A pass that reads one point deletes the pack of the other, which is five seconds old. -/
theorem unread_point_loses_packs :
    let s := run (step (words unrelated) (undoing 1)) .start forcedTwice
    (s.points.map fun q => (q.time, q.snap.packs)) = [(1, [2]), (1, [1])] ∧ s.clock = 6 ∧
      s.files ⟨1, .pack⟩ = none ∧ s.files ⟨1, .idx⟩ = none := by
  decide +kernel

end Flint.Forge.Packs
