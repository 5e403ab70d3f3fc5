import Flint.Basic.GraceStore
import Flint.Syncer.Citing

/-!
# The collectors spare what is cited

An editor and an ingress sweep put a handle and cite it later, without the lease, and a commit
section collects by the document it installed itself. `Handles.store` reads a state as a
`GraceStore`. Three things are needed, and the code sees to none of them (`Careful`):

* an ingress sweep cites only a copy that it has made itself, under a name that was not used before,
  and before the copy is as old as the grace;
* when a section reads its clock for the orphans, what was cited since it installed its document is
  younger than the grace;
* an upload is not written a second time after it was collected.
-/

namespace Flint.Syncer

open Function GraceStore Outcome Handles RetireLog List Option Bool

def TrackPhase.ticket : TrackPhase → Option (Handle × ℕ)
  | .copied _ _ path etag (some made) _ => some (⟨path, .ingress etag⟩, made)
  | _ => none

def SectionPhase.uploads : SectionPhase → List Handle
  | .verifying job _ kept | .ready job kept | .merged job kept _ =>
    kept.map fun path => ⟨path, .own job.flush⟩
  | _ => []

def citedSet (d : Citations) : Set Handle := {h | h ∈ citedHandles d}

theorem citedSet_insert (d : Citations) (p : Str) (h : Handle) :
    citedSet (d.insert p h) ⊆ insert h (citedSet d) := by
  intro g hg
  obtain ⟨q, hq⟩ := mem_citedHandles.mp hg
  rcases cites_insert hq with hq | ⟨-, rfl⟩
  · exact .inr (mem_citedHandles.mpr ⟨q, hq⟩)
  · exact .inl rfl

theorem citedSet_erase (d : Citations) (p : Str) : citedSet (d.erase p) ⊆ citedSet d := by
  intro g hg
  obtain ⟨q, hq⟩ := mem_citedHandles.mp hg
  exact mem_citedHandles.mpr ⟨q, cites_erase hq⟩

namespace Handles

variable {ι κ : Type} {C : GraceCfg} {s s' : Handles ι κ} {a : HandleAction ι κ}

def ticket (s : Handles ι κ) : ι ⊕ κ → Option (Handle × ℕ) :=
  Sum.elim s.editors (TrackPhase.ticket ∘ s.tracks)

def store (s : Handles ι κ) : GraceStore Handle (ι ⊕ κ) where
  time := s.time
  objects := s.objects
  cited := citedSet s.citations
  retired := {h | h ∈ s.retired}
  collected := {h | h ∈ s.collected}
  known := {h | s.known h = true}
  ticket := s.ticket

theorem store_publish (d : Citations) : (s.publish d).store = s.store.cite (citedSet d) := by
  have hret : {h | h ∈ s.dropped d ++ s.retired} =
      citedSet s.citations \ citedSet d ∪ {h | h ∈ s.retired} := by
    ext h
    rw [Set.mem_ofPred_eq, mem_append, mem_dropped]
    exact Iff.rfl
  rw [store, cite]
  congr 1

theorem store_write (h : Handle) : (s.write h).store = s.store.put h := by
  have hkn : {g | update s.known h true g = true} = insert h {g | s.known g = true} := by
    ext g
    rw [Set.mem_ofPred_eq, update_apply, Set.mem_insert_iff, Set.mem_ofPred_eq]
    split
    · next hgh => simp [hgh]
    · next hgh => simp [hgh]
  rw [store, put]
  congr 1

theorem store_collect (h : Handle) : (s.collect h).store = s.store.collect h := by
  have hcoll : {g | g ∈ h :: s.collected} = insert h {g | g ∈ s.collected} := by
    ext g
    rw [Set.mem_ofPred_eq, mem_cons]
    exact Iff.rfl
  rw [store, collect]
  congr 1

section Ticket

variable [DecidableEq ι] [DecidableEq κ]

theorem ticket_editors (i : ι) (e : Option (Handle × ℕ)) :
    ticket { s with editors := update s.editors i e } = update s.ticket (.inl i) e :=
  (Sum.update_elim_inl).symm

theorem ticket_tracks (k : κ) (track : TrackPhase) :
    ticket { s with tracks := update s.tracks k track } =
      update s.ticket (.inr k) track.ticket := by
  change Sum.elim s.editors (TrackPhase.ticket ∘ update s.tracks k track) = _
  rw [comp_update]
  exact (Sum.update_elim_inr).symm

end Ticket

/-! ### The conditions -/

def Timely (C : GraceCfg) (s : Handles ι κ) : HandleAction ι κ → Prop
  | .save i => ∀ e ∈ s.editors i, s.time < e.2 + C.untrackedGrace
  | .trackList _ now => now = s.time
  | _ => True

def MakesNew (C : GraceCfg) (s : Handles ι κ) : TrackPhase → Prop
  | .tracking cited now ((path, o) :: _) =>
    untrackable C.untrackedGrace cited now path o = false →
      s.objects ⟨path, .ingress o.etag⟩ = none →
      (s.bare.get? path).map IngressObject.etag = some o.etag →
      s.known ⟨path, .ingress o.etag⟩ = false
  | _ => True

def CitedYoung (C : GraceCfg) (s : Handles ι κ) : SectionPhase → Prop
  | .reaped _ doc _ => ∀ h ∈ citedHandles s.citations, h ∈ citedHandles doc ∨
      ∀ m ∈ s.objects h, s.time - m < C.untrackedGrace
  | _ => True

def Careful (C : GraceCfg) (s : Handles ι κ) : HandleAction ι κ → Prop
  | .upload path id => ⟨path, .own id⟩ ∉ s.collected
  | .trackCopy k => s.MakesNew C (s.tracks k)
  -- a copy is cited by the sweep that made it, within the grace
  | .trackCommit k =>
    (s.adoption k).isSome → ∃ e ∈ (s.tracks k).ticket, s.time < e.2 + C.untrackedGrace
  | .sweepClock => s.CitedYoung C s.turn
  | _ => True

/-! ### The invariant -/

def Judges (C : GraceCfg) (S : GraceStore Handle (ι ⊕ κ)) : SectionPhase → Prop
  | .installed _ doc | .collecting _ doc _ => S.Covered (citedSet doc)
  | .reaping _ doc ledger =>
    S.Covered (citedSet doc) ∧ ∀ h ∈ ledger.due.flatMap handles, h ∈ S.retired
  | .reaped _ doc _ => S.Covered (citedSet doc)
  | .sweeping _ doc _ now => now ≤ S.time ∧ S.Recent C.untrackedGrace now (citedSet doc)
  | .listed _ doc _ now objects =>
    now ≤ S.time ∧ S.Recent C.untrackedGrace now (citedSet doc) ∧ S.Listed objects
  | _ => True

structure Inv (C : GraceCfg) (s : Handles ι κ) : Prop where
  honest : s.Honest
  sound : s.store.Sound C.untrackedGrace
  logged : ∀ h, h ∈ s.logs.flatMap handles ∨ h ∈ s.unlogged.flatten → h ∈ s.retired
  uploads : ∀ h ∈ s.turn.uploads, (s.objects h).isSome
  judges : Judges C s.store s.turn

theorem Honest.ticket_flush (hs : s.Honest) {x : ι ⊕ κ} {h : Handle} {t : ℕ}
    (hx : s.ticket x = some (h, t)) (id : ℕ) : h.flush ≠ .own id := by
  cases x with
  | inl i =>
    obtain ⟨id, hid⟩ := hs.editor i (h, t) hx
    rw [hid]
    exact Flush.noConfusion
  | inr k =>
    change (s.tracks k).ticket = some (h, t) at hx
    unfold TrackPhase.ticket at hx
    split at hx
    · obtain ⟨rfl, -⟩ := Prod.mk.inj (some.inj hx)
      exact Flush.noConfusion
    · cases hx

theorem Inv.reap (hs : s.Inv C) {job : CommitJob} {doc : Citations} {ledger : RetireLedger}
    {h : Handle} (htn : s.turn = .reaping job doc ledger) (hreap : reapable doc ledger h) :
    h ∈ s.store.retired ∧ h ∉ s.store.cited := by
  rw [reapable, and_eq_true, and_eq_true, not_eq_true', not_eq_true'] at hreap
  obtain ⟨⟨hdue, hdoc⟩, -⟩ := hreap
  obtain ⟨hcov, hret⟩ : Judges C s.store (.reaping job doc ledger) := htn ▸ hs.judges
  have hmem : h ∈ s.store.retired := hret h (contains_iff_mem.mp hdue)
  refine ⟨hmem, hcov.retired_not_cited (fun hin => ?_) hmem⟩
  rw [contains_iff_mem.mpr hin] at hdoc
  cases hdoc

theorem Inv.sweep (hs : s.Inv C) {job : CommitJob} {doc : Citations} {ledger : RetireLedger}
    {now : ℕ}
    {objects : Handle → Option ℕ} {h : Handle} (htn : s.turn = .listed job doc ledger now objects)
    (horp : isOrphan C.untrackedGrace job doc ledger now objects h) :
    h ∈ s.store.known ∧ h ∉ s.store.cited ∧
      ∀ x t, s.store.ticket x = some (h, t) → t + C.untrackedGrace ≤ s.store.time := by
  rw [isOrphan, and_eq_true, and_eq_true, and_eq_true, not_eq_true', Option.any_eq_true] at horp
  obtain ⟨⟨⟨-, hdoc⟩, -⟩, m, hm, hage⟩ := horp
  obtain ⟨hnow, hrcn, hlis⟩ : Judges C s.store (.listed job doc ledger now objects) :=
    htn ▸ hs.judges
  have hold : C.untrackedGrace ≤ now - m := of_decide_eq_true hage
  have hout : h ∉ citedSet doc := by
    intro hin
    rw [contains_iff_mem.mpr hin] at hdoc
    cases hdoc
  refine ⟨?_, hrcn.old_not_cited hlis hs.sound hout hm hold,
    fun x t hx => hlis.expired hs.sound hnow hm hold hx⟩
  rcases hlis h m hm with hth | hgo
  · exact hs.sound.known h (.inl (isSome_of_eq_some hth))
  · exact hs.sound.known h (.inr (.inr (.inr (.inl hgo))))

theorem Moves.judges {turn : SectionPhase} (hmvs : Moves C s a turn) (hs : s.Inv C)
    (hcar : s.Careful C a) : Judges C s.store turn := by
  have hjds := hs.judges
  cases hmvs with
  | clock htn =>
    rw [htn] at hjds
    exact hjds
  | ledger htn =>
    rw [htn] at hjds
    refine ⟨hjds, fun h hh => hs.logged h (.inl ?_)⟩
    obtain ⟨l, hl, hmem⟩ := mem_flatMap.mp hh
    exact mem_flatMap.mpr ⟨l, (mem_filter.mp hl).1, hmem⟩
  | sweepClock htn =>
    rw [htn] at hjds
    rw [Careful, htn] at hcar
    exact ⟨le_rfl, Covered.recent hjds hcar⟩
  | list htn =>
    rw [htn] at hjds
    exact ⟨hjds.1, hjds.2, fun h m hm => .inl hm⟩
  | _ => exact trivial

theorem Moves.uploads {turn : SectionPhase} (hmvs : Moves C s a turn) (hs : s.Inv C) :
    ∀ h ∈ turn.uploads, (s.objects h).isSome := by
  have hups := hs.uploads
  cases hmvs with
  | found htn hth =>
    rw [htn] at hups
    intro h hh
    rw [SectionPhase.uploads, map_append, mem_append, map_singleton, mem_singleton] at hh
    rcases hh with hh | rfl
    · exact hups h hh
    · exact hth
  | withheld htn | verified htn | load htn | lost htn _ =>
    rw [htn] at hups
    exact hups
  | _ => exact nofun

theorem isSome_write {h g : Handle} (hg : (s.objects g).isSome) :
    ((s.write h).objects g).isSome := by
  change (update s.objects h (some s.time) g).isSome
  rw [update_apply]
  split
  · rfl
  · exact hg

theorem logged_publish (hs : s.Inv C) (d : Citations) (h : Handle)
    (hh : h ∈ s.logs.flatMap handles ∨ h ∈ (s.publish d).unlogged.flatten) :
    h ∈ (s.publish d).retired := by
  change h ∈ _ ∨ h ∈ (s.dropped d :: s.unlogged).flatten at hh
  change h ∈ s.dropped d ++ s.retired
  rw [flatten_cons, mem_append] at hh
  rcases hh with hh | hh | hh
  · exact mem_append_right _ (hs.logged h (.inl hh))
  · exact mem_append_left _ hh
  · exact mem_append_right _ (hs.logged h (.inr hh))

theorem Inv.installs (hs : s.Inv C) {d : Citations} (hmrg : s.merge = some d) :
    (s.publish d).store.Sound C.untrackedGrace := by
  obtain ⟨job, kept, read, htn, rfl⟩ := hs.honest.merge_eq hmrg
  rw [store_publish]
  refine hs.sound.install fun h hh => ?_
  obtain ⟨p, hp⟩ := mem_citedHandles.mp hh
  rcases cites_mergeOnto hp with hp | ⟨hkp, rfl⟩
  · exact .inl (mem_citedHandles.mpr ⟨p, hp⟩)
  · refine .inr ⟨hs.uploads _ ?_, fun x t hx => hs.honest.ticket_flush hx job.flush rfl⟩
    rw [htn]
    exact mem_map.mpr ⟨p, hkp, rfl⟩

theorem inv_start (time : ℕ) (bare : SortedMap Str IngressObject) (objects : Handle → Option ℕ)
    (doc : Option Citations) (logs : List RetireLog) :
    (start time bare objects doc logs : Handles ι κ).Inv C := by
  have htk : ∀ x e, (start time bare objects doc logs : Handles ι κ).ticket x ≠ some e := by
    rintro (i | k) e he
    · cases he
    · cases he
  refine ⟨honest_start time bare objects doc logs, ?_, ?_, nofun, trivial⟩
  · refine ⟨?_, fun x h t hx => absurd hx (htk x _), fun x y h t u hx => absurd hx (htk x _), nofun⟩
    intro h hh
    change ((objects h).isSome || (citedHandles (doc.getD .empty)).contains h ||
      (logs.flatMap handles).contains h)
    rw [or_eq_true, or_eq_true, contains_iff_mem, contains_iff_mem]
    rcases hh with hh | hh | hh | hh | ⟨x, t, hx⟩
    · exact .inl (.inl hh)
    · exact .inl (.inr hh)
    · exact .inr hh
    · cases hh
    · exact absurd hx (htk x _)
  · rintro h (hh | hh)
    · exact hh
    · cases hh

theorem Sweeps.ticket {k : κ} {track : TrackPhase} (hsws : Sweeps C s k a track) :
    track.ticket = none := by
  cases hsws with
  | _ => rfl

section Run

variable [DecidableEq ι] [DecidableEq κ]

theorem store_editors (i : ι) (e : Option (Handle × ℕ)) :
    store { s with editors := update s.editors i e } =
      { s.store with ticket := update s.store.ticket (.inl i) e } := by
  rw [store, ticket_editors]
  rfl

theorem store_tracks (k : κ) (track : TrackPhase) :
    store { s with tracks := update s.tracks k track } =
      { s.store with ticket := update s.store.ticket (.inr k) track.ticket } := by
  rw [store, ticket_tracks]
  rfl

theorem Stepped.store (hst : Stepped C s a s') (hs : s.Inv C) (htim : s.Timely C a)
    (hcar : s.Careful C a) :
    GraceStore.Step C.untrackedGrace s.store s'.store ∨ ∃ job kept read d,
      s.turn = .merged job kept read ∧ s.merge = some d ∧
        s' = { s.publish d with turn := .installed job d } := by
  cases hst with
  | @installed job kept read d htn hmrg => exact .inr ⟨job, kept, read, d, htn, hmrg, rfl⟩
  | tick => exact .inl .tick
  | @upload path id hno =>
    left
    rw [store_write]
    exact .put hno hcar fun x t hx => hs.honest.ticket_flush hx id rfl
  | reaped htn hreap =>
    left
    obtain ⟨hret, hcit⟩ := hs.reap htn hreap
    rw [store_collect]
    refine .collect (hs.sound.known _ (.inr (.inr (.inl hret)))) hcit fun x t hx => ?_
    exact absurd hret (hs.sound.valid x _ t hx).unretired
  | swept htn horp =>
    left
    obtain ⟨hkn, hcit, hexp⟩ := hs.sweep htn horp
    rw [store_collect]
    exact .collect hkn hcit hexp
  | @put i path id hnew =>
    left
    change GraceStore.Step _ _ (store { s.write ⟨path, .ui id⟩ with
      editors := update (s.write ⟨path, .ui id⟩).editors i (some (⟨path, .ui id⟩, s.time)) })
    rw [store_editors, store_write]
    exact .grant (by simp [store, hnew])
  | @copied k cited now path o rest htrk hnot hno hbare =>
    left
    have hnew : s.known ⟨path, .ingress o.etag⟩ = false := by
      rw [Careful, htrk] at hcar
      exact hcar hnot hno hbare
    change GraceStore.Step _ _ (store { s.write ⟨path, .ingress o.etag⟩ with
      tracks := update (s.write ⟨path, .ingress o.etag⟩).tracks k
        (.copied cited now path o.etag (some s.time) rest) })
    rw [store_tracks, store_write]
    exact .grant (by simp [store, hnew])
  | @saved i e hi =>
    left
    change GraceStore.Step _ _ (publish { s with editors := update s.editors i none }
      (s.citations.insert e.1.path e.1)).store
    rw [store_publish, store_editors]
    exact .redeem hi (htim e hi) (citedSet_insert _ _ _)
  | removed hrmv =>
    left
    obtain ⟨-, -, rfl⟩ := map_eq_some_iff.mp hrmv
    rw [store_publish]
    exact .drop (citedSet_erase _ _)
  | renamed hmv =>
    left
    obtain ⟨h, hsrc, rfl⟩ := moving_eq hmv
    rw [store_publish]
    refine .drop fun g hg => ?_
    rcases citedSet_insert _ _ _ hg with rfl | hg
    · exact mem_citedHandles.mpr ⟨_, hsrc⟩
    · exact citedSet_erase _ _ hg
  | tracked hsws =>
    left
    rw [store_tracks, hsws.ticket]
    exact .release
  | @adopted k cited now etag path made rest d htrk hadopt =>
    left
    obtain ⟨e, he, htm⟩ := hcar (isSome_of_eq_some hadopt)
    have hhandle : e.1 = ⟨path, .ingress etag⟩ := by
      rw [htrk] at he
      cases made with
      | none => cases he
      | some t =>
        cases he
        rfl
    have hd : citedSet d ⊆ insert e.1 (citedSet s.citations) := by
      obtain ⟨_, _, _, _, _, _, htrk', rfl⟩ := adoption_eq hadopt
      rw [htrk] at htrk'
      obtain ⟨-, -, rfl, rfl, -, -⟩ := TrackPhase.copied.inj htrk'
      rw [hhandle]
      exact citedSet_insert _ _ _
    change GraceStore.Step _ _ (publish
      { s with tracks := update s.tracks k (.tracking cited now rest) } d).store
    rw [store_publish, store_tracks]
    exact .redeem he htm hd
  | _ => exact .inl .stay

theorem Judges.step {S S' : GraceStore Handle (ι ⊕ κ)} {turn : SectionPhase} (h : Judges C S turn)
    (hS : S.Sound C.untrackedGrace) (hst : GraceStore.Step C.untrackedGrace S S') :
    Judges C S' turn := by
  cases turn with
  | installed _ _ | collecting _ _ _ => exact Covered.step h hS hst
  | reaping _ _ _ => exact ⟨h.1.step hS hst, fun g hg => hst.retired_subset (h.2 g hg)⟩
  | reaped _ _ _ => exact Covered.step h hS hst
  | sweeping _ _ _ _ => exact ⟨h.1.trans hst.time_le, h.2.step h.1 hS hst⟩
  | listed _ _ _ _ _ => exact ⟨h.1.trans hst.time_le, h.2.1.step h.1 hS hst, h.2.2.step hS hst⟩
  | _ => exact trivial

theorem Stepped.judges (hst : Stepped C s a s') (hs : s.Inv C) (hcar : s.Careful C a)
    (hsto : GraceStore.Step C.untrackedGrace s.store s'.store) : Judges C s'.store s'.turn := by
  have hjds := hs.judges
  cases hst with
  | moved hmvs => exact hmvs.judges hs hcar
  | installed _ _ => exact fun h hh => .inl hh
  | dropLogs htn =>
    rw [htn] at hjds
    exact hjds.1
  | _ => exact hjds.step hs.sound hsto

theorem Stepped.uploads (hst : Stepped C s a s') (hs : s.Inv C) :
    ∀ h ∈ s'.turn.uploads, (s'.objects h).isSome := by
  have hups := hs.uploads
  cases hst with
  | moved hmvs => exact hmvs.uploads hs
  | installed _ _ | dropLogs _ => exact nofun
  | upload _ | put _ | copied _ _ _ _ => exact fun h hh => isSome_write (hups h hh)
  -- nothing is collected while a section has uploads
  | reaped htn _ | swept htn _ =>
    change ∀ h ∈ s.turn.uploads, _
    rw [htn]
    exact nofun
  | _ => exact hups

theorem Stepped.logged (hst : Stepped C s a s') (hs : s.Inv C) (h : Handle)
    (hh : h ∈ s'.logs.flatMap handles ∨ h ∈ s'.unlogged.flatten) : h ∈ s'.retired := by
  cases hst with
  | installed _ _ | saved _ | removed _ | renamed _ | adopted _ _ => exact logged_publish hs _ h hh
  | dropLogs _ =>
    refine hs.logged h (hh.imp_left fun hh => ?_)
    obtain ⟨l, hl, hmem⟩ := mem_flatMap.mp hh
    exact mem_flatMap.mpr ⟨l, (mem_filter.mp hl).1, hmem⟩
  | @log i handles hunl =>
    have hmem : handles ∈ s.unlogged := mem_of_getElem? hunl
    refine hs.logged h ?_
    rcases hh with hh | hh
    · rw [flatMap_cons, mem_append] at hh
      rcases hh with hh | hh
      · exact .inr (mem_flatten.mpr ⟨handles, hmem, hh⟩)
      · exact .inl hh
    · obtain ⟨l, hl, hmem⟩ := mem_flatten.mp hh
      exact .inr (mem_flatten.mpr ⟨l, mem_of_mem_eraseIdx hl, hmem⟩)
  | _ => exact hs.logged h hh

theorem Inv.stepped (hs : s.Inv C) (hst : Stepped C s a s') (htim : s.Timely C a)
    (hcar : s.Careful C a) : s'.Inv C := by
  refine ⟨hs.honest.stepped hst, ?_, hst.logged hs, hst.uploads hs, ?_⟩
  · rcases hst.store hs htim hcar with hsto | ⟨job, kept, read, d, -, hmrg, rfl⟩
    · exact hs.sound.step hsto
    · exact hs.installs hmrg
  · rcases hst.store hs htim hcar with hsto | ⟨job, kept, read, d, -, -, rfl⟩
    · exact hst.judges hs hcar hsto
    · exact fun h hh => .inl hh

/-- In a run in which edits are timely and the conditions of `Careful` are met, no handle that a
collector has deleted is cited, then or later. -/
theorem collectors_spare_cited (C : GraceCfg) (time : ℕ) (bare : SortedMap Str IngressObject)
    (objects : Handle → Option ℕ) (doc : Option Citations) (logs : List RetireLog)
    (l : List (HandleAction ι κ))
    (htim : Steps (step C) (Timely C) (start time bare objects doc logs) l)
    (hcar : Steps (step C) (Careful C) (start time bare objects doc logs) l) :
    ∀ h ∈ (run (step C) (start time bare objects doc logs) l).collected,
      h ∉ citedHandles (run (step C) (start time bare objects doc logs) l).citations := by
  have hboth : Steps (step C) (fun s a => s.Timely C a ∧ s.Careful C a)
      (start time bare objects doc logs) l :=
    Steps.imp (fun s a => And.intro) htim hcar
  have hinv := run_invariant_of_steps (P := Inv C)
    (fun s a hs ha => hs.stepped (stepped s a) ha.1 ha.2)
    (inv_start time bare objects doc logs) hboth
  exact fun h hh => (hinv.sound.collected h hh).2

end Run

instance (C : GraceCfg) (s : Handles ι κ) (a : HandleAction ι κ) : Decidable (s.Timely C a) := by
  unfold Timely
  split <;> infer_instance

instance (C : GraceCfg) (s : Handles ι κ) (track : TrackPhase) :
    Decidable (s.MakesNew C track) := by
  unfold MakesNew
  split <;> infer_instance

instance (C : GraceCfg) (s : Handles ι κ) (turn : SectionPhase) :
    Decidable (s.CitedYoung C turn) := by
  unfold CitedYoung
  split <;> infer_instance

instance (C : GraceCfg) (s : Handles ι κ) (a : HandleAction ι κ) : Decidable (s.Careful C a) := by
  unfold Careful
  split <;> infer_instance

def sectionOf (path : Str) (flush : ℕ) : List (HandleAction ι κ) :=
  [.upload path flush, .begin ⟨flush, []⟩ [path], .head, .head, .load, .cas, .clock, .ledger,
    .dropLogs,
    .sweepClock, .list]

/-- A save that was not committed is collected, while a sweep adopts an object. -/
theorem orphan_collected :
    let a := Str.single 'a'
    let b := Str.single 'b'
    let c := Str.single 'c'
    let C : GraceCfg := ⟨1, 10⟩
    let s₀ : Handles (Fin 1) (Fin 1) := start 0 .empty (fun _ => none) none []
    let l : List (HandleAction (Fin 1) (Fin 1)) :=
      [.ingress a 1, .put 0 c 1, .tick, .trackLoad 0, .trackList 0 1, .trackCopy 0, .trackCommit 0]
        ++
        sectionOf b 7 ++ [.sweep ⟨c, .ui 1⟩]
    let s := run (step C) s₀ l
    Steps (step C) (Timely C) s₀ l ∧ Steps (step C) (Careful C) s₀ l ∧
      s.collected = [⟨c, .ui 1⟩] ∧ ∀ h ∈ s.collected, h ∉ citedHandles s.citations := by
  refine ⟨by decide, by decide, by decide, ?_⟩
  exact collectors_spare_cited ⟨1, 10⟩ 0 .empty (fun _ => none) none [] _ (by decide) (by decide)

/-- A copy grows old, a commit section lists it as an orphan, another sweep cites it, and the
section deletes it. In the second run an edit committed meanwhile is old when the section reads its
clock. -/
theorem cited_handle_collected :
    let a := Str.single 'a'
    let b := Str.single 'b'
    let C : GraceCfg := ⟨1, 10⟩
    let s₀ : Handles (Fin 1) (Fin 2) := start 0 .empty (fun _ => none) none []
    let l₁ : List (HandleAction (Fin 1) (Fin 2)) :=
      [.ingress a 1, .tick, .trackLoad 0, .trackList 0 1, .trackCopy 0, .tick] ++ sectionOf b 7 ++
        [.trackLoad 1, .trackList 1 2, .trackCopy 1, .trackCommit 1, .sweep ⟨a, .ingress 1⟩]
    let l₂ : List (HandleAction (Fin 1) (Fin 2)) :=
      [.upload b 7, .begin ⟨7, []⟩ [b], .head, .head, .load, .cas, .put 0 a 1, .save 0, .clock,
        .ledger, .tick, .dropLogs, .sweepClock, .list, .sweep ⟨a, .ui 1⟩]
    let s₁ := run (step C) s₀ l₁
    let s₂ := run (step C) s₀ l₂
    (Steps (step C) (Timely C) s₀ l₁ ∧ ⟨a, .ingress 1⟩ ∈ s₁.collected ∧
        s₁.citations.get? a = some ⟨a, .ingress 1⟩) ∧
      Steps (step C) (Timely C) s₀ l₂ ∧ ⟨a, .ui 1⟩ ∈ s₂.collected ∧
        s₂.citations.get? a = some ⟨a, .ui 1⟩ := by
  decide

end Handles

end Flint.Syncer
