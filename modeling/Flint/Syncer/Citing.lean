import Flint.Syncer.Handles

/-!
# What a request cites and what it retires

Each request installs at most one document, `nextDoc`. It has the citations of the live one, and
beside them at most what its party brings (`Brings`).
-/

namespace Flint.Syncer

open Function SortedMap Option

variable {d : Citations} {h : Handle}

theorem mem_citedHandles : h ∈ citedHandles d ↔ ∃ p, d.get? p = some h := by
  rw [citedHandles, List.mem_map]
  constructor
  · rintro ⟨⟨p, h⟩, hrow, rfl⟩
    exact ⟨p, get?_eq_some.mpr hrow⟩
  · rintro ⟨p, hp⟩
    exact ⟨(p, h), get?_eq_some.mp hp, rfl⟩

variable {p q : Str}

theorem cites_insert {g : Handle} (hg : (d.insert p h).get? q = some g) :
    d.get? q = some g ∨ q = p ∧ g = h := by
  rw [get?_insert] at hg
  split at hg
  · next heq => exact .inr ⟨heq, (some.inj hg).symm⟩
  · exact .inl hg

theorem cites_erase (hq : (d.erase p).get? q = some h) : d.get? q = some h := by
  rw [get?_erase] at hq
  split at hq
  · cases hq
  · exact hq

theorem cites_foldl_erase {paths : List Str} (hq : (paths.foldl erase d).get? q = some h) :
    d.get? q = some h := by
  induction paths generalizing d with
  | nil => exact hq
  | cons p paths ih => exact cites_erase (ih hq)

theorem cites_mergeOnto {job : CommitJob} {kept : List Str} {theirs : Citations}
    (hq : (mergeOnto job kept theirs).get? q = some h) :
    theirs.get? q = some h ∨ q ∈ kept ∧ h = ⟨q, .own job.flush⟩ := by
  rw [mergeOnto] at hq
  replace hq := cites_foldl_erase hq
  induction kept generalizing theirs with
  | nil => exact .inl hq
  | cons p kept ih =>
    rcases ih hq with hq | ⟨hmem, hh⟩
    · rcases cites_insert hq with hq | ⟨rfl, hh⟩
      · exact .inl hq
      · exact .inr ⟨.head _, hh⟩
    · exact .inr ⟨.tail p hmem, hh⟩

namespace Handles

variable {ι κ : Type} {C : GraceCfg} {s s' : Handles ι κ} {a : HandleAction ι κ}

theorem mem_dropped : h ∈ s.dropped d ↔ h ∈ citedHandles s.citations ∧ h ∉ citedHandles d := by
  simp [dropped]

theorem mem_replacedBy {r : Str × Handle} :
    r ∈ s.replacedBy d ↔ s.citations.get? r.1 = some r.2 ∧ d.get? r.1 ≠ some r.2 := by
  rw [replacedBy, List.mem_filter, decide_eq_true_eq, get?_eq_some]
  exact Iff.rfl

theorem adoption_eq {k : κ} (hd : s.adoption k = some d) :
    ∃ cited now path etag made rest, s.tracks k = .copied cited now path etag made rest ∧
      d = s.citations.insert path ⟨path, .ingress etag⟩ := by
  rw [adoption] at hd
  split at hd
  · next cited now path etag made rest hk =>
    split at hd
    · exact ⟨cited, now, path, etag, made, rest, hk, (some.inj hd).symm⟩
    · cases hd
  · cases hd

theorem moving_eq {src dst : Str} (hd : s.moving src dst = some d) :
    ∃ h, s.citations.get? src = some h ∧ d = (s.citations.erase src).insert dst h := by
  rw [moving] at hd
  split at hd
  · next h hsrc hdst => exact ⟨h, hsrc, (some.inj hd).symm⟩
  · cases hd

/-! ### The requests -/

inductive Moves (C : GraceCfg) (s : Handles ι κ) : HandleAction ι κ → SectionPhase → Prop
  | begin {job : CommitJob} {uploads : List Str} (htn : s.turn = .idle) :
      Moves C s (.begin job uploads) (.verifying job uploads [])
  | finish : Moves C s .finish .idle
  | found {job : CommitJob} {path : Str} {uploads kept : List Str}
      (htn : s.turn = .verifying job (path :: uploads) kept)
      (hth : (s.objects ⟨path, .own job.flush⟩).isSome) :
      Moves C s .head (.verifying job uploads (kept ++ [path]))
  | withheld {job : CommitJob} {path : Str} {uploads kept : List Str}
      (htn : s.turn = .verifying job (path :: uploads) kept) :
      Moves C s .head (.verifying job uploads kept)
  | verified {job : CommitJob} {kept : List Str} (htn : s.turn = .verifying job [] kept) :
      Moves C s .head (.ready job kept)
  | load {job : CommitJob} {kept : List Str} (htn : s.turn = .ready job kept) :
      Moves C s .load (.merged job kept s.doc.read)
  | lost {job : CommitJob} {kept : List Str} {read : Option (ℕ × Citations)}
      (htn : s.turn = .merged job kept read) (hmrg : s.merge = none) :
      Moves C s .cas (.ready job kept)
  | clock {job : CommitJob} {doc : Citations} (htn : s.turn = .installed job doc) :
      Moves C s .clock (.collecting job doc s.time)
  | ledger {job : CommitJob} {doc : Citations} {now : ℕ} (htn : s.turn = .collecting job doc now) :
      Moves C s .ledger (.reaping job doc (retireLedger C.retireGrace now s.logs))
  | sweepClock {job : CommitJob} {doc : Citations} {ledger : RetireLedger}
      (htn : s.turn = .reaped job doc ledger) :
      Moves C s .sweepClock (.sweeping job doc ledger s.time)
  | list {job : CommitJob} {doc : Citations} {ledger : RetireLedger} {now : ℕ}
      (htn : s.turn = .sweeping job doc ledger now) :
      Moves C s .list (.listed job doc ledger now s.objects)

inductive Sweeps (C : GraceCfg) (s : Handles ι κ) (k : κ) : HandleAction ι κ → TrackPhase → Prop
  | load (htrk : s.tracks k = .idle) : Sweeps C s k (.trackLoad k) (.loaded s.citations)
  | list {cited : Citations} {now : ℕ} (htrk : s.tracks k = .loaded cited) :
      Sweeps C s k (.trackList k now) (.tracking cited now s.bare.rows)
  | done {cited : Citations} {now : ℕ} (htrk : s.tracks k = .tracking cited now []) :
      Sweeps C s k (.trackCopy k) .idle
  | skip {cited : Citations} {now : ℕ} {path : Str} {o : IngressObject}
      {rest : List (Str × IngressObject)}
      (htrk : s.tracks k = .tracking cited now ((path, o) :: rest)) :
      Sweeps C s k (.trackCopy k) (.tracking cited now rest)
  | found {cited : Citations} {now : ℕ} {path : Str} {o : IngressObject}
      {rest : List (Str × IngressObject)}
      (htrk : s.tracks k = .tracking cited now ((path, o) :: rest))
      (hth : (s.objects ⟨path, .ingress o.etag⟩).isSome) :
      Sweeps C s k (.trackCopy k) (.copied cited now path o.etag none rest)
  | refused {cited : Citations} {now etag : ℕ} {path : Str} {made : Option ℕ}
      {rest : List (Str × IngressObject)}
      (htrk : s.tracks k = .copied cited now path etag made rest) (hno : s.adoption k = none) :
      Sweeps C s k (.trackCommit k) (.tracking cited now rest)

section Stepped

variable [DecidableEq κ] [DecidableEq ι]

inductive Stepped (C : GraceCfg) (s : Handles ι κ) : HandleAction ι κ → Handles ι κ → Prop
  | refused {a : HandleAction ι κ} (hno : s.nextDoc a = none) : Stepped C s a s
  | tick : Stepped C s .tick { s with time := s.time + 1 }
  | ingress {path : Str} {etag : ℕ} (hnew : etag ∉ s.etags) :
      Stepped C s (.ingress path etag)
        { s with bare := s.bare.insert path ⟨etag, s.time⟩, etags := etag :: s.etags }
  | upload {path : Str} {id : ℕ} (hno : s.objects ⟨path, .own id⟩ = none) :
      Stepped C s (.upload path id) (s.write ⟨path, .own id⟩)
  | moved {a : HandleAction ι κ} {turn : SectionPhase} (hmvs : Moves C s a turn) :
      Stepped C s a { s with turn }
  | installed {job : CommitJob} {kept : List Str} {read : Option (ℕ × Citations)} {d : Citations}
      (htn : s.turn = .merged job kept read) (hmrg : s.merge = some d) :
      Stepped C s .cas { s.publish d with turn := .installed job d }
  | reaped {job : CommitJob} {doc : Citations} {ledger : RetireLedger} {h : Handle}
      (htn : s.turn = .reaping job doc ledger) (hreap : reapable doc ledger h) :
      Stepped C s (.reap h) (s.collect h)
  | dropLogs {job : CommitJob} {doc : Citations} {ledger : RetireLedger}
      (htn : s.turn = .reaping job doc ledger) :
      Stepped C s .dropLogs
        { s with logs := s.logs.filter fun l => !ledger.due.contains l,
                 turn := .reaped job doc ledger }
  | swept {job : CommitJob} {doc : Citations} {ledger : RetireLedger} {now : ℕ}
      {objects : Handle → Option ℕ} {h : Handle} (htn : s.turn = .listed job doc ledger now objects)
      (horp : isOrphan C.untrackedGrace job doc ledger now objects h) :
      Stepped C s (.sweep h) (s.collect h)
  | log {i : ℕ} {handles : List Handle} (hunl : s.unlogged[i]? = some handles) :
      Stepped C s (.log i)
        { s with logs := ⟨s.time, handles⟩ :: s.logs, unlogged := s.unlogged.eraseIdx i }
  | put {i : ι} {path : Str} {id : ℕ} (hnew : s.known ⟨path, .ui id⟩ = false) :
      Stepped C s (.put i path id)
        { s.write ⟨path, .ui id⟩ with
          editors := update s.editors i (some (⟨path, .ui id⟩, s.time)) }
  | saved {i : ι} {e : Handle × ℕ} (hi : s.editors i = some e) :
      Stepped C s (.save i)
        { s.publish (s.citations.insert e.1.path e.1) with
          editors := update s.editors i none }
  | removed {path : Str} {d : Citations} (hrmv : s.removal path = some d) :
      Stepped C s (.remove path) (s.publish d)
  | renamed {src dst : Str} {d : Citations} (hmv : s.moving src dst = some d) :
      Stepped C s (.rename src dst) (s.publish d)
  | tracked {a : HandleAction ι κ} {k : κ} {track : TrackPhase} (hsws : Sweeps C s k a track) :
      Stepped C s a { s with tracks := update s.tracks k track }
  | copied {k : κ} {cited : Citations} {now : ℕ} {path : Str} {o : IngressObject}
      {rest : List (Str × IngressObject)}
      (htrk : s.tracks k = .tracking cited now ((path, o) :: rest))
      (hnot : untrackable C.untrackedGrace cited now path o = false)
      (hno : s.objects ⟨path, .ingress o.etag⟩ = none)
      (hbare : (s.bare.get? path).map IngressObject.etag = some o.etag) :
      Stepped C s (.trackCopy k)
        { s.write ⟨path, .ingress o.etag⟩ with
          tracks := update s.tracks k (.copied cited now path o.etag (some s.time) rest) }
  | adopted {k : κ} {cited : Citations} {now etag : ℕ} {path : Str} {made : Option ℕ}
      {rest : List (Str × IngressObject)} {d : Citations}
      (htrk : s.tracks k = .copied cited now path etag made rest) (hadopt : s.adoption k = some d) :
      Stepped C s (.trackCommit k)
        { s.publish d with tracks := update s.tracks k (.tracking cited now rest) }

theorem stepped_trackCopy (s : Handles ι κ) (k : κ) :
    Stepped C s (.trackCopy k) (s.step C (.trackCopy k)) := by
  rw [step, trackCopy]
  split
  · next hk => exact .tracked (.done hk)
  · next cited now path o rest hk =>
    dsimp only
    split
    · exact .tracked (.skip hk)
    · next hnot =>
      split
      · next m hm => exact .tracked (.found hk (isSome_of_eq_some hm))
      · next hm =>
        split
        · next hbare => exact .copied hk (Bool.not_eq_true _ ▸ hnot) hm hbare
        · exact .tracked (.skip hk)
  · exact .refused rfl

theorem stepped_trackCommit (s : Handles ι κ) (k : κ) :
    Stepped C s (.trackCommit k) (s.step C (.trackCommit k)) := by
  rw [step]
  split
  · next d hd =>
    obtain ⟨cited, now, path, etag, made, rest, hk, -⟩ := adoption_eq hd
    have hnx : (s.publish d).trackNext k =
        { s.publish d with tracks := update s.tracks k (.tracking cited now rest) } := by
      rw [trackNext, show (s.publish d).tracks k = _ from hk]
      rfl
    rw [hnx]
    exact .adopted hk hd
  · next hd =>
    rw [trackNext]
    split
    · next cited now path etag made rest hk => exact .tracked (.refused hk hd)
    · exact .refused hd

theorem stepped (s : Handles ι κ) (a : HandleAction ι κ) : Stepped C s a (s.step C a) := by
  cases a <;> simp only [step, stepTurn]
  case tick => exact .tick
  case finish => exact .moved .finish
  case remove path =>
    cases hrmv : s.removal path with
    | none => exact .refused hrmv
    | some d => exact .removed hrmv
  case rename src dst =>
    cases hmv : s.moving src dst with
    | none => exact .refused hmv
    | some d => exact .renamed hmv
  case trackCopy k => exact stepped_trackCopy s k
  case trackCommit k => exact stepped_trackCommit s k
  case ingress path etag =>
    split
    · exact .refused rfl
    · next hnew => exact .ingress (by simpa using hnew)
  case upload path id =>
    split
    · exact .refused rfl
    · next hno => exact .upload (by simpa using hno)
  case put i path id =>
    split
    · exact .refused rfl
    · next hnew => exact .put (by simpa using hnew)
  case begin job uploads =>
    split
    · next htn => exact .moved (.begin htn)
    · exact .refused rfl
  case log i =>
    split
    · next hunl => exact .log hunl
    · exact .refused rfl
  case save i =>
    split
    · next e hi => exact .saved hi
    · next hi => exact .refused (by rw [nextDoc, hi]; rfl)
  case trackLoad k =>
    split
    · next hk => exact .tracked (.load hk)
    · exact .refused rfl
  case trackList k now =>
    split
    · next hk => exact .tracked (.list hk)
    · exact .refused rfl
  case head =>
    split
    · next job path uploads kept htn =>
      split
      · next hth => exact .moved (.found htn hth)
      · exact .moved (.withheld htn)
    · next htn => exact .moved (.verified htn)
    · exact .refused rfl
  case load =>
    split
    · next htn => exact .moved (.load htn)
    · exact .refused rfl
  case cas =>
    split
    · next htn =>
      split
      · next d hmrg => exact .installed htn hmrg
      · next hmrg => exact .moved (.lost htn hmrg)
    · next htn =>
      refine .refused ?_
      rw [nextDoc, merge]
      split
      · next job kept read hmgd => exact absurd hmgd (htn job kept read)
      · rfl
  case clock =>
    split
    · next htn => exact .moved (.clock htn)
    · exact .refused rfl
  case ledger =>
    split
    · next htn => exact .moved (.ledger htn)
    · exact .refused rfl
  case reap h =>
    split
    · next htn =>
      split
      · next hreap => exact .reaped htn hreap
      · exact .refused rfl
    · exact .refused rfl
  case dropLogs =>
    split
    · next htn => exact .dropLogs htn
    · exact .refused rfl
  case sweepClock =>
    split
    · next htn => exact .moved (.sweepClock htn)
    · exact .refused rfl
  case list =>
    split
    · next htn => exact .moved (.list htn)
    · exact .refused rfl
  case sweep h =>
    split
    · next htn =>
      split
      · next horp => exact .swept htn horp
      · exact .refused rfl
    · exact .refused rfl

end Stepped

/-! ### What a request brings -/

structure Honest (s : Handles ι κ) : Prop where
  /-- The commit section has a document that was live when it loaded it. -/
  read : ∀ job kept read, s.turn = .merged job kept read → s.doc.Seen read
  /-- An editor cites a handle of the gateway. -/
  editor : ∀ i, ∀ e ∈ s.editors i, ∃ id, e.1.flush = .ui id

theorem honest_start (time : ℕ) (bare : SortedMap Str IngressObject) (objects : Handle → Option ℕ)
    (doc : Option Citations) (logs : List RetireLog) :
    (start time bare objects doc logs : Handles ι κ).Honest :=
  ⟨fun _ _ _ htn => SectionPhase.noConfusion htn, fun _ e he => absurd he (by simp [start])⟩

def Brings (s : Handles ι κ) : HandleAction ι κ → Str → Handle → Prop
  | .cas, p, h => ∃ job kept read,
      s.turn = .merged job kept read ∧ p ∈ kept ∧ h = ⟨p, .own job.flush⟩
  | .save i, p, h => ∃ t, s.editors i = some (h, t) ∧ p = h.path
  | .rename src dst, p, h => s.citations.get? src = some h ∧ p = dst
  | .trackCommit k, p, h => ∃ cited now etag made rest,
      s.tracks k = .copied cited now p etag made rest ∧ h = ⟨p, .ingress etag⟩
  | _, _, _ => False

theorem Honest.merge_eq (hs : s.Honest) (hd : s.merge = some d) :
    ∃ job kept read, s.turn = .merged job kept read ∧ d = mergeOnto job kept s.citations := by
  rw [merge] at hd
  split at hd
  · next job kept read htn =>
    split at hd
    · next hcur =>
      refine ⟨job, kept, read, htn, ?_⟩
      have hrd : read = s.doc.read := (hs.read job kept read htn).eq_read hcur
      have hlv : (read.map Prod.snd).getD .empty = s.citations := by
        rw [hrd, Register.read, citations, Option.map_map]
        cases s.doc.value with
        | none | some d => rfl
      rw [← some.inj hd, hlv]
    · cases hd
  · cases hd

theorem Honest.cites_nextDoc (hs : s.Honest) (hd : s.nextDoc a = some d) (hp : d.get? p = some h) :
    s.citations.get? p = some h ∨ s.Brings a p h := by
  cases a with
  | cas =>
    obtain ⟨job, kept, read, htn, rfl⟩ := hs.merge_eq hd
    exact (cites_mergeOnto hp).imp_right fun hmem => ⟨job, kept, read, htn, hmem⟩
  | save i =>
    obtain ⟨e, he, rfl⟩ := map_eq_some_iff.mp hd
    refine (cites_insert hp).imp_right ?_
    rintro ⟨hpa, rfl⟩
    exact ⟨e.2, he, hpa⟩
  | remove path =>
    obtain ⟨-, -, rfl⟩ := map_eq_some_iff.mp hd
    exact .inl (cites_erase hp)
  | rename src dst =>
    obtain ⟨g, hg, rfl⟩ := moving_eq hd
    rcases cites_insert hp with hp | ⟨hdst, rfl⟩
    · exact .inl (cites_erase hp)
    · exact .inr ⟨hg, hdst⟩
  | trackCommit k =>
    obtain ⟨cited, now, path, etag, made, rest, hk, rfl⟩ := adoption_eq hd
    refine (cites_insert hp).imp_right ?_
    rintro ⟨rfl, hh⟩
    exact ⟨cited, now, etag, made, rest, hk, hh⟩
  | _ => cases hd

/-! ### The document -/

structure DocStep (s s' : Handles ι κ) (d : Option Citations) : Prop where
  doc : s'.doc = d.elim s.doc s.doc.put
  replaced : s'.replaced = d.elim s.replaced fun d => s.replacedBy d ++ s.replaced
  retired : s'.retired = d.elim s.retired fun d => s.dropped d ++ s.retired

variable {d : Option Citations}

theorem DocStep.citations (h : DocStep s s' d) : s'.citations = d.getD s.citations := by
  rw [Handles.citations, h.doc]
  cases d with
  | none | some d => rfl

theorem DocStep.cases (h : DocStep s s' d) {g : Handle} (hg : s'.citations.get? p = some g) :
    d = none ∧ s.citations.get? p = some g ∨ ∃ d', d = some d' ∧ d'.get? p = some g := by
  rw [h.citations] at hg
  cases d with
  | none => exact .inl ⟨rfl, hg⟩
  | some d => exact .inr ⟨d, rfl, hg⟩

theorem DocStep.seen (h : DocStep s s' d) {x : Option (ℕ × Citations)}
    (hx : s.doc.Seen x) : s'.doc.Seen x := by
  rw [h.doc]
  cases d with
  | none => exact hx
  | some d => exact hx.put d

variable [DecidableEq κ] [DecidableEq ι]

theorem Stepped.docStep (hst : Stepped C s a s') : DocStep s s' (s.nextDoc a) := by
  cases hst with
  | refused hno =>
    rw [hno]
    exact ⟨rfl, rfl, rfl⟩
  | moved hmvs =>
    have hno : s.nextDoc a = none := by
      cases hmvs with
      | lost _ hmrg => exact hmrg
      | _ => rfl
    rw [hno]
    exact ⟨rfl, rfl, rfl⟩
  | tracked hsws =>
    have hno : s.nextDoc a = none := by
      cases hsws with
      | refused _ hno => exact hno
      | _ => rfl
    rw [hno]
    exact ⟨rfl, rfl, rfl⟩
  | installed htn hmrg =>
    rw [nextDoc, hmrg]
    exact ⟨rfl, rfl, rfl⟩
  | saved hi =>
    rw [nextDoc, hi]
    exact ⟨rfl, rfl, rfl⟩
  | removed hrmv =>
    rw [nextDoc, hrmv]
    exact ⟨rfl, rfl, rfl⟩
  | renamed hmv =>
    rw [nextDoc, hmv]
    exact ⟨rfl, rfl, rfl⟩
  | adopted htrk hadopt =>
    rw [nextDoc, hadopt]
    exact ⟨rfl, rfl, rfl⟩
  | _ => exact ⟨rfl, rfl, rfl⟩

/-! ### What a party has in its hands -/

theorem Stepped.merged (hst : Stepped C s a s') {job : CommitJob} {kept : List Str}
    {read : Option (ℕ × Citations)} (htn : s'.turn = .merged job kept read) :
    s.turn = .merged job kept read ∨ read = s.doc.read := by
  cases hst with
  | moved hmvs =>
    cases hmvs with
    | load _ =>
      obtain ⟨-, -, rfl⟩ := SectionPhase.merged.inj htn
      exact .inr rfl
    | _ => exact SectionPhase.noConfusion htn
  | installed _ _ | dropLogs _ => exact SectionPhase.noConfusion htn
  | _ => exact .inl htn

theorem Stepped.editors (hst : Stepped C s a s') {i : ι} {e : Handle × ℕ}
    (he : s'.editors i = some e) :
    s.editors i = some e ∨
      ∃ path id, a = .put i path id ∧ s.known ⟨path, .ui id⟩ = false ∧
        e = (⟨path, .ui id⟩, s.time) := by
  cases hst with
  | @put j path id hnew =>
    by_cases hj : i = j
    · subst hj
      dsimp only at he
      rw [update_self] at he
      exact .inr ⟨path, id, rfl, hnew, (some.inj he).symm⟩
    · dsimp only at he
      rw [update_of_ne hj] at he
      exact .inl he
  | @saved j _ _ =>
    by_cases hj : i = j
    · subst hj
      dsimp only at he
      rw [update_self] at he
      cases he
    · dsimp only at he
      rw [update_of_ne hj] at he
      exact .inl he
  | _ => exact .inl he

theorem Honest.stepped (hs : s.Honest) (hst : Stepped C s a s') : s'.Honest := by
  constructor
  · intro job kept read htn
    refine hst.docStep.seen ?_
    rcases hst.merged htn with htn | rfl
    · exact hs.read job kept read htn
    · exact s.doc.seen_read
  · intro i e he
    rcases hst.editors he with he | ⟨path, id, -, -, rfl⟩
    · exact hs.editor i e he
    · exact ⟨id, rfl⟩

end Handles

end Flint.Syncer
