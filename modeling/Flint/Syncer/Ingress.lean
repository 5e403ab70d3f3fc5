import Flint.Syncer.Citing

/-!
# The ingress sweep adopts a version once

The object that an outsider puts at a bare key stays there. The ingress sweep adopts it by citing a
copy, and leaves it alone while the path cites this copy. A commit that replaces the citation makes
it come back (`version_adopted_again`).

In the runs without this a citation of a copy is replaced only after the object at the bare key has
been overwritten, and when no sweep has the old one listed (`Withdrawn`).
-/

namespace Flint.Syncer

open Outcome SortedMap Function List

def TrackPhase.pending : TrackPhase → List (Str × ℕ)
  | .tracking _ _ objects => objects.map fun r => (r.1, r.2.etag)
  | .copied _ _ path etag _ objects => (path, etag) :: objects.map fun r => (r.1, r.2.etag)
  | _ => []

def TrackPhase.copiedVersion : TrackPhase → Option (Str × ℕ)
  | .copied _ _ path etag _ _ => some (path, etag)
  | _ => none

theorem TrackPhase.copiedVersion_mem_pending {track : TrackPhase} {v : Str × ℕ}
    (h : track.copiedVersion = some v) : v ∈ track.pending := by
  cases track with
  | copied cited now path etag made rest =>
    cases h
    exact .head _
  | _ => cases h

namespace Handles

variable {ι κ : Type} {C : GraceCfg} {s : Handles ι κ} {a : HandleAction ι κ}

/-! ### What a request does to the bare keys and to the sweeps -/

theorem Sweeps.pending {k : κ} {track : TrackPhase} (hsws : Sweeps C s k a track) {v : Str × ℕ}
    (hv : v ∈ track.pending) :
    v ∈ (s.tracks k).pending ∨ ∃ o, s.bare.get? v.1 = some o ∧ o.etag = v.2 := by
  cases hsws with
  | load _ | done _ => cases hv
  | list _ =>
    obtain ⟨r, hr, rfl⟩ := mem_map.mp hv
    exact .inr ⟨r.2, get?_eq_some.mpr hr, rfl⟩
  | skip htrk =>
    rw [htrk]
    exact .inl (.tail _ hv)
  | found htrk _ =>
    rw [htrk]
    exact .inl hv
  | refused htrk _ =>
    rw [htrk]
    exact .inl (.tail _ hv)

section Steps

variable [DecidableEq κ] [DecidableEq ι] {s' : Handles ι κ}

theorem Stepped.etags_subset (hst : Stepped C s a s') : s.etags ⊆ s'.etags := by
  cases hst with
  | ingress _ => exact subset_cons_self _ _
  | _ => exact Subset.refl _

theorem Stepped.bare (hst : Stepped C s a s') {p : Str} {o : IngressObject}
    (ho : s'.bare.get? p = some o) :
    s.bare.get? p = some o ∨ o.etag ∉ s.etags ∧ o.etag ∈ s'.etags := by
  cases hst with
  | ingress hnew =>
    rw [get?_insert] at ho
    split at ho
    · cases ho
      exact .inr ⟨hnew, .head _⟩
    · exact .inl ho
  | _ => exact .inl ho

theorem Stepped.pending (hst : Stepped C s a s') {k : κ} {v : Str × ℕ}
    (hv : v ∈ (s'.tracks k).pending) :
    v ∈ (s.tracks k).pending ∨ ∃ o, s.bare.get? v.1 = some o ∧ o.etag = v.2 := by
  -- one sweep moves, and the others have what they had
  have key : ∀ (j : κ) (track : TrackPhase), (v ∈ track.pending →
      v ∈ (s.tracks j).pending ∨ ∃ o, s.bare.get? v.1 = some o ∧ o.etag = v.2) →
      v ∈ (update s.tracks j track k).pending →
      v ∈ (s.tracks k).pending ∨ ∃ o, s.bare.get? v.1 = some o ∧ o.etag = v.2 := by
    intro j track htrk hv
    by_cases hj : k = j
    · subst hj
      rw [update_self] at hv
      exact htrk hv
    · rw [update_of_ne hj] at hv
      exact .inl hv
  cases hst with
  | tracked hsws => exact key _ _ hsws.pending hv
  | copied htrk _ _ _ =>
    refine key _ _ (fun hv => ?_) hv
    rw [htrk]
    exact .inl hv
  | adopted htrk _ =>
    refine key _ _ (fun hv => ?_) hv
    rw [htrk]
    exact .inl (.tail _ hv)
  | _ => exact .inl hv

end Steps

/-! ### Spent versions -/

def adoptedEtag (r : Str × Handle) : Option ℕ :=
  match r.2.flush with
  | .ingress etag => if r.2.path = r.1 then some etag else none
  | _ => none

def Gone (s : Handles ι κ) (path : Str) (etag : ℕ) : Prop :=
  (∀ o ∈ s.bare.get? path, o.etag ≠ etag) ∧ ∀ k, (path, etag) ∉ (s.tracks k).pending

/-- The request replaces the citation of a copy only when the object it is a copy of has been
overwritten, and no sweep has it listed. -/
def Withdrawn (s : Handles ι κ) (a : HandleAction ι κ) : Prop :=
  ∀ d ∈ s.nextDoc a, ∀ r ∈ s.replacedBy d, ∀ etag ∈ adoptedEtag r, s.Gone r.1 etag

/-- Versions that were replaced are spent: no sweep can come upon one. -/
structure Spent (s : Handles ι κ) : Prop where
  bare : ∀ p, ∀ o ∈ s.bare.get? p, o.etag ∈ s.etags
  pending : ∀ k, ∀ v ∈ (s.tracks k).pending, v.2 ∈ s.etags
  cited : ∀ h ∈ citedHandles s.citations, ∀ etag, h.flush = .ingress etag → etag ∈ s.etags
  replaced : ∀ r ∈ s.replaced, ∀ etag ∈ adoptedEtag r, etag ∈ s.etags ∧ s.Gone r.1 etag

theorem adoptedEtag_eq_some {r : Str × Handle} {etag : ℕ} :
    adoptedEtag r = some etag ↔ r.2 = ⟨r.1, .ingress etag⟩ := by
  obtain ⟨p, q, flush⟩ := r
  cases flush with
  | own id | ui id | ingress e => simp [adoptedEtag]

theorem spent_start (time : ℕ) (bare : SortedMap Str IngressObject) (objects : Handle → Option ℕ)
    (doc : Option Citations) (logs : List RetireLog) :
    (start time bare objects doc logs : Handles ι κ).Spent := by
  refine ⟨?_, fun _ _ hv => absurd hv not_mem_nil, ?_, fun _ hr => absurd hr not_mem_nil⟩
  · intro p o ho
    refine mem_append_left _ (mem_map.mpr ⟨(p, o), ?_, rfl⟩)
    exact get?_eq_some.mp ho
  · intro h hh etag het
    refine mem_append_right _ (mem_filterMap.mpr ⟨h, hh, ?_⟩)
    simp [het]

theorem Spent.brings (hs : s.Spent) (hhonest : s.Honest) {p : Str} {h : Handle}
    (hbrg : s.Brings a p h) {etag : ℕ} (het : h.flush = .ingress etag) : etag ∈ s.etags := by
  cases a with
  | cas =>
    obtain ⟨job, kept, read, -, -, rfl⟩ := hbrg
    cases het
  | save i =>
    obtain ⟨t, hi, -⟩ := hbrg
    obtain ⟨id, hid⟩ := hhonest.editor i (h, t) hi
    rw [hid] at het
    cases het
  | rename src dst => exact hs.cited h (mem_citedHandles.mpr ⟨src, hbrg.1⟩) etag het
  | trackCommit k =>
    obtain ⟨cited, now, e, made, rest, hk, rfl⟩ := hbrg
    obtain rfl : e = etag := Flush.ingress.inj het
    refine hs.pending k (p, e) ?_
    rw [hk]
    exact .head _
  | _ => exact hbrg.elim

section Run

variable [DecidableEq κ] [DecidableEq ι] {s' : Handles ι κ}

theorem Gone.stepped {path : Str} {etag : ℕ} (hgo : s.Gone path etag) (hkn : etag ∈ s.etags)
    (hst : Stepped C s a s') : s'.Gone path etag := by
  constructor
  · intro o ho
    rcases hst.bare ho with ho | ⟨hnew, -⟩
    · exact hgo.1 o ho
    · rintro rfl
      exact hnew hkn
  · intro k hk
    rcases hst.pending hk with hk | ⟨o, ho, het⟩
    · exact hgo.2 k hk
    · exact hgo.1 o ho het

theorem Spent.stepped (hs : s.Spent) (hhonest : s.Honest) (hst : Stepped C s a s')
    (ha : s.Withdrawn a) : s'.Spent := by
  have hetags : s.etags ⊆ s'.etags := hst.etags_subset
  refine ⟨?_, ?_, ?_, ?_⟩
  · intro p o ho
    rcases hst.bare ho with ho | ⟨-, hkn⟩
    · exact hetags (hs.bare p o ho)
    · exact hkn
  · intro k v hv
    rcases hst.pending hv with hv | ⟨o, ho, het⟩
    · exact hetags (hs.pending k v hv)
    · exact het ▸ hetags (hs.bare v.1 o ho)
  · intro h hh etag het
    refine hetags ?_
    obtain ⟨p, hp⟩ := mem_citedHandles.mp hh
    rcases hst.docStep.cases hp with ⟨-, hp⟩ | ⟨d, hd, hp⟩
    · exact hs.cited h (mem_citedHandles.mpr ⟨p, hp⟩) etag het
    · rcases hhonest.cites_nextDoc hd hp with hp | hbrg
      · exact hs.cited h (mem_citedHandles.mpr ⟨p, hp⟩) etag het
      · exact hs.brings hhonest hbrg het
  · intro r hr etag het
    have hold : etag ∈ s.etags ∧ s.Gone r.1 etag := by
      rw [hst.docStep.replaced] at hr
      cases hd : s.nextDoc a with
      | none =>
        rw [hd] at hr
        exact hs.replaced r hr etag het
      | some d =>
        rw [hd] at hr
        rcases mem_append.mp hr with hr | hr
        · have hcit : r.2 ∈ citedHandles s.citations :=
            mem_citedHandles.mpr ⟨r.1, (mem_replacedBy.mp hr).1⟩
          have hfl : r.2.flush = .ingress etag := by rw [adoptedEtag_eq_some.mp het]
          exact ⟨hs.cited r.2 hcit etag hfl, ha d hd r hr etag het⟩
        · exact hs.replaced r hr etag het
    exact ⟨hetags hold.1, hold.2.stepped hold.1 hst⟩

/-- In a run in which citations of copies are replaced only when the version they are copies of is
gone, no sweep comes to cite a version whose citation was replaced. -/
theorem version_adopted_once (C : GraceCfg) (time : ℕ) (bare : SortedMap Str IngressObject)
    (objects : Handle → Option ℕ) (doc : Option Citations) (logs : List RetireLog)
    (l : List (HandleAction ι κ))
    (hl : Steps (step C) Withdrawn (start time bare objects doc logs) l) {k : κ}
    {path : Str} {etag : ℕ}
    (hk : ((run (step C) (start time bare objects doc logs) l).tracks k).copiedVersion =
      some (path, etag)) :
    (path, ⟨path, .ingress etag⟩) ∉
      (run (step C) (start time bare objects doc logs) l).replaced := by
  have hinv := run_invariant_of_steps (P := fun s : Handles ι κ => s.Honest ∧ s.Spent)
    (fun s a hs ha => ⟨hs.1.stepped (stepped s a), hs.2.stepped hs.1 (stepped s a) ha⟩)
    ⟨honest_start time bare objects doc logs, spent_start time bare objects doc logs⟩ hl
  intro hreplaced
  obtain ⟨-, -, hpn⟩ := hinv.2.replaced _ hreplaced etag (adoptedEtag_eq_some.mpr rfl)
  exact hpn k (TrackPhase.copiedVersion_mem_pending hk)

end Run

instance {n : ℕ} (s : Handles ι (Fin n)) (a : HandleAction ι (Fin n)) : Decidable (s.Withdrawn a) :=
  have (path : Str) (etag : ℕ) : Decidable (s.Gone path etag) := inferInstanceAs (Decidable (_ ∧ _))
  inferInstanceAs (Decidable (∀ d ∈ s.nextDoc a, _))

/-- An object is adopted, the file is saved, and the object is overwritten before that. The next
sweep has the new version. -/
theorem new_version_adopted :
    let a := Str.single 'a'
    let C : GraceCfg := ⟨600, 3600⟩
    let s₀ : Handles (Fin 1) (Fin 1) := start 0 .empty (fun _ => none) none []
    let l : List (HandleAction (Fin 1) (Fin 1)) :=
      [.ingress a 1, .trackLoad 0, .trackList 0 600, .trackCopy 0, .trackCommit 0, .trackCopy 0,
        .ingress a 2, .put 0 a 1, .save 0, .trackLoad 0, .trackList 0 600, .trackCopy 0]
    let s := run (step C) s₀ l
    Steps (step C) Withdrawn s₀ l ∧ (a, ⟨a, .ingress 1⟩) ∈ s.replaced ∧
      (a, ⟨a, .ingress 2⟩) ∉ s.replaced := by
  refine ⟨by decide, by decide, ?_⟩
  exact version_adopted_once ⟨600, 3600⟩ 0 .empty (fun _ => none) none [] _ (by decide) (k := 0)
    (by decide)

/-- A version is adopted, and then the file is saved or deleted. The next sweep cites the copy once
more: over the save, or at a path that was deleted. -/
theorem version_adopted_again :
    let a := Str.single 'a'
    let C : GraceCfg := ⟨600, 3600⟩
    let s₀ : Handles (Fin 1) (Fin 1) := start 0 .empty (fun _ => none) none []
    let first : List (HandleAction (Fin 1) (Fin 1)) :=
      [.ingress a 1, .trackLoad 0, .trackList 0 600, .trackCopy 0, .trackCommit 0, .trackCopy 0]
    let again : List (HandleAction (Fin 1) (Fin 1)) :=
      [.trackLoad 0, .trackList 0 600, .trackCopy 0]
    let s₁ := run (step C) s₀ (first ++ [.put 0 a 1, .save 0] ++ again)
    let s₂ := run (step C) s₀ (first ++ [.remove a] ++ again)
    ((a, ⟨a, .ingress 1⟩) ∈ s₁.replaced ∧ s₁.citations.get? a = some ⟨a, .ui 1⟩ ∧
        (s₁.step C (.trackCommit 0)).citations.get? a = some ⟨a, .ingress 1⟩) ∧
      (a, ⟨a, .ingress 1⟩) ∈ s₂.replaced ∧ s₂.citations.get? a = none ∧
        (s₂.step C (.trackCommit 0)).citations.get? a = some ⟨a, .ingress 1⟩ := by
  decide

end Handles

end Flint.Syncer
