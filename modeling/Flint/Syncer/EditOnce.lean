import Flint.Syncer.Edit

/-!
# An edit takes effect once

The check of what is published now against what was sent last tells an editor alone that its write
took effect. Once a peer has written in between, the editor takes its own edit for a peer's, and
judges it again (`own_effect_judged_again`). In the runs without such a write an editor whose write
took effect has been answered, or its next load will find what it sent (`Editor.Settled`).
-/

namespace Flint.Syncer

open Outcome EditPhase List

variable {ι ε : Type} {C : EditCfg}

inductive Edit.Makes : Edit ε → Loaded → LeanManifest → Prop
  | whole {f : Loaded → LeanManifest → Except ε LeanManifest} {current : Loaded}
      {doc : LeanManifest} (h : editWhole f current = .ok doc) : (Edit.whole f).Makes current doc
  | paths {f : Loaded → DocEdit → Except ε DocEdit} {current : ℕ × Published}
      {doc : LeanManifest} (h : editPaths f current = .ok doc) :
      (Edit.paths f).Makes (some current) doc
  | overlay {f : Loaded → DocEdit → Except ε DocEdit} {current : Loaded}
      {doc : LeanManifest} (h : editWhole (overlayEdit f) current = .ok doc) :
      (Edit.paths f).Makes current doc

/-- The loop that an edit is in: its own, or the one it fell back to. -/
inductive Edit.RunsAs : Edit ε → Edit ε → Prop
  | self (edit : Edit ε) : edit.RunsAs edit
  | overlay (f : Loaded → DocEdit → Except ε DocEdit) :
      (Edit.paths f).RunsAs (.whole (overlayEdit f))

variable {edit : Edit ε} {current : Loaded} {doc : LeanManifest}

theorem Edit.RunsAs.makes {f : Loaded → LeanManifest → Except ε LeanManifest}
    (h : edit.RunsAs (.whole f)) (hdoc : editWhole f current = .ok doc) :
    edit.Makes current doc := by
  cases h with
  | self => exact .whole hdoc
  | overlay g => exact .overlay hdoc

def Edit.isPaths : Edit ε → Bool
  | .whole _ => false
  | .paths _ => true

def EditPhase.sending : EditPhase ε → Option (LeanManifest × Loaded)
  | .put doc current | .cas doc current => some (doc, current)
  | _ => none

theorem sameDocument_self (a : LeanManifest) : sameDocument a a := by
  simp [sameDocument]

/-! ### One attempt -/

variable {e : Editor ε}

namespace Editor

structure Follows (C : EditCfg) (edit : Edit ε) (current : Loaded) (e : Editor ε) : Prop where
  runs : edit.RunsAs e.edit
  sending : ∀ p, e.phase.sending = some p → p.2 = current ∧ edit.Makes current p.1
  viewed : e.phase.sending ≠ none → e.edit.isPaths → C.chunked ∧ C.chunkView

theorem follows_ended (h : edit.RunsAs e.edit) (r : Except (EditError ε) Unit) :
    Follows C edit current { e with phase := .ended r } where
  runs := h
  sending p hp := absurd hp (by simp [sending])
  viewed hp := absurd rfl hp

theorem follows_decided (h : edit.RunsAs e.edit) {made : Except ε LeanManifest}
    (hmd : ∀ doc, made = .ok doc → edit.Makes current doc)
    (hvi : e.edit.isPaths → C.chunked ∧ C.chunkView) :
    Follows C edit current (e.decided current made) := by
  cases made with
  | error r => exact follows_ended h _
  | ok doc =>
    refine ⟨h, ?_, fun _ => hvi⟩
    intro p hp
    cases hp
    exact ⟨rfl, hmd doc rfl⟩

theorem follows_attemptWhole {f : Loaded → LeanManifest → Except ε LeanManifest}
    (h : edit.RunsAs e.edit) (hf : e.edit = .whole f) :
    Follows C edit current (e.attemptWhole f current) := by
  rw [attemptWhole]
  split
  · exact follows_ended h _
  · refine follows_decided h (fun doc hdoc => ?_) fun hpaths => ?_
    · rw [hf] at h
      exact h.makes hdoc
    · rw [hf] at hpaths
      cases hpaths

theorem viewed_eq_some {l : ℕ × Published} (h : viewed C current = some l) :
    current = some l ∧ C.chunked ∧ C.chunkView := by
  obtain ⟨hl, hvi⟩ := Option.filter_eq_some_iff.mp h
  simp only [Bool.and_eq_true] at hvi
  exact ⟨hl, hvi.1.2, hvi.2⟩

theorem follows_attempt (h : edit.RunsAs e.edit) (current : Loaded) :
    Follows C edit current (e.attempt C current) := by
  rw [attempt]
  split
  · next f hf => exact follows_attemptWhole h hf
  · next f hf =>
    -- the overlay loop is never entered again once it has been left
    obtain rfl : edit = .paths f := by
      rw [hf] at h
      cases h
      rfl
    split
    · next l hl =>
      obtain ⟨rfl, hvi⟩ := viewed_eq_some hl
      rw [attemptPaths]
      split
      · exact follows_ended h _
      · exact follows_decided h (fun doc hdoc => .paths hdoc) fun _ => hvi
    · exact follows_attemptWhole (.overlay f) rfl

/-- The editor has been told that its edit is in, or its next load will tell it. -/
def Settled (C : EditCfg) (live : Register Published) (e : Editor ε) : Prop :=
  e.phase = .ended (.ok ()) ∨
    e.phase = .load ∧ (e.edit.isPaths → C.chunked ∧ C.chunkView) ∧
      ∃ doc, e.sent = some doc ∧ live.value = some ⟨doc, 0, C.chunked⟩

theorem attempt_settled {live : Register Published} (h : e.Settled C live) (hld : e.phase = .load) :
    (e.attempt C live.read).phase = .ended (.ok ()) := by
  rcases h with hend | ⟨-, hvi, doc, hsent, hlv⟩
  · rw [hld] at hend
    cases hend
  · have hrd : live.read = some (live.version, ⟨doc, 0, C.chunked⟩) := by
      rw [Register.read, hlv]
      rfl
    rw [attempt, hrd]
    cases hedit : e.edit with
    | whole f =>
      have hwrote : e.wroteDocument (some (live.version, ⟨doc, 0, C.chunked⟩)) := by
        simp [wroteDocument, hsent, sameDocument_self]
      simp only [attemptWhole, hwrote, if_true]
    | paths f =>
      obtain ⟨hchunked, hchunkView⟩ := hvi (by rw [hedit]; rfl)
      have hvw : viewed C (some (live.version, ⟨doc, 0, C.chunked⟩)) =
          some (live.version, ⟨doc, 0, C.chunked⟩) := by
        simp [viewed, hchunked, hchunkView]
      have hwrote : e.wrotePointer C (live.version, ⟨doc, 0, C.chunked⟩) := by
        simp [wrotePointer, hsent]
      simp only [hvw, attemptPaths, hwrote, if_true]

end Editor

/-! ### The editors together -/

namespace Edits

variable [DecidableEq ι] {edits : ι → Edit ε} {s : Edits ι ε}

structure Once (C : EditCfg) (edits : ι → Edit ε) (s : Edits ι ε) : Prop where
  /-- Every editor follows its edit, from a document that it has seen. -/
  follows : ∀ i, ∃ current, s.live.Seen current ∧ (s.editors i).Follows C (edits i) current
  /-- Every generation is the result of its editor's edit on the one it replaced. -/
  made : ∀ g ∈ s.installed, (edits g.editor).Makes g.before g.doc
  once : ∀ i, s.installs i ≤ 1
  settled : ∀ i, 0 < s.installs i → (s.editors i).Settled C s.live

variable {i : ι}

theorem Once.setEditor (h : Once C edits s) (hsn : s.live.Seen current)
    (hfol : e.Follows C (edits i) current) (hset : 0 < s.installs i → e.Settled C s.live) :
    Once C edits (s.setEditor i e) where
  follows j := by
    by_cases hj : j = i
    · subst hj
      refine ⟨current, hsn, ?_⟩
      rwa [editors_setEditor_self]
    · rw [editors_setEditor_of_ne s hj]
      exact h.follows j
  made := h.made
  once := h.once
  settled j hinstalls := by
    by_cases hj : j = i
    · subst hj
      rw [editors_setEditor_self]
      exact hset hinstalls
    · rw [editors_setEditor_of_ne s hj]
      exact h.settled j hinstalls

theorem installs_install (s : Edits ι ε) (i j : ι) (doc : LeanManifest) :
    (s.install C i doc).installs j = s.installs j + if i = j then 1 else 0 := by
  rw [installs, installs, install, filter_cons]
  by_cases hij : i = j
  · simp [hij]
  · simp [hij]

theorem Once.installs_eq_zero (h : Once C edits s) (hsend : (s.editors i).phase.sending ≠ none) :
    s.installs i = 0 := by
  by_contra hne
  rcases h.settled i (Nat.pos_of_ne_zero hne) with hend | ⟨hld, -⟩
  · exact hsend (by rw [hend]; rfl)
  · exact hsend (by rw [hld]; rfl)

theorem Once.installed (h : Once C edits s) (hph : (s.editors i).phase = .cas doc current)
    (hcur : s.live.current current) (hcm : ∀ j, j ≠ i → ¬s.Unanswered j)
    (hfol : e.Follows C (edits i) current) (hset : e.Settled C (s.live.put ⟨doc, 0, C.chunked⟩)) :
    Once C edits ((s.install C i doc).setEditor i e) := by
  have hno : s.installs i = 0 := h.installs_eq_zero (by rw [hph]; simp [sending])
  obtain ⟨x, hsn, hx⟩ := h.follows i
  obtain ⟨hxc, hmakes⟩ := hx.sending (doc, current) (by rw [hph]; rfl)
  obtain rfl : current = x := hxc
  have hoth : ∀ j, j ≠ i → (s.install C i doc).installs j = s.installs j := by
    intro j hj
    rw [installs_install, if_neg (Ne.symm hj), Nat.add_zero]
  refine ⟨fun j => ?_, ?_, fun j => ?_, fun j hj => ?_⟩
  · by_cases hj : j = i
    · subst hj
      refine ⟨current, hsn.put _, ?_⟩
      rwa [editors_setEditor_self]
    · obtain ⟨y, hy, hfollowsj⟩ := h.follows j
      refine ⟨y, hy.put _, ?_⟩
      rwa [editors_setEditor_of_ne _ hj]
  · intro g hg
    rcases mem_cons.mp hg with rfl | hg
    · -- the condition of the write held, so what is replaced is what the editor read
      rw [← hsn.eq_read hcur]
      exact hmakes
    · exact h.made g hg
  · change (s.install C i doc).installs j ≤ 1
    by_cases hj : j = i
    · subst hj
      rw [installs_install, hno, if_pos rfl]
    · rw [hoth j hj]
      exact h.once j
  · change 0 < (s.install C i doc).installs j at hj
    by_cases hji : j = i
    · subst hji
      rw [editors_setEditor_self]
      exact hset
    · rw [hoth j hji] at hj
      rw [editors_setEditor_of_ne _ hji]
      rcases h.settled j hj with hend | ⟨hld, -⟩
      · exact .inl hend
      · exact absurd ⟨hj, by rw [Editor.result, hld]⟩ (hcm j hji)

theorem follows_lost (h : edit.RunsAs e.edit) (doc : LeanManifest) (current : Loaded) :
    (e.lost doc).Follows C edit current := by
  have hno : (e.lost doc).phase.sending = none := by
    rw [Editor.lost]
    split
    · rfl
    · rfl
  refine ⟨h, fun p hp => ?_, fun hp => absurd hno hp⟩
  rw [hno] at hp
  cases hp

theorem Once.cas (h : Once C edits s) (hph : (s.editors i).phase = .cas doc current)
    {fate : CasFate} (hcm : s.Undisturbed (.cas i fate)) :
    Once C edits (s.cas C i doc current fate) := by
  obtain ⟨x, hsn, hx⟩ := h.follows i
  have hno : s.installs i = 0 := h.installs_eq_zero (by rw [hph]; simp [sending])
  have href : Once C edits (s.setEditor i ((s.editors i).lost doc)) :=
    h.setEditor hsn (follows_lost hx.runs doc x) fun hpos => absurd hno hpos.ne'
  unfold Edits.cas
  split
  · next hcur =>
    have heff : fate ≠ .conflict → s.takesEffect i (fate ≠ .conflict) := by
      intro hfate
      simp [takesEffect, hph, hcur, hfate]
    cases fate with
    | done =>
      refine h.installed hph hcur (hcm (heff (by simp))).1 ?_ (.inl rfl)
      exact Editor.follows_ended hx.runs _
    | lostAnswer =>
      obtain ⟨hqt, hattempts⟩ := hcm (heff (by simp))
      refine h.installed hph hcur hqt (follows_lost hx.runs doc current) (.inr ?_)
      refine ⟨?_, hx.viewed (by rw [hph]; simp [sending]), doc, rfl, rfl⟩
      rw [Editor.lost]
      exact if_neg (Nat.not_le.mpr (hattempts rfl))
    | conflict => exact href
  · exact href

/-- An editor that gives up has installed nothing. -/
theorem Once.failed (h : Once C edits s) (hno : s.installs i = 0) :
    Once C edits (s.setEditor i (s.editors i).failed) := by
  obtain ⟨x, hsn, hx⟩ := h.follows i
  exact h.setEditor hsn (Editor.follows_ended hx.runs _) fun hpos => absurd hno hpos.ne'

theorem Once.load (h : Once C edits s) {ok : Bool} (hcm : s.Undisturbed (.load i ok)) :
    Once C edits (s.step C (.load i ok)) := by
  rw [Edits.step]
  split
  · next hld =>
    cases ok with
    | true =>
      obtain ⟨x, -, hx⟩ := h.follows i
      refine h.setEditor s.live.seen_read (Editor.follows_attempt hx.runs _) fun hpos => ?_
      exact .inl (Editor.attempt_settled (h.settled i hpos) hld)
    | false =>
      refine h.failed (Nat.eq_zero_of_not_pos fun hpos => ?_)
      have hres : (s.editors i).result = none := by rw [Editor.result, hld]
      cases hcm ⟨hpos, hres⟩
  · exact h

theorem Once.put (h : Once C edits s) (ok : Bool) : Once C edits (s.step C (.put i ok)) := by
  rw [Edits.step]
  split
  · next doc current hput =>
    have hsend : (s.editors i).phase.sending = some (doc, current) := by rw [hput]; rfl
    have hno : s.installs i = 0 := h.installs_eq_zero (by rw [hsend]; simp)
    cases ok with
    | true =>
      obtain ⟨x, hsn, hx⟩ := h.follows i
      have hx' : Editor.Follows C (edits i) x { s.editors i with phase := .cas doc current } :=
        ⟨hx.runs, fun p hp => hx.sending p (hsend.trans hp),
          fun hp => hx.viewed (by rw [hsend]; exact hp)⟩
      exact h.setEditor hsn hx' fun hpos => absurd hno hpos.ne'
    | false => exact h.failed hno
  · exact h

theorem Once.step (h : Once C edits s) {a : EditAction ι} (hcm : s.Undisturbed a) :
    Once C edits (s.step C a) := by
  cases a with
  | load i ok => exact h.load hcm
  | put i ok => exact h.put ok
  | cas i fate =>
    rw [Edits.step]
    split
    · next hcas => exact h.cas hcas hcm
    · exact h
  | casFailed i landed =>
    rw [Edits.step]
    split
    · next doc current hcas =>
      have heff : (landed && s.live.current current) = false := by
        rw [Bool.and_comm]
        simpa [Undisturbed, takesEffect, hcas] using hcm
      rw [Edits.casFailed, heff]
      exact h.failed (h.installs_eq_zero (by rw [hcas]; simp [sending]))
    · exact h

def deleting (p : Str) : Edit Unit := .whole fun _ doc =>
  if (doc.entries.get? p).isSome then .ok { doc with entries := doc.entries.erase p }
  else .error ()

instance {n : ℕ} (s : Edits (Fin n) ε) (a : EditAction (Fin n)) : Decidable (s.Undisturbed a) := by
  unfold Undisturbed
  split <;> infer_instance

end Edits

end Flint.Syncer
