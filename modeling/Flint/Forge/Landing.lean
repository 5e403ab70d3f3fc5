import Mathlib.Data.List.Induction
import Flint.Forge.Reports

/-!
# From the snapshot to the repository

The snapshot is written first and the local refs second: a batch whose transaction git refuses has
moved the bucket, and all its pushes are told that they failed. So the transaction has to be one
that git takes (`Transaction`): one line for each ref, a creation of a ref that is not there, a
deletion or an update that gives the value that is, and no name that is a directory of another one.
Not every batch sees to that, and not every write that landed is recognised (`landed_and_refused`).
-/

namespace Flint.Forge

open SortedMap List

/-! ### Git's transactions -/

def Line.name : Line → Str
  | .delete name _ | .create name _ | .update name _ _ => name

variable (refs : Refs)

def Line.Accepted : Line → Prop
  | .delete name old => norm (some old) ≠ absent ∧ refs.get? name = some old
  | .create name _ => refs.get? name = none
  | .update name _ old => if norm (some old) = absent then refs.get? name = none
    else refs.get? name = some old

instance (line : Line) : Decidable (line.Accepted refs) := by
  unfold Line.Accepted
  split <;> infer_instance

def Line.apply : Line → Refs
  | .delete name _ => refs.erase name
  | .create name new | .update name new _ => refs.insert name new

def applyScript (lines : List Line) : Refs := lines.foldl Line.apply refs

structure Transaction (refs : Refs) (lines : List Line) : Prop where
  once : (lines.map Line.name).Nodup
  accepted : ∀ line ∈ lines, line.Accepted refs
  names : Materialisable (applyScript refs lines)

instance (lines : List Line) : Decidable (Transaction refs lines) :=
  decidable_of_iff ((lines.map Line.name).Nodup ∧ (∀ line ∈ lines, line.Accepted refs) ∧
      Materialisable (applyScript refs lines))
    ⟨fun h => ⟨h.1, h.2.1, h.2.2⟩, fun h => ⟨h.once, h.accepted, h.names⟩⟩

/-- Git takes the scripts of `Transaction`, and no others. -/
structure GitTransacts (transact : Refs → List Line → Except ForgeError Refs) : Prop where
  ok : ∀ refs lines, Transaction refs lines → transact refs lines = .ok (applyScript refs lines)
  refused : ∀ refs lines, ¬Transaction refs lines → ∃ e, transact refs lines = .error e

/-- Git as it is assumed to be. -/
def transact (lines : List Line) : Except ForgeError Refs :=
  if Transaction refs lines then .ok (applyScript refs lines)
  else .error (.git "update-ref transaction refused")

theorem gitTransacts_transact : GitTransacts transact where
  ok := fun _ _ h => if_pos h
  refused := fun _ _ h => ⟨_, if_neg h⟩

/-! ### The coalesced updates -/

def Real : Prop := ∀ name oid, refs.get? name = some oid → norm (some oid) ≠ absent

inductive Chained (S : Refs) : List RefUpdate → Prop
  | nil : Chained S []
  | snoc {l : List RefUpdate} {u : RefUpdate} (h : Chained S l)
    (hold : norm (some u.oldOid) = norm ((published S l).get? u.name)) : Chained S (l ++ [u])

structure Coalesced (S : Refs) (l out : List RefUpdate) : Prop where
  once : (out.map RefUpdate.name).Nodup
  old : ∀ e ∈ out, norm (some e.oldOid) = norm (S.get? e.name)
  value : ∀ e ∈ out, e.value = (published S l).get? e.name
  others : ∀ name, name ∉ out.map RefUpdate.name → (published S l).get? name = S.get? name
  names : ∀ name, name ∈ out.map RefUpdate.name ↔ name ∈ l.map RefUpdate.name

section Coalesce

variable {S : Refs} {l out : List RefUpdate} {u : RefUpdate}

theorem coalesceOne_present (h : u.name ∈ out.map RefUpdate.name) :
    coalesceOne out u = out.map fun e => if e.name = u.name then { e with newOid := u.newOid }
      else e := by
  obtain ⟨e, he, hna⟩ := mem_map.mp h
  exact if_pos (any_eq_true.mpr ⟨e, he, by simpa using hna⟩)

theorem coalesceOne_fresh (h : u.name ∉ out.map RefUpdate.name) :
    coalesceOne out u = out ++ [u] := by
  refine if_neg fun hany => h ?_
  obtain ⟨e, he, hna⟩ := any_eq_true.mp hany
  exact mem_map.mpr ⟨e, he, by simpa using hna⟩

theorem names_replaced (out : List RefUpdate) (u : RefUpdate) :
    (out.map fun e => if e.name = u.name then { e with newOid := u.newOid } else e).map
      RefUpdate.name =
      out.map RefUpdate.name := by
  rw [map_map]
  refine map_congr_left fun e _ => ?_
  show RefUpdate.name (if e.name = u.name then { e with newOid := u.newOid } else e) = e.name
  split
  · rfl
  · rfl

theorem get?_published_snoc (name : Str) :
    (published S (l ++ [u])).get? name =
      if name = u.name then u.value else (published S l).get? name := by
  rw [published_append, get?_patchOne]

theorem Coalesced.present (h : Coalesced S l out) (hmem : u.name ∈ out.map RefUpdate.name) :
    Coalesced S (l ++ [u]) (coalesceOne out u) := by
  rw [coalesceOne_present hmem]
  have hnms := names_replaced out u
  -- the entries are those that there were, and the one of the ref with its new end
  have hcase : ∀ e ∈ out.map
    (fun e => if e.name = u.name then { e with newOid := u.newOid } else e),
      ∃ e' ∈ out, e.name = e'.name ∧ e.oldOid = e'.oldOid ∧
        (e'.name = u.name ∧ e.newOid = u.newOid ∨ e'.name ≠ u.name ∧ e.newOid = e'.newOid) := by
    intro e he
    obtain ⟨e', he', rfl⟩ := mem_map.mp he
    refine ⟨e', he', ?_⟩
    by_cases heq : e'.name = u.name
    · rw [if_pos heq]
      exact ⟨rfl, rfl, .inl ⟨heq, rfl⟩⟩
    · rw [if_neg heq]
      exact ⟨rfl, rfl, .inr ⟨heq, rfl⟩⟩
  refine ⟨hnms ▸ h.once, fun e he => ?_, fun e he => ?_, fun name hna => ?_, ?_⟩
  · obtain ⟨e', he', hna, hold, -⟩ := hcase e he
    rw [hna, hold]
    exact h.old e' he'
  · obtain ⟨e', he', hna, -, ⟨hu, heq⟩ | ⟨hu, heq⟩⟩ := hcase e he
    · rw [get?_published_snoc, hna, if_pos hu, RefUpdate.value, heq]
      rfl
    · rw [get?_published_snoc, hna, if_neg hu, RefUpdate.value, heq]
      exact h.value e' he'
  · rw [hnms] at hna
    have hne : name ≠ u.name := fun heq => hna (heq ▸ hmem)
    rw [get?_published_snoc, if_neg hne]
    exact h.others name hna
  · intro name
    rw [hnms, h.names, map_append, mem_append, map_singleton, mem_singleton]
    refine (or_iff_left_of_imp fun heq => ?_).symm
    exact heq ▸ (h.names u.name).mp hmem

theorem Coalesced.fresh (h : Coalesced S l out) (hmem : u.name ∉ out.map RefUpdate.name)
    (hold : norm (some u.oldOid) = norm ((published S l).get? u.name)) :
    Coalesced S (l ++ [u]) (coalesceOne out u) := by
  rw [coalesceOne_fresh hmem]
  have hne : ∀ e ∈ out, e.name ≠ u.name := fun e he heq => hmem (mem_map.mpr ⟨e, he, heq⟩)
  refine ⟨?_, fun e he => ?_, fun e he => ?_, fun name hna => ?_, fun name => ?_⟩
  · rw [map_append, map_singleton]
    exact nodup_append.mpr ⟨h.once, nodup_singleton _, fun a ha b hb hab =>
      hmem ((mem_singleton.mp hb) ▸ hab ▸ ha)⟩
  · rcases mem_append.mp he with he | he
    · exact h.old e he
    · rw [mem_singleton.mp he, hold, h.others u.name hmem]
  · rcases mem_append.mp he with he | he
    · rw [get?_published_snoc, if_neg (hne e he)]
      exact h.value e he
    · rw [mem_singleton.mp he, get?_published_snoc, if_pos rfl]
  · rw [map_append, mem_append, not_or] at hna
    rw [get?_published_snoc, if_neg fun heq => hna.2 (by simp [heq])]
    exact h.others name hna.1
  · rw [map_append, map_append, mem_append, mem_append, h.names]

theorem coalesced_of_chained (h : Chained S l) : Coalesced S l (coalescePerRef l) := by
  induction h with
  | nil => exact ⟨nodup_nil, nofun, nofun, fun _ _ => rfl, fun _ => Iff.rfl⟩
  | @snoc l u _ hold ih =>
    rw [coalescePerRef, foldl_append]
    by_cases hmem : u.name ∈ (coalescePerRef l).map RefUpdate.name
    · exact ih.present hmem
    · exact ih.fresh hmem hold

theorem apply_line (u : RefUpdate) (refs : Refs) :
    u.line.apply refs = refs.patchOne (u.name, u.value) := by
  unfold RefUpdate.line RefUpdate.value
  split
  · rfl
  · split
    · rfl
    · rfl

theorem name_line (u : RefUpdate) : u.line.name = u.name := by
  unfold RefUpdate.line
  split
  · rfl
  · split
    · rfl
    · rfl

theorem applyScript_script (updates : List RefUpdate) :
    applyScript refs (script updates) = published refs updates := by
  rw [applyScript, script, foldl_map, published]
  exact congrArg (fun f => foldl f refs updates) (funext₂ fun refs u => apply_line u refs)

theorem get?_published (honce : (out.map RefUpdate.name).Nodup) (name : Str) :
    (∀ e ∈ out, e.name = name → (published S out).get? name = e.value) ∧
      (name ∉ out.map RefUpdate.name → (published S out).get? name = S.get? name) := by
  induction out using reverseRecOn with
  | nil => exact ⟨nofun, fun _ => rfl⟩
  | append_singleton out u ih =>
    rw [map_append, map_singleton, nodup_append] at honce
    obtain ⟨hout, -, hap⟩ := honce
    rw [get?_published_snoc]
    refine ⟨fun e he hna => ?_, fun hna => ?_⟩
    · rcases mem_append.mp he with he | he
      · have hne : name ≠ u.name := by
          subst hna
          exact hap e.name (mem_map_of_mem he) u.name (.head _)
        rw [if_neg hne]
        exact (ih hout).1 e he hna
      · rw [mem_singleton.mp he] at hna ⊢
        rw [if_pos hna.symm]
    · rw [map_append, map_singleton, mem_append, mem_singleton, not_or] at hna
      rw [if_neg hna.2]
      exact (ih hout).2 hna.1

theorem Coalesced.published_eq (h : Coalesced S l out) : published S out = published S l := by
  refine ext_get? fun name => ?_
  obtain ⟨hent, hoth⟩ := get?_published (S := S) h.once name
  by_cases hmem : name ∈ out.map RefUpdate.name
  · obtain ⟨e, he, rfl⟩ := mem_map.mp hmem
    rw [hent e he rfl, h.value e he]
  · rw [hoth hmem, h.others name hmem]

theorem norm_eq_absent {oid : Option Str} (hreal : ∀ o ∈ oid, norm (some o) ≠ absent) :
    norm oid = absent ↔ oid = none := by
  cases oid with
  | none => exact ⟨fun _ => rfl, fun _ => rfl⟩
  | some o => exact ⟨fun h => absurd h (hreal o rfl), fun h => absurd h (by simp)⟩

theorem eq_of_norm_eq {old oid : Str} (hreal : norm (some oid) ≠ absent)
    (h : norm (some old) = norm (some oid)) : old = oid := by
  have hsf : ∀ o : Str, norm (some o) ≠ absent → norm (some o) = o := by
    intro o ho
    rw [norm]
    split
    · next hz => exact absurd (by rw [norm, if_pos hz]) ho
    · rfl
  rw [← hsf old (h ▸ hreal), ← hsf oid hreal, h]

theorem Coalesced.accepted_line (h : Coalesced S l out) (hreal : Real S) {e : RefUpdate}
    (he : e ∈ out) :
    e.line.Accepted S ↔ (isZero e.newOid → S.get? e.name ≠ none) := by
  have hold := h.old e he
  have hreal' : ∀ o ∈ S.get? e.name, norm (some o) ≠ absent := fun o ho => hreal e.name o ho
  -- what the entry gives as the old value, and what is there
  have hno : norm (some e.oldOid) = absent ↔ S.get? e.name = none := by
    rw [hold]
    exact norm_eq_absent hreal'
  have hso : norm (some e.oldOid) ≠ absent → S.get? e.name = some e.oldOid := by
    intro hne
    obtain ⟨oid, hoid⟩ := Option.ne_none_iff_exists'.mp (hno.not.mp hne)
    rw [hoid] at hold
    rw [hoid, eq_of_norm_eq (hreal' oid hoid) hold]
  unfold RefUpdate.line
  split
  · next hz =>
    constructor
    · exact fun hacc _ => hno.not.mp hacc.1
    · exact fun hth => ⟨hno.not.mpr (hth hz), hso (hno.not.mpr (hth hz))⟩
  · next hnew =>
    refine ⟨fun _ hz => absurd hz hnew, fun _ => ?_⟩
    split
    · next hcreate => exact hno.mp (by rw [norm, if_pos hcreate])
    · show if norm (some e.oldOid) = absent then S.get? e.name = none
      else S.get? e.name = some e.oldOid
      split
      · next habs => exact hno.mp habs
      · next hth => exact hso hth

/-- What git takes: no ref is moved that is neither in the snapshot nor published, and no published
ref is a directory of another. -/
structure Landable (S : Refs) (l : List RefUpdate) : Prop where
  moved : ∀ u ∈ l, S.get? u.name = none → (published S l).get? u.name ≠ none
  names : Materialisable (published S l)

theorem transaction_iff (h : Chained S l) (hreal : Real S) :
    Transaction S (script (coalescePerRef l)) ↔ Landable S l := by
  have hco := coalesced_of_chained h
  have hpub : applyScript S (script (coalescePerRef l)) = published S l := by
    rw [applyScript_script, hco.published_eq]
  have hval : ∀ e ∈ coalescePerRef l, isZero e.newOid ↔ (published S l).get? e.name = none := by
    intro e he
    rw [← hco.value e he, RefUpdate.value]
    split
    · next hz => exact ⟨fun _ => rfl, fun _ => hz⟩
    · next hnew => exact ⟨fun hz => absurd hz hnew, fun hno => absurd hno (by simp)⟩
  constructor
  · intro htx
    refine ⟨fun u hu hno hgo => ?_, hpub ▸ htx.names⟩
    obtain ⟨e, he, hna⟩ := mem_map.mp ((hco.names u.name).mpr (mem_map_of_mem hu))
    rw [← hna] at hno hgo
    have hline := htx.accepted e.line (mem_map_of_mem he)
    exact (hco.accepted_line hreal he).mp hline ((hval e he).mpr hgo) hno
  · intro hln
    refine ⟨?_, fun line hline => ?_, hpub ▸ hln.names⟩
    · rw [script, map_map]
      exact (map_congr_left fun u _ => name_line u) ▸ hco.once
    · obtain ⟨e, he, rfl⟩ := mem_map.mp hline
      refine (hco.accepted_line hreal he).mpr fun hz hno => ?_
      obtain ⟨u, hu, hna⟩ := mem_map.mp ((hco.names e.name).mp (mem_map_of_mem he))
      rw [← hna] at hno
      exact hln.moved u hu hno (hna ▸ (hval e he).mp hz)

end Coalesce

/-! ### The batch -/

section Landing

variable {R : Rules} {E : Env} {s : Server} {pushes : List PushRequest} {j : Judging}
  {reports : List PushReport}

/-- Some commands are accepted, and the write of the snapshot takes effect. -/
structure Lands (R : Rules) (E : Env) (s : Server) (pushes : List PushRequest) (j : Judging)
    (reports : List PushReport) : Prop where
  unfenced : s.fenced = none
  judged : judgePushes R
    (agree s.localRefs s.snap).2 ⟨(agree s.localRefs s.snap).1, [], []⟩ pushes =
    .ok (j, reports)
  accepted : j.accepted ≠ []
  prepared : E.prepare s.snap j = .ok ()
  landed : E.cas.landed

theorem Lands.runBatch_eq (h : Lands R E s pushes j reports) :
    runBatch R E s pushes = publish E s j reports := by
  have hpushes : pushes.isEmpty = false := by
    cases pushes with
    | nil =>
      obtain ⟨rfl, -⟩ := Prod.mk.inj (Except.ok.inj h.judged)
      exact absurd rfl h.accepted
    | cons push pushes => rfl
  have hacc : j.accepted.isEmpty = false := isEmpty_eq_false_iff.mpr h.accepted
  simp only [runBatch, h.unfenced, hpushes, h.judged, hacc, Bool.false_eq_true, if_false]

/-- The snapshot has moved, and the refs follow exactly if the batch learns of it. -/
theorem Lands.publish_eq (h : Lands R E s pushes j reports) :
    (E.cas.recognised ∧ publish E s j reports =
        land E { s with snap := published s.snap j.accepted } j reports) ∨
      E.cas.recognised = false ∧ (publish E s j reports).1.snap = published s.snap j.accepted ∧
        ∃ e, (publish E s j reports).2 = .error e := by
  have hla := h.landed
  simp only [publish, h.prepared, hla, if_true]
  cases E.cas with
  | done | adopted => exact .inl ⟨rfl, rfl⟩
  | refused landed reason => exact .inr ⟨rfl, rfl, _, rfl⟩
  | unrecognised landed e => exact .inr ⟨rfl, rfl, e, rfl⟩

theorem Lands.kept (h : Lands R E s pushes j reports) {P : List RefUpdate → Prop}
    (hkp : ∀ push ∈ pushes, Kept R (agree s.localRefs s.snap).2 s.snap push P) (hnil : P []) :
    P j.accepted := by
  have hvw : Viewed (agree s.localRefs s.snap).2 (published s.snap [])
      (agree s.localRefs s.snap).1 := viewed_agree s.localRefs s.snap
  exact judgePushes_kept hkp hvw hnil h.judged

theorem Lands.chained (h : Lands R E s pushes j reports) : Chained s.snap j.accepted := by
  refine h.kept (fun push _ cmd _ accepted eff update altRef created hvw hjd hchn => ?_) .nil
  obtain ⟨hna, -, hex⟩ := judge_exact hvw hjd
  refine .snoc hchn ?_
  rw [← norm_old, hna]
  exact hex.old_eq

/-! ### Batches that git takes -/

/-- The refs of the snapshot and those that the batch asks to move. -/
def Named (S : Refs) (pushes : List PushRequest) (name : Str) : Prop :=
  (S.get? name).isSome ∨ ∃ push ∈ pushes, ∃ cmd ∈ push.commands, cmd.moves = name

/-- Only refs of the snapshot are deleted, and no name is a directory of another. -/
structure Plain (R : Rules) (S : Refs) (pushes : List PushRequest) : Prop where
  deletes : ∀ push ∈ pushes, ∀ cmd ∈ push.commands, isZero cmd.newOid → S.get? cmd.moves ≠ none
  merges : ∀ oid, R.git.Makes oid → isZero oid = false
  names : ∀ p q, Named S pushes p → Named S pushes q → ¬Ancestor p q

/-- Every update is asked for, and a deletion is of a ref of the snapshot. -/
def Asked (S : Refs) (pushes : List PushRequest) (l : List RefUpdate) : Prop :=
  ∀ u ∈ l, Named S pushes u.name ∧ (isZero u.newOid → S.get? u.name ≠ none)

theorem Lands.asked (h : Lands R E s pushes j reports) (hplain : Plain R s.snap pushes) :
    Asked s.snap pushes j.accepted := by
  refine h.kept (fun push hpu cmd hcmd accepted eff update altRef created hvw hjd hasked => ?_)
    nofun
  obtain ⟨hna, hnew, hex⟩ := judge_exact hvw hjd
  rw [hex.moves_eq] at hna
  intro u hu
  rcases mem_append.mp hu with hu | hu
  · exact hasked u hu
  · obtain rfl := mem_singleton.mp hu
    refine ⟨.inr ⟨push, hpu, cmd, hcmd, hna.symm⟩, fun hz => ?_⟩
    rcases hnew with hnew | hmakes
    · rw [hna]
      exact hplain.deletes push hpu cmd hcmd (hnew ▸ hz)
    · exact absurd hz (by rw [hplain.merges _ hmakes]; simp)

theorem Asked.published {S : Refs} {l : List RefUpdate} (h : Asked S pushes l) (name : Str) :
    (((published S l).get? name).isSome → Named S pushes name) ∧
      (S.get? name = none → name ∈ l.map RefUpdate.name → (published S l).get? name ≠ none) := by
  induction l using reverseRecOn with
  | nil => exact ⟨.inl, fun _ hmem => by cases hmem⟩
  | append_singleton l u ih =>
    obtain ⟨hnm, hset⟩ := ih fun v hv => h v (mem_append_left _ hv)
    obtain ⟨hu, hdelete⟩ := h u (by simp)
    rw [get?_published_snoc]
    by_cases heq : name = u.name
    · subst heq
      refine ⟨fun _ => hu, fun hno _ => ?_⟩
      rw [if_pos rfl, RefUpdate.value, if_neg fun hz => hdelete hz hno]
      simp
    · rw [if_neg heq]
      refine ⟨hnm, fun hno hmem => hset hno ?_⟩
      simpa [heq] using hmem

theorem Asked.landable {S : Refs} {l : List RefUpdate} (h : Asked S pushes l)
    (hplain : Plain R S pushes) : Landable S l where
  moved u hu hno := (h.published u.name).2 hno (mem_map_of_mem hu)
  names p q hp hq := hplain.names p q ((h.published p).1 hp) ((h.published q).1 hq)

/-- **A landed batch is acknowledged**, and leaves the local refs as the snapshot has them, exactly
if the write is recognised and git takes the updates, which it does of a plain batch. The snapshot
has moved in either case. -/
theorem landed_batch_acknowledged (R : Rules) (E : Env) (s : Server) (pushes : List PushRequest)
    (j : Judging) (reports : List PushReport) (hsm : s.localRefs = s.snap) (hreal : Real s.snap)
    (hgit : GitTransacts E.transact) (hlan : Lands R E s pushes j reports) :
    (runBatch R E s pushes).1.snap = published s.snap j.accepted ∧
      ((runBatch R E s pushes).2 = .ok reports ∧
          (runBatch R E s pushes).1.localRefs = (runBatch R E s pushes).1.snap ↔
        E.cas.recognised ∧ Landable s.snap j.accepted) ∧
      (Plain R s.snap pushes → Landable s.snap j.accepted) := by
  have hchn := hlan.chained
  have hco := coalesced_of_chained hchn
  have hents : (coalescePerRef j.accepted).isEmpty = false := by
    rw [isEmpty_eq_false_iff]
    intro hnil
    obtain ⟨u, hu⟩ := exists_mem_of_ne_nil _ hlan.accepted
    have hmem := (hco.names u.name).mpr (mem_map_of_mem hu)
    rw [hnil] at hmem
    cases hmem
  have hupdate : updateRefs E s.localRefs (coalescePerRef j.accepted) =
      E.transact s.snap (script (coalescePerRef j.accepted)) := by
    rw [updateRefs, hents, hsm]
    rfl
  rw [← and_assoc, hlan.runBatch_eq, ← transaction_iff hchn hreal]
  refine ⟨?_, fun hplain => (transaction_iff hchn hreal).mpr ((hlan.asked hplain).landable hplain)⟩
  rcases hlan.publish_eq with ⟨hcas, hpublish⟩ | ⟨hcas, hsn, e, he⟩
  · rw [hpublish, land, hupdate]
    by_cases htx : Transaction s.snap (script (coalescePerRef j.accepted))
    · have haft : applyScript s.snap (script (coalescePerRef j.accepted)) =
          published s.snap j.accepted := by rw [applyScript_script, hco.published_eq]
      rw [hgit.ok _ _ htx, haft]
      exact ⟨rfl, fun _ => ⟨hcas, htx⟩, fun _ => ⟨rfl, rfl⟩⟩
    · obtain ⟨e, he⟩ := hgit.refused _ _ htx
      rw [he]
      exact ⟨rfl, fun hok => absurd hok.1 (by simp), fun h => absurd h.2 htx⟩
  · rw [he]
    exact ⟨hsn, fun hok => absurd hok.1 (by simp), fun h => absurd h.1 (by simp [hcas])⟩

end Landing

def gitEnv : Env := { quietEnv with transact }

/-- A branch is moved, and one is created. -/
def moveAndCreate : List PushRequest :=
  [⟨1, absent, [], false, [⟨mainRef, .single '1', .single '2'⟩,
    ⟨headsDir.append (.single 'n'), zeroOid 1, .single '2'⟩], []⟩]

theorem plain_moveAndCreate : Plain linearRules mainAtOne.snap moveAndCreate := by
  have hnm : ∀ name, Named mainAtOne.snap moveAndCreate name →
      name ∈ [mainRef, headsDir.append (.single 'n')] := by
    rintro name (hso | ⟨push, hpu, cmd, hcmd, rfl⟩)
    · have hks : ∀ key ∈ mainAtOne.snap.keys, key ∈ [mainRef, headsDir.append (.single 'n')] := by
        decide
      exact hks name (SortedMap.mem_keys.mpr hso)
    · have hmvs : ∀ push ∈ moveAndCreate, ∀ cmd ∈ push.commands,
          cmd.moves ∈ [mainRef, headsDir.append (.single 'n')] := by decide
      exact hmvs push hpu cmd hcmd
  refine ⟨by decide, ?_, fun p q hp hq => ?_⟩
  · rintro oid ⟨_, _, _, _, hoid⟩
    cases hoid
    rfl
  · have hap : ∀ p ∈ [mainRef, headsDir.append (.single 'n')],
        ∀ q ∈ [mainRef, headsDir.append (.single 'n')], ¬Ancestor p q := by decide
    exact hap p (hnm p hp) q (hnm q hq)

theorem batch_acknowledged :
    let after := runBatch linearRules gitEnv mainAtOne moveAndCreate
    Plain linearRules mainAtOne.snap moveAndCreate ∧ ∃ j reports,
      Lands linearRules gitEnv mainAtOne moveAndCreate j reports ∧ after.2 = .ok reports ∧
        after.1.localRefs = after.1.snap := by
  have hreal : Real mainAtOne.snap := by
    intro name oid hoid
    have hmem := get?_eq_some.mp hoid
    have hall : ∀ r ∈ mainAtOne.snap, norm (some r.2) ≠ absent := by decide
    exact hall _ hmem
  have hlan : ∃ j reports, Lands linearRules gitEnv mainAtOne moveAndCreate j reports :=
    ⟨_, _, rfl, rfl, by decide, rfl, rfl⟩
  obtain ⟨j, reports, hlan⟩ := hlan
  obtain ⟨-, hiff, hln⟩ := landed_batch_acknowledged _ gitEnv mainAtOne moveAndCreate j reports
    rfl hreal gitTransacts_transact hlan
  exact ⟨plain_moveAndCreate, j, reports, hlan, hiff.mpr ⟨rfl, hln plain_moveAndCreate⟩⟩

/-- Four batches that land and are refused: a deletion of a ref that is not there, a creation and a
deletion of a ref by two pushes, a branch that is a directory of another, and a move of a branch
whose answer is lost, with a snapshot that cannot be read again. -/
theorem landed_and_refused :
    let a : Str := headsDir.append (.single 'a')
    let push (id : ℕ) (cmd : RefUpdate) : PushRequest := ⟨id, absent, [], false, [cmd], []⟩
    let empty : Server := ⟨none, .empty, .empty⟩
    let gone := runBatch linearRules gitEnv empty [push 1 ⟨a, zeroOid 1, zeroOid 1⟩]
    let undone := runBatch linearRules gitEnv empty [push 1 ⟨a, zeroOid 1, .single '1'⟩,
      push 2 ⟨a, .single '1', zeroOid 1⟩]
    let nested := runBatch linearRules gitEnv empty [push 1 ⟨a, zeroOid 1, .single '1'⟩,
      push 2 ⟨a.append ['/', 'b'], zeroOid 1, .single '2'⟩]
    let unheard := runBatch linearRules { gitEnv with cas := .unrecognised true (.other "timeout") }
      mainAtOne [push 1 ⟨mainRef, .single '1', .single '2'⟩]
    gone.2.toOption = none ∧ undone.2.toOption = none ∧
      (nested.2.toOption = none ∧ nested.1.snap.get? a = some (.single '1') ∧
        nested.1.localRefs.get? a = none) ∧
      unheard.2.toOption = none ∧ unheard.1.snap.get? mainRef = some (.single '2') := by
  decide

end Flint.Forge
