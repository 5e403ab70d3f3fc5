import Flint.Forge.Packs

/-!
# A published snapshot can be restored

Every object that the refs of the snapshot reach is in a pack that it names, and every pack that it
names is in the bucket with its index (`Repo.Restorable`).

A batch names the packs of the snapshot *less* what is retained, so no pack may be both
(`Inv.unretained`). A batch takes what it names off the list, and so does a restore; a fold does not
(`retained_pack_lost`); `Unretained` excludes this.
-/

namespace Flint.Forge.Packs

open Outcome SortedSet RefUpdate Snapshot SortedMap List

variable {ν : Type} {O : Objects ν}

theorem mem_tipsOf {refs : Refs} {v : Str} : v ∈ tipsOf refs ↔ ∃ k, refs.get? k = some v := by
  constructor
  · intro h
    obtain ⟨r, hr, rfl⟩ := mem_map.mp h
    exact ⟨r.1, get?_eq_some.mpr hr⟩
  · rintro ⟨k, hk⟩
    exact mem_map.mpr ⟨(k, v), get?_eq_some.mp hk, rfl⟩

theorem tipsOf_published {refs : Refs} {accepted : List RefUpdate} {v : Str}
    (h : v ∈ tipsOf (published refs accepted)) :
    v ∈ tipsOf refs ∨ v ∈ accepted.filterMap value := by
  rw [published] at h
  induction accepted generalizing refs with
  | nil => exact .inl h
  | cons u accepted ih =>
    rcases ih h with hold | hnew
    · obtain ⟨k, hk⟩ := mem_tipsOf.mp hold
      rw [get?_patchOne] at hk
      split at hk
      · exact .inr (mem_filterMap.mpr ⟨u, .head _, hk⟩)
      · exact .inl (mem_tipsOf.mpr ⟨k, hk⟩)
    · obtain ⟨u', hu', hv⟩ := mem_filterMap.mp hnew
      exact .inr (mem_filterMap.mpr ⟨u', .tail u hu', hv⟩)

theorem isZero_of_value {u : RefUpdate} {v : Str} (h : u.value = some v) : isZero v = false := by
  rw [value] at h
  split at h
  · cases h
  · next hz => rwa [← Option.some.inj h, ← Bool.not_eq_true]

theorem reachableFrom_or {tips old new : List Str} (h : ∀ t ∈ tips, t ∈ old ∨ t ∈ new)
    {o : Str} (ho : o ∈ O.reachableFrom tips) :
    o ∈ O.reachableFrom old ∨ o ∈ O.reachableFrom new := by
  obtain ⟨t, ht, hrch⟩ := O.mem_reachableFrom.mp ho
  rcases h t ht with hold | hnew
  · exact .inl (O.mem_reachableFrom.mpr ⟨t, hold, hrch⟩)
  · exact .inr (O.mem_reachableFrom.mpr ⟨t, hnew, hrch⟩)

/-! ### The packs a batch names -/

variable {C : Config}

section KeepPoint

variable {s : Repo ν} (snap : Snapshot ν) (accepted : List RefUpdate) (point : Bool)

theorem keepPoint_files : (keepPoint O C s snap accepted point).files = s.files := by
  rw [keepPoint]
  split <;> rfl

theorem keepPoint_disk : (keepPoint O C s snap accepted point).disk = s.disk := by
  rw [keepPoint]
  split <;> rfl

theorem keepPoint_retained : (keepPoint O C s snap accepted point).retained = s.retained := by
  rw [keepPoint]
  split <;> rfl

end KeepPoint

variable [LinearOrder ν]

structure Searched (O : Objects ν) (n₀ : Needed ν) (allowed : ν → Prop) (n : Needed ν) : Prop where
  named : ∀ p ∈ n₀.named, p ∈ n.named
  want : ∀ o ∈ n₀.want, o ∈ n.want ∨ ∃ p ∈ n.named, o ∈ O.contents p
  source : ∀ p ∈ n.named, p ∈ n₀.named ∨ allowed p

section Search

variable {n₀ n n' : Needed ν} {allowed : ν → Prop} {readable : ν → Bool} {skips : Bool}

theorem Searched.refl (n₀ : Needed ν) (allowed : ν → Prop) : Searched O n₀ allowed n₀ :=
  ⟨fun _ hp => hp, fun _ ho => .inl ho, fun _ hp => .inl hp⟩

theorem Searched.take (h : Searched O n₀ allowed n) {p : ν} (hp : allowed p) :
    let want := n.want.filter (· ∉ O.contents p)
    Searched O n₀ allowed ⟨want, if want.length < n.want.length then n.named.put p
      else n.named⟩ := by
  intro want
  have hkp : ∀ q ∈ n.named, q ∈ if want.length < n.want.length then n.named.put p else n.named := by
    intro q hq
    split
    · exact mem_put.mpr (.inr hq)
    · exact hq
  refine ⟨fun q hq => hkp q (h.named q hq), fun o ho => ?_, fun q hq => ?_⟩
  · rcases h.want o ho with hwant | ⟨q, hq, hcont⟩
    · by_cases hcont : o ∈ O.contents p
      · -- `o` is no longer wanted, so the pack is named
        have hlt : want.length < n.want.length :=
          length_filter_lt_length_iff_exists.mpr ⟨o, hwant, by simpa using hcont⟩
        refine .inr ⟨p, ?_, hcont⟩
        rw [if_pos hlt]
        exact mem_put.mpr (.inl rfl)
      · exact .inl (mem_filter.mpr ⟨hwant, by simpa using hcont⟩)
    · exact .inr ⟨q, hkp q hq, hcont⟩
  · dsimp only at hq
    split at hq
    · rcases mem_put.mp hq with rfl | hq
      · exact .inr hp
      · exact h.source q hq
    · exact h.source q hq

theorem Searched.takeFrom (h : Searched O n₀ allowed n) {p : ν} (hp : allowed p)
    (htk : takeFrom O readable skips n p = .ok n') : Searched O n₀ allowed n' := by
  rw [Packs.takeFrom] at htk
  split at htk
  · cases htk
    exact h
  · split at htk
    · cases htk
      exact h.take hp
    · split at htk
      · cases htk
        exact h
      · cases htk

theorem Searched.pass (h : Searched O n₀ allowed n) {packs : List ν} (hpks : ∀ p ∈ packs, allowed p)
    (hfo : packs.foldlM (Packs.takeFrom O readable skips) n = .ok n') :
    Searched O n₀ allowed n' := by
  let P : List ν → Needed ν → Prop := fun l n => Searched O n₀ allowed n ∧ ∀ p ∈ l, allowed p
  have hs : ∀ p l n n', P (p :: l) n → Packs.takeFrom O readable skips n p = .ok n' → P l n' :=
    fun p l n n' hP htk => ⟨hP.1.takeFrom (hP.2 p (.head _)) htk,
      fun q hq => hP.2 q (.tail p hq)⟩
  exact (foldlM_ok hs ⟨h, hpks⟩ hfo).1

end Search

namespace Repo

variable {s : Repo ν} {p : ν}

def OnDisk (s : Repo ν) (p : ν) : Prop := ⟨p, .pack⟩ ∈ s.disk ∧ ⟨p, .idx⟩ ∈ s.disk

def Uploaded (s : Repo ν) (p : ν) : Prop := (s.files ⟨p, .pack⟩).isSome ∧ (s.files ⟨p, .idx⟩).isSome

theorem mem_localPacks : p ∈ s.localPacks ↔ s.OnDisk p := by
  rw [localPacks, KeyedTable.mem_rows, mem_ofList, mem_map, OnDisk]
  constructor
  · rintro ⟨⟨q, e⟩, hf, rfl⟩
    obtain ⟨hdisk, hcd⟩ := mem_filter.mp hf
    obtain ⟨rfl, hidx⟩ := of_decide_eq_true hcd
    exact ⟨hdisk, hidx⟩
  · rintro ⟨hpack, hidx⟩
    exact ⟨⟨p, .pack⟩, mem_filter.mpr ⟨hpack, decide_eq_true ⟨rfl, hidx⟩⟩, rfl⟩

theorem mem_siblings (h : s.OnDisk p) : ⟨p, .pack⟩ ∈ s.siblings p ∧ ⟨p, .idx⟩ ∈ s.siblings p := by
  refine ⟨.head _, .tail _ (mem_map.mpr ⟨.idx, ?_, rfl⟩)⟩
  exact mem_filter.mpr ⟨by simp, decide_eq_true h.2⟩

theorem isSome_upload {files : List (File ν)} {f : File ν} :
    ((s.upload files).files f).isSome ↔ f ∈ files ∨ (s.files f).isSome := by
  rw [upload]
  dsimp only
  split
  · next hf => simp [hf]
  · next hf => simp [hf]

theorem Uploaded.upload (h : s.Uploaded p) (files : List (File ν)) : (s.upload files).Uploaded p :=
  ⟨isSome_upload.mpr (.inr h.1), isSome_upload.mpr (.inr h.2)⟩

theorem uploaded_pending {snap : Snapshot ν} {named : List ν} (hp : p ∈ named)
    (hdisk : p ∉ snap.packs → s.OnDisk p) (hkn : p ∈ snap.packs → s.Uploaded p) :
    (s.upload (pendingFiles s snap named)).Uploaded p := by
  by_cases hsn : p ∈ snap.packs
  · exact (hkn hsn).upload _
  · have hmem : ∀ f ∈ s.siblings p, f ∈ pendingFiles s snap named := fun f hf =>
      mem_flatMap.mpr ⟨p, mem_filter.mpr ⟨hp, decide_eq_true hsn⟩, hf⟩
    have hsiblings := mem_siblings (hdisk hsn)
    exact ⟨isSome_upload.mpr (.inl (hmem _ hsiblings.1)),
      isSome_upload.mpr (.inl (hmem _ hsiblings.2))⟩

end Repo

theorem neededPacks_spec {s : Repo ν} {snap : Snapshot ν} {accepted : List RefUpdate}
    {server : Option ν} {unreadable named : List ν}
    (h : neededPacks O s snap accepted server unreadable = .ok named) :
    (∀ p ∈ snap.packs, s.isRetained p = false → p ∈ named) ∧
    (∀ o ∈ O.objectsSince (accepted.filterMap value)
        ((tipsOf snap.refs).filter fun o => !isZero o), ∃ p ∈ named, o ∈ O.contents p) ∧
    ∀ p ∈ named, p ∈ snap.packs ∨ p ∈ server ∨ s.OnDisk p := by
  rw [neededPacks] at h
  obtain ⟨n₁, h₁, h⟩ := bind_ok.mp h
  obtain ⟨n₂, h₂, h⟩ := bind_ok.mp h
  obtain ⟨n₃, h₃, h⟩ := bind_ok.mp h
  -- what the passes may name
  let allowed : ν → Prop := fun p => p ∈ snap.packs ∨ p ∈ server ∨ s.OnDisk p
  have hlocal : ∀ {q : ν → Bool} {p : ν}, p ∈ (s.localPacks.filter q) → allowed p :=
    fun hp => .inr (.inr (Repo.mem_localPacks.mp (mem_filter.mp hp).1))
  have hsea := Searched.pass (.refl _ allowed) (fun p hp => by
    rcases mem_append.mp hp with hp | hp
    · exact .inr (.inl (Option.mem_toList.mp hp))
    · exact hlocal (mem_filter.mp hp).1) h₁
  have hsea := hsea.pass (fun p hp => .inl (mem_filter.mp hp).1) h₂
  have hsea := hsea.pass (fun p hp => hlocal (mem_filter.mp hp).1) h₃
  split at h
  · next hwant =>
    cases h
    refine ⟨fun p hp hretd => ?_, fun o ho => ?_, fun p hp => ?_⟩
    · refine hsea.named p (mem_ofList.mpr (mem_append.mpr (.inl ?_)))
      exact mem_filter.mpr ⟨hp, by simp [hretd]⟩
    · rcases hsea.want o ho with hstill | hfnd
      · rw [hwant] at hstill
        cases hstill
      · exact hfnd
    · rcases hsea.source p hp with hnm | hallowed
      · rcases mem_append.mp (mem_ofList.mp hnm) with hp | hp
        · exact .inl (mem_filter.mp hp).1
        · exact .inr (.inl (Option.mem_toList.mp hp))
      · exact hallowed
  · cases h

theorem onDisk_of_needed {s : Repo ν} {snap : Snapshot ν} {accepted : List RefUpdate}
    {server : Option ν} {unreadable named : List ν}
    (h : neededPacks O (landServerPack s server) snap accepted server unreadable = .ok named)
    {p : ν}
    (hp : p ∈ named) : p ∈ snap.packs ∨ (landServerPack s server).OnDisk p := by
  rcases (neededPacks_spec h).2.2 p hp with hsn | hserver | hlocal
  · exact .inl hsn
  · have hmem : ∀ e ∈ [Ext.pack, .idx], (⟨p, e⟩ : File ν) ∈ (landServerPack s server).disk := by
      intro e he
      refine mem_append.mpr (.inl (mem_flatMap.mpr ⟨p, Option.mem_toList.mpr hserver, ?_⟩))
      simpa using he
    exact .inr ⟨hmem .pack (by simp), hmem .idx (by simp)⟩
  · exact .inr hlocal

/-! ### The invariant -/

def Snapshot.Covered (O : Objects ν) (snap : Snapshot ν) : Prop :=
  ∀ o ∈ O.reachableFrom (tipsOf snap.refs), ∃ p ∈ snap.packs, o ∈ O.contents p

structure Inv (O : Objects ν) (s : Repo ν) : Prop where
  /-- A repository nobody has published has no packs. -/
  fresh : s.snap.seq = 0 → s.snap.packs = []
  covered : s.snap.Covered O
  nonzero : ∀ v ∈ tipsOf s.snap.refs, isZero v = false
  uploaded : ∀ p ∈ s.snap.packs, s.Uploaded p
  built : ∀ fold ∈ s.fold, ∀ b ∈ fold.built, s.Uploaded b.1
  cell : ∀ c ∈ s.cell, c = s.snap
  onDisk : s.cell.isSome → ∀ p ∈ s.snap.packs, s.OnDisk p
  unretained : s.cell.isSome → ∀ p ∈ s.snap.packs, s.isRetained p = false

namespace Inv

variable {s : Repo ν}

theorem start : Inv O (Repo.start : Repo ν) where
  fresh _ := rfl
  covered o ho := by
    obtain ⟨t, ht, -⟩ := O.mem_reachableFrom.mp ho
    cases ht
  nonzero := nofun
  uploaded := nofun
  built := nofun
  cell := nofun
  onDisk := nofun
  unretained := nofun

variable (h : Inv O s)

include h

theorem ended : Inv O s.ended :=
  { h with built := nofun, cell := nofun, onDisk := nofun, unretained := nofun }

theorem land (files : List (File ν)) : Inv O { s with disk := files ++ s.disk } :=
  { h with onDisk := fun hce p hp =>
      (h.onDisk hce p hp).imp (mem_append_right files) (mem_append_right files) }

theorem upload (files : List (File ν)) : Inv O (s.upload files) :=
  { h with
    uploaded := fun p hp => (h.uploaded p hp).upload files
    built := fun fold hfo b hb => (h.built fold hfo b hb).upload files }

theorem unlink (packs : List ν) (hpks : ∀ p ∈ packs, p ∉ s.snap.packs) :
    Inv O (s.unlink packs) := by
  refine { h with onDisk := fun hce p hp => ?_ }
  have hkp : p ∉ packs := fun hmem => hpks p hmem hp
  exact ⟨mem_filter.mpr ⟨(h.onDisk hce p hp).1, decide_eq_true hkp⟩,
    mem_filter.mpr ⟨(h.onDisk hce p hp).2, decide_eq_true hkp⟩⟩

theorem setRetained {retained : List (Retained ν)}
    (hretd : s.cell.isSome → ∀ p ∈ s.snap.packs, ∀ r ∈ retained, r.name ≠ p)
    (ledger : List (LedgerEntry ν)) : Inv O { s with retained, ledger } := by
  refine { h with unretained := fun hce p hp => any_eq_false.mpr fun r hr => ?_ }
  simpa using hretd hce p hp r hr

theorem retain (stays : Retained ν → Bool) :
    Inv O { s with retained := s.retained.filter stays } := by
  refine h.setRetained (fun hce p hp r hr => ?_) s.ledger
  have hno := any_eq_false.mp (h.unretained hce p hp) r (mem_filter.mp hr).1
  simpa using hno

theorem setFold {fold : Option (Fold ν)}
    (hblt : ∀ f ∈ fold, ∀ b ∈ f.built, s.Uploaded b.1) : Inv O { s with fold } :=
  { h with built := hblt }

omit h in
structure Publishable (O : Objects ν) (s : Repo ν) (next : Snapshot ν) : Prop where
  published : next.seq ≠ 0
  covered : next.Covered O
  nonzero : ∀ v ∈ tipsOf next.refs, isZero v = false
  uploaded : ∀ p ∈ next.packs, s.Uploaded p
  onDisk : ∀ p ∈ next.packs, s.OnDisk p
  unretained : ∀ p ∈ next.packs, s.isRetained p = false

theorem cas {next : Snapshot ν} (hnx : Publishable O s next) (c : CasEnd) :
    Inv O (s.cas next c) := by
  have hlan : Inv O { s with snap := next, cell := some next } :=
    ⟨fun hz => absurd hz hnx.published, hnx.covered, hnx.nonzero, hnx.uploaded, h.built,
      fun c hc => (Option.mem_some_iff.mp hc).symm, fun _ => hnx.onDisk, fun _ => hnx.unretained⟩
  cases c with
  | landed => exact hlan
  | lost => exact hlan.ended
  | failed => exact h.ended

/-! ### One step -/

theorem covered_of_named {accepted : List RefUpdate} {named : List ν}
    (hold : ∀ p ∈ s.snap.packs, p ∈ named)
    (hnew : ∀ o ∈ O.objectsSince (accepted.filterMap value)
      ((tipsOf s.snap.refs).filter fun o => !isZero o), ∃ p ∈ named, o ∈ O.contents p) (seq : ℕ) :
    Covered O ⟨seq, published s.snap.refs accepted, named⟩ := by
  intro o ho
  have hbs : ((tipsOf s.snap.refs).filter fun o => !isZero o) = tipsOf s.snap.refs :=
    filter_eq_self.mpr fun v hv => by rw [h.nonzero v hv]; rfl
  rw [hbs] at hnew
  have hcvr : o ∈ O.reachableFrom (tipsOf s.snap.refs) → ∃ p ∈ named, o ∈ O.contents p := by
    intro hrch
    obtain ⟨p, hp, hcont⟩ := h.covered o hrch
    exact ⟨p, hold p hp, hcont⟩
  by_cases hrch : o ∈ O.reachableFrom (tipsOf s.snap.refs)
  · exact hcvr hrch
  · rcases reachableFrom_or (fun t ht => tipsOf_published ht) ho with hrch' | hpushed
    · exact hcvr hrch'
    · exact hnew o (O.mem_objectsSince hpushed hrch)

theorem keepPoint (snap : Snapshot ν) (accepted : List RefUpdate) (point : Bool) :
    Inv O (Packs.keepPoint O C s snap accepted point) := by
  rw [Packs.keepPoint]
  split
  · exact { h with }
  · exact h

theorem publish {accepted : List RefUpdate} {named : List ν}
    (hcov : Covered O ⟨s.snap.seq + 1, published s.snap.refs accepted, named⟩)
    (hdisk : ∀ p ∈ named, s.OnDisk p) (how : BatchEnd ν) :
    Inv O (Packs.publish O C (unretain s named) s.snap accepted named how) := by
  have hrtn : Inv O (unretain s named) := h.retain fun r => decide (r.name ∉ named)
  cases how with
  | upload landed => exact (hrtn.upload _).ended
  | cas point c =>
    have hupload := hrtn.upload (pendingFiles (unretain s named) s.snap named)
    refine Inv.cas (hupload.keepPoint s.snap accepted point)
      ⟨Nat.succ_ne_zero _, hcov, fun v hv => ?_, fun p hp => ?_, fun p hp => ?_, fun p hp => ?_⟩ c
    · rcases tipsOf_published hv with hold | hnew
      · exact h.nonzero v hold
      · obtain ⟨u, -, hu⟩ := mem_filterMap.mp hnew
        exact isZero_of_value hu
    · rw [Repo.Uploaded, keepPoint_files]
      exact Repo.uploaded_pending hp (fun _ => hdisk p hp) (h.uploaded p)
    · rw [Repo.OnDisk, keepPoint_disk]
      exact hdisk p hp
    · rw [Repo.isRetained, keepPoint_retained]
      refine any_eq_false.mpr fun r hr => ?_
      have hna : r.name ∉ named := of_decide_eq_true (mem_filter.mp hr).2
      have hne : r.name ≠ p := fun heq => hna (heq ▸ hp)
      simpa using hne

theorem batch (accepted : List RefUpdate) (server : Option ν) (unreadable : List ν)
    (how : BatchEnd ν) : Inv O (Packs.batch O C s accepted server unreadable how) := by
  rw [Packs.batch]
  split
  · exact h
  · next cell hce =>
    obtain rfl := h.cell cell hce
    have hln : Inv O (landServerPack s server) := h.land _
    have hso : s.cell.isSome := by rw [hce]; rfl
    split
    · exact hln.ended
    · next named hneeded =>
      obtain ⟨hold, hnew, -⟩ := neededPacks_spec hneeded
      -- no pack of the snapshot is retained, so all of them are named again
      have hold : ∀ p ∈ s.snap.packs, p ∈ named := fun p hp => hold p hp (h.unretained hso p hp)
      refine hln.publish (h.covered_of_named hold hnew _) (fun p hp => ?_) how
      exact (onDisk_of_needed hneeded hp).elim (hln.onDisk hso p) id

theorem landFold (f : ν) (beside : List Ext) : Inv O (Packs.landFold s s.snap f beside) := by
  rw [Packs.landFold]
  split
  · exact h
  · exact h.land _

theorem onDisk_landFold (hce : s.cell.isSome) (f : ν) (beside : List Ext) :
    (Packs.landFold s s.snap f beside).OnDisk f := by
  rw [Packs.landFold]
  split
  · next hf => exact h.onDisk hce f hf
  · exact ⟨mem_append.mpr (.inl (.head _)), mem_append.mpr (.inl (.tail _ (.head _)))⟩

theorem covers_of_superseded (hce : s.cell.isSome) {inputs : List ν} {f p : ν}
    (hf : s.OnDisk f) (hp : p ∈ superseded O s inputs f) (hsn : p ∈ s.snap.packs) :
    ∀ o ∈ O.contents p, o ∈ O.contents f := by
  rw [superseded] at hp
  split at hp
  · exact of_decide_eq_true (mem_filter.mp hp).2 (h.onDisk hce p hsn).2
  · next hnot =>
    have hne : inputs.filter (· ≠ f) ≠ [] := ne_nil_of_mem hp
    exact absurd ⟨hne, hf.2⟩ hnot

theorem publishFold {f : ν} {drop : List ν} (hdisk : s.OnDisk f) (hup : s.Uploaded f)
    (hretd : s.isRetained f = false) (hce : s.cell.isSome)
    (hdr : ∀ p ∈ drop, p ∈ s.snap.packs → ∀ o ∈ O.contents p, o ∈ O.contents f) (hf : f ∉ drop)
    (now : ℕ) (c : CasEnd) : Inv O (Packs.publishFold C s s.snap f drop now c) := by
  have hmem : ∀ p, p ∈ (ofList (s.snap.packs.filter (· ∉ drop) ++ [f])).rows →
      p ∈ s.snap.packs ∧ p ∉ drop ∨ p = f := by
    intro p hp
    rcases mem_append.mp (mem_ofList.mp hp) with hp | hp
    · exact .inl ⟨(mem_filter.mp hp).1, of_decide_eq_true (mem_filter.mp hp).2⟩
    · exact .inr (mem_singleton.mp hp)
  have hnm : f ∈ (ofList (s.snap.packs.filter (· ∉ drop) ++ [f])).rows :=
    mem_ofList.mpr (mem_append.mpr (.inr (mem_singleton_self f)))
  have hnx : Publishable O s { s.snap with
      seq := s.snap.seq + 1
      packs := (ofList (s.snap.packs.filter (· ∉ drop) ++ [f])).rows } := by
    refine ⟨Nat.succ_ne_zero _, fun o ho => ?_, h.nonzero, fun p hp => ?_, fun p hp => ?_,
      fun p hp => ?_⟩
    · obtain ⟨p, hp, hcont⟩ := h.covered o ho
      by_cases hpdrop : p ∈ drop
      · exact ⟨f, hnm, hdr p hpdrop hp o hcont⟩
      · refine ⟨p, mem_ofList.mpr (mem_append.mpr (.inl ?_)), hcont⟩
        exact mem_filter.mpr ⟨hp, decide_eq_true hpdrop⟩
    · rcases hmem p hp with ⟨hsn, -⟩ | rfl
      · exact h.uploaded p hsn
      · exact hup
    · rcases hmem p hp with ⟨hsn, -⟩ | rfl
      · exact h.onDisk hce p hsn
      · exact hdisk
    · rcases hmem p hp with ⟨hsn, -⟩ | rfl
      · exact h.unretained hce p hsn
      · exact hretd
  cases c with
  | landed =>
    refine (h.cas hnx .landed).setRetained (fun _ p hp r hr => ?_) _
    rcases mem_append.mp hr with hold | hnew
    · have hno := any_eq_false.mp (hnx.unretained p hp) r hold
      simpa using hno
    · -- what is dropped is not named
      obtain ⟨q, hq, rfl⟩ := mem_map.mp hnew
      rintro rfl
      rcases hmem q hp with ⟨-, hnot⟩ | rfl
      · exact hnot hq
      · exact hf hq
  | lost => exact h.cas hnx .lost
  | failed => exact h.cas hnx .failed

theorem foldCommit
    (hretd : ∀ fold ∈ s.fold, ∀ b ∈ fold.built, s.isRetained b.1 = false) (now : ℕ) (c : CasEnd) :
    Inv O (Packs.foldCommit O C s now c) := by
  rw [Packs.foldCommit]
  split
  · next cell inputs isBase f beside hce hfo =>
    obtain rfl := h.cell cell hce
    have hso : s.cell.isSome := by rw [hce]; rfl
    have hup : s.Uploaded f := h.built _ hfo _ rfl
    have hunretained : s.isRetained f = false := hretd _ hfo _ rfl
    have hno : Inv O { s with fold := none } :=
      h.setFold nofun
    dsimp only
    split
    · exact hno
    · have hln : Inv O (Packs.landFold { s with fold := none } s.snap f beside) :=
        hno.landFold f beside
      have hdisk := hno.onDisk_landFold hso f beside
      obtain ⟨disk, heq⟩ : ∃ disk, Packs.landFold { s with fold := none } s.snap f beside =
          { s with fold := none, disk } := by
        rw [Packs.landFold]
        split
        · exact ⟨s.disk, rfl⟩
        · exact ⟨_, rfl⟩
      rw [heq] at hln hdisk ⊢
      refine hln.publishFold hdisk hup hunretained hso
        (fun p hp hsn => hln.covers_of_superseded hso hdisk hp hsn) (fun hf => ?_) now c
      -- the pack that was built is not among those that it supersedes
      rw [superseded] at hf
      have hfil : f ∈ inputs.filter (· ≠ f) := by
        split at hf
        · exact (mem_filter.mp hf).1
        · exact hf
      exact absurd rfl (of_decide_eq_true (mem_filter.mp hfil).2)
  · exact h

theorem spawn (plan : Plan ν) : Inv O (Packs.spawn s plan) := by
  rw [Packs.spawn]
  split
  · exact h
  · split
    · refine h.setFold fun fold hfo b hb => ?_
      cases hfo
      cases hb
    · exact h

theorem build (f : ν) (beside : List Ext) : Inv O (Packs.build O s f beside) := by
  rw [Packs.build]
  split
  · split
    · refine (h.upload _).setFold fun fold hfo b hb => ?_
      cases hfo
      cases hb
      exact ⟨Repo.isSome_upload.mpr (.inl (.head _)),
        Repo.isSome_upload.mpr (.inl (.tail _ (.head _)))⟩
    · exact h.setFold nofun
  · exact h

theorem unlinkRetained (now : ℕ) (keeps : List ν) : Inv O (Packs.unlinkRetained s now keeps) := by
  cases hce : s.cell with
  | none =>
    -- nothing is claimed of the disk of a process that has not restored
    have hno : (Packs.unlinkRetained s now keeps).cell.isSome = false := by
      rw [Packs.unlinkRetained, Repo.unlink, hce]
      rfl
    exact { h with onDisk := by rw [hno]; nofun, unretained := by rw [hno]; nofun }
  | some cell =>
    have hnm : s.cell.elim [] packs = s.snap.packs := by
      rw [hce, h.cell cell hce]
      rfl
    rw [Packs.unlinkRetained, hnm]
    refine (h.unlink _ fun p hp => ?_).retain _
    obtain ⟨r, hr, rfl⟩ := mem_map.mp hp
    have hoe := (mem_filter.mp hr).2
    simp only [Bool.not_eq_true', Bool.or_eq_false_iff, decide_eq_false_iff_not] at hoe
    exact hoe.1.2

omit h in
theorem reclaimLoop_kept {reach : List Str} {order named : List ν} {n : ℕ} {kept drop : List ν}
    (h : ∀ q ∈ kept, q ∈ named ∧ q ∉ drop) :
    ∀ q ∈ (reclaimLoop O reach order n kept drop).1,
      q ∈ named ∧ q ∉ (reclaimLoop O reach order n kept drop).2 := by
  induction n generalizing kept drop with
  | zero => exact h
  | succ n ih =>
    rw [reclaimLoop]
    split
    · exact h
    · next v _ =>
      refine ih fun q hq => ?_
      obtain ⟨hkp, hne⟩ := mem_filter.mp hq
      refine ⟨(h q hkp).1, fun hmem => ?_⟩
      rcases mem_append.mp hmem with hdr | hv
      · exact (h q hkp).2 hdr
      · exact of_decide_eq_true hne (mem_singleton.mp hv)

theorem covered_of_reclaimDrops {drop : List ν}
    (hdr : reclaimDrops O s s.snap = some drop) (seq : ℕ) :
    Covered O ⟨seq, s.snap.refs, s.snap.packs.filter (· ∉ drop)⟩ := by
  rw [reclaimDrops] at hdr
  split at hdr
  · cases hdr
  · split at hdr
    · dsimp only at hdr
      split at hdr
      · next hcheck =>
        cases hdr
        intro o ho
        obtain ⟨p, hp, hcont⟩ := h.covered o ho
        have hlv : ∀ {q : ν}, o ∈ O.contents q →
            o ∈ live O (O.reachableFrom (tipsOf s.snap.refs)) q := fun hq =>
          mem_dedup.mpr (mem_filter.mpr ⟨hq, decide_eq_true ho⟩)
        by_cases hpdrop : p ∈ (reclaimLoop O (O.reachableFrom (tipsOf s.snap.refs))
            (scanOrder O (O.reachableFrom (tipsOf s.snap.refs)) s.snap.packs)
            (s.snap.packs.length + 1) s.snap.packs []).2
        · -- the final check names a pack that is kept
          have hso := all_eq_true.mp (all_eq_true.mp hcheck p hpdrop) o (hlv hcont)
          obtain ⟨q, hq, hqlive⟩ := any_eq_true.mp hso
          have hkp := reclaimLoop_kept (fun q hq => ⟨hq, not_mem_nil⟩) q hq
          refine ⟨q, mem_filter.mpr ⟨hkp.1, decide_eq_true hkp.2⟩, ?_⟩
          exact (mem_filter.mp (mem_dedup.mp (of_decide_eq_true hqlive))).1
        · exact ⟨p, mem_filter.mpr ⟨hp, decide_eq_true hpdrop⟩, hcont⟩
      · cases hdr
    · cases hdr

theorem reclaim (c : CasEnd) : Inv O (Packs.reclaim O s c) := by
  rw [Packs.reclaim]
  split
  · exact h
  · next cell hce =>
    obtain rfl := h.cell cell hce
    have hso : s.cell.isSome := by rw [hce]; rfl
    split
    · exact h
    · exact h
    · next v drop hdr =>
      have hnx : Publishable O s { s.snap with
          seq := s.snap.seq + 1
          packs := s.snap.packs.filter (· ∉ v :: drop) } :=
        ⟨Nat.succ_ne_zero _, h.covered_of_reclaimDrops hdr _, h.nonzero,
          fun p hp => h.uploaded p (mem_filter.mp hp).1,
          fun p hp => h.onDisk hso p (mem_filter.mp hp).1,
          fun p hp => h.unretained hso p (mem_filter.mp hp).1⟩
      cases c with
      | landed =>
        refine (h.cas hnx .landed).unlink _ fun p hp hnm => ?_
        exact absurd hp (of_decide_eq_true (mem_filter.mp hnm).2)
      | lost => exact h.cas hnx .lost
      | failed => exact h.cas hnx .failed

theorem onDisk_reconcile {p : ν} (hp : p ∈ s.snap.packs) : (reconcile (fetch s)).OnDisk p := by
  have hfetch : ∀ e ∈ allExts, (s.files ⟨p, e⟩).isSome → (⟨p, e⟩ : File ν) ∈ (fetch s).disk := by
    intro e he hfi
    refine mem_append.mpr (.inl (mem_flatMap.mpr ⟨p, hp, ?_⟩))
    exact mem_filter.mpr ⟨mem_map.mpr ⟨e, he, rfl⟩, hfi⟩
  have hstays : ∀ e, (⟨p, e⟩ : File ν) ∈ (fetch s).disk → ⟨p, e⟩ ∈ (reconcile (fetch s)).disk := by
    intro e he
    refine mem_filter.mpr ⟨he, decide_eq_true fun hunlinked => ?_⟩
    exact (of_decide_eq_true (mem_filter.mp hunlinked).2).1 hp
  exact ⟨hstays _ (hfetch .pack (by simp [allExts]) (h.uploaded p hp).1),
    hstays _ (hfetch .idx (by simp [allExts]) (h.uploaded p hp).2)⟩

theorem restore : Inv O (Packs.restore s) := by
  rw [Packs.restore]
  split
  · exact h
  · split
    · next hz =>
      have hpks : ∀ p, p ∉ s.snap.packs := fun p hp => by
        rw [h.fresh hz] at hp
        cases hp
      exact { h with
        cell := by simp
        onDisk := fun _ p hp => absurd hp (hpks p)
        unretained := fun _ p hp => absurd hp (hpks p) }
    · split
      · refine { h with
          cell := fun c hc => (Option.mem_some_iff.mp hc).symm
          onDisk := fun _ p hp => h.onDisk_reconcile hp
          unretained := fun _ p hp => any_eq_false.mpr fun r hr => ?_ }
        have hna : r.name ∉ s.snap.packs := of_decide_eq_true (mem_filter.mp hr).2
        have hne : r.name ≠ p := fun heq => hna (heq ▸ hp)
        simpa using hne
      · exact h

theorem delete (hfo : s.fold = none) {files : File ν → Option ℕ}
    (hfiles : ∀ f, f.name ∈ s.snap.packs → files f = s.files f) (points : List (UndoPoint ν))
    (ledger : List (LedgerEntry ν)) :
    Inv O { s with files, points, ledger } := by
  refine { h with uploaded := fun p hp => ?_, built := by rw [hfo]; nofun }
  show (files ⟨p, .pack⟩).isSome ∧ (files ⟨p, .idx⟩).isSome
  rw [hfiles _ hp, hfiles _ hp]
  exact h.uploaded p hp

theorem sweep (now : ℕ) (reached : File ν → Bool) (finishes : Bool) :
    Inv O (Packs.sweep C s now reached finishes) := by
  rw [Packs.sweep]
  split
  · next hpass =>
    refine h.delete hpass.2.1 (fun f hf => if_neg fun hgo => ?_) _ _
    exact hgo.1 (mem_append.mpr (.inl hf))
  · exact h

theorem sweepLedger (now : ℕ) (reached : File ν → Bool) :
    Inv O (Packs.sweepLedger C s now reached) := by
  rw [Packs.sweepLedger]
  split
  · next hpass =>
    refine h.delete hpass.2.1 (fun f hf => if_neg fun hgo => ?_) _ _
    exact hgo.2.1 (mem_append.mpr (.inl hf))
  · exact h

end Inv

def Unretained (s : Repo ν) : Action ν → Prop
  | .foldCommit _ _ => ∀ fold ∈ s.fold, ∀ b ∈ fold.built, s.isRetained b.1 = false
  | _ => True

theorem Inv.step {s : Repo ν} (h : Inv O s) {a : Action ν} (ha : Unretained s a) :
    Inv O (Packs.step O C s a) := by
  have hgd : ∀ {b : Bool} {t : Repo ν}, Inv O t → Inv O (if b then t else s) :=
    fun ht => iteInduction (fun _ => ht) fun _ => h
  cases a with
  | tick => exact { h with }
  | arrive => exact h.land _
  | batch => exact hgd (h.batch _ _ _ _)
  | spawn => exact hgd (h.spawn _)
  | build => exact h.build _ _
  | foldCommit => exact hgd (h.foldCommit ha _ _)
  | abortFold => exact h.setFold nofun
  | unlinkRetained => exact hgd (h.unlinkRetained _ _)
  | reclaim => exact iteInduction (fun _ => h) fun _ => h.reclaim _
  | serve => exact hgd { h with }
  | restart => exact { h.ended with onDisk := nofun, unretained := nofun }
  | restore => exact h.restore
  | sweep => exact hgd (h.sweep _ _ _)
  | sweepLedger => exact hgd (h.sweepLedger _ _)

theorem inv_run {l : List (Action ν)} (h : Steps (step O C) Unretained .start l) :
    Inv O (run (step O C) .start l) :=
  run_invariant_of_steps (P := Inv O) (fun _ _ h ha => h.step ha) .start h

/-- When no fold commits a pack that is retained, every object that the refs of the snapshot reach
is in a pack it names, which is in the bucket with its index. -/
theorem published_snapshot_restorable (O : Objects ν) (C : Config) (l : List (Action ν))
    (h : Steps (step O C) Unretained .start l) :
    let s := run (step O C) .start l
    (∀ o ∈ O.reachableFrom (tipsOf s.snap.refs), ∃ p ∈ s.snap.packs, o ∈ O.contents p) ∧
      ∀ p ∈ s.snap.packs, (s.files ⟨p, .pack⟩).isSome ∧ (s.files ⟨p, .idx⟩).isSome :=
  ⟨(inv_run h).covered, (inv_run h).uploaded⟩

/-! ### A fold into a retained pack -/

/-- An object that is a word points to the word without its first letter. -/
def behind : Str → List Str
  | [] => []
  | _ :: o => [o]

def ends : Str → List Str
  | [] => [absent]
  | c :: o => Str.append (.single c) o :: ends o

theorem mem_ends {o t : Str} : o ∈ ends t ↔
    Relation.ReflTransGen (fun a b => b ∈ behind a) t o := by
  constructor
  · intro h
    induction t with
    | nil =>
      obtain rfl := mem_singleton.mp h
      exact .refl
    | cons c t ih =>
      rcases mem_cons.mp h with rfl | h
      · exact .refl
      · exact .head (mem_singleton_self t) (ih h)
  · intro h
    induction h using Relation.ReflTransGen.head_induction_on with
    | refl =>
      cases o with
      | nil | cons c o => exact .head _
    | @head t t' hchild _ ih =>
      cases t with
      | nil => cases hchild
      | cons c t =>
        obtain rfl := mem_singleton.mp hchild
        exact .tail _ ih

def words (contents : ℕ → List Str) : Objects ℕ where
  children := behind
  reachableFrom tips := tips.flatMap ends
  mem_reachableFrom := by
    intro tips o
    rw [mem_flatMap]
    exact exists_congr fun t => and_congr_right fun _ => mem_ends
  objectsSince now before := (now.flatMap ends).filter fun o => decide (o ∉ before.flatMap ends)
  mem_objectsSince hnow hbef := mem_filter.mpr ⟨hnow, decide_eq_true hbef⟩
  objectsSince_subset h := (mem_filter.mp h).1
  isAncestor old new := decide (old ∈ ends new)
  contents := contents

/-! The commits of the run: the third and the fourth are two children of the second. -/

def first : Str := ['a']

def second : Str := ['b', 'a']

def third : Str := ['c', 'b', 'a']

def fourth : Str := ['d', 'b', 'a']

def move (old new : Str) : Action ℕ :=
  .batch [⟨Str.single 'm', old, new⟩] none [] (.cas true .landed)

def push (old new : Str) (pack : ℕ) : List (Action ℕ) :=
  [.arrive [⟨pack, .pack⟩, ⟨pack, .idx⟩], move old new]

def compact (plan : Plan ℕ) (pack : ℕ) : List (Action ℕ) :=
  [.spawn plan, .build pack [], .foldCommit 0 .landed]

/-- Two pushes are folded into one pack; then the branch goes back to its first commit, and is built
into a base. -/
def foldAndRewind : List (Action ℕ) :=
  [.restore, .serve] ++ push absent second 5 ++ push second third 6 ++ compact (.fold [5, 6]) 1 ++
    [move third first] ++ compact .base 9

def packed : ℕ → List Str
  | 5 => [absent, first, second]
  | 6 => [third]
  | 1 => [absent, first, second, third]
  | 9 => [absent, first]
  | 7 => [second]
  | 8 => [fourth]
  | _ => []

def plain : Config := ⟨0, 0, 0, 900⟩

instance (s : Repo ν) (a : Action ν) : Decidable (Unretained s a) := by
  unfold Unretained
  split <;> infer_instance

theorem rewound_repository_restorable :
    let s := run (step (words packed) plain) .start foldAndRewind
    Steps (step (words packed) plain) Unretained .start foldAndRewind ∧ s.snap.packs = [1, 9] ∧
      ∀ o ∈ (words packed).reachableFrom (tipsOf s.snap.refs), ∃ p ∈ s.snap.packs,
        o ∈ (words packed).contents p := by
  intro s
  have hsts : Steps (step (words packed) plain) Unretained .start foldAndRewind := by
    decide +kernel
  exact ⟨hsts, by decide +kernel, (published_snapshot_restorable _ _ _ hsts).1⟩

/-- Pack 5 was superseded and is retained. After a restart a base is built that is pack 5 again: the
snapshot names it, it is still retained, and the next batch drops it. -/
theorem retained_pack_lost :
    let s := run (step (words packed) plain) .start (foldAndRewind ++
      [.restart (fun _ => true) true, .restore, .reclaim .landed, .serve] ++
      push first second 7 ++ compact .base 5 ++ push second fourth 8)
    s.snap.packs = [8] ∧ first ∈ (words packed).reachableFrom (tipsOf s.snap.refs) ∧
      ∀ p ∈ s.snap.packs, first ∉ (words packed).contents p := by
  decide +kernel

end Flint.Forge.Packs
