import Flint.StateIds.Share

/-!
# The writers of an inode

A read delegation is granted on an inode that no one has open for writing. `fileHasWriteOpen` asks
through three tables: the inode leads to filehandles, a filehandle to owners, an owner to its open.
The first link is made by `indexIdent` in every OPEN that brings an inode along.

Rows hold no inode, so the opens that a new manager loads are not found until there is an OPEN on
their filehandle again (`restart_hides_writer`).
-/

namespace Flint.StateIds

open StateIdManager Outcome Dict List

/-! ### The buckets -/

def StateIdManager.fhsOf (m : StateIdManager) (ident : Ident) : List Bytes :=
  (m.fhsByIdent.get? ident).getD []

variable {ident : Ident} {fh : Bytes}

theorem mem_removeFromBucket_of_ne {buckets : Dict Ident (List Bytes)} {i : Ident} {f : Bytes}
    (hne : f ≠ fh) (h : f ∈ (buckets.get? i).getD []) :
    f ∈ ((removeFromBucket buckets ident fh).get? i).getD [] := by
  unfold removeFromBucket
  grind [get?_erase, get?_insert]

theorem mem_addToBucket {buckets : Dict Ident (List Bytes)} {i : Ident} {f : Bytes} :
    f ∈ ((addToBucket buckets ident fh).get? i).getD [] ↔
      f ∈ (buckets.get? i).getD [] ∨ (i = ident ∧ f = fh) := by
  unfold addToBucket
  dsimp only
  rw [get?_insert]
  grind

structure Bound (m m' : StateIdManager) (fh : Bytes) (ident : Ident) : Prop where
  here : fh ∈ m'.fhsOf ident
  others : ∀ f i, f ≠ fh → f ∈ m.fhsOf i → f ∈ m'.fhsOf i

theorem indexIdent_bound (m : StateIdManager) (fh : Bytes) (ident : Ident) :
    Bound m (m.indexIdent fh (some ident)) fh ident := by
  constructor
  · exact mem_addToBucket.mpr (.inr ⟨rfl, rfl⟩)
  · intro f i hne hf
    apply mem_addToBucket.mpr
    left
    split
    · split
      · exact hf
      · exact mem_removeFromBucket_of_ne hne hf
    · exact hf

variable {m m' : StateIdManager}

theorem fhsOf_congr (h : m'.fhsByIdent = m.fhsByIdent) (i : Ident) : m'.fhsOf i = m.fhsOf i := by
  unfold fhsOf
  rw [h]

variable {m₁ : StateIdManager}

theorem Bound.of_eq (h : Bound m m₁ fh ident) (heq : m'.fhsByIdent = m₁.fhsByIdent) :
    Bound m m' fh ident where
  here := fhsOf_congr heq ident ▸ h.here
  others f i hne hf := fhsOf_congr heq i ▸ h.others f i hne hf

theorem Bound.reindex (h : Bound m m₁ fh ident) :
    Bound m (m₁.indexIdent fh (some ident)) fh ident where
  here := (indexIdent_bound m₁ fh ident).here
  others f i hne hf := (indexIdent_bound m₁ fh ident).others f i hne (h.others f i hne hf)

theorem restamp_fhsByIdent (m : StateIdManager) (owner : Bytes) (e : OpenState) :
    (m.restamp owner e).fhsByIdent = m.fhsByIdent := by
  unfold restamp
  split
  · rfl
  · rfl

theorem openFresh_fhsByIdent (m : StateIdManager) (key : OpenKey) (access deny : UInt32)
    (verifier : Option UInt64) :
    (m.openFresh key access deny verifier).2.fhsByIdent = m.fhsByIdent := by
  unfold openFresh
  dsimp only
  unfold addOwner stampOpen
  split
  · rfl
  · rfl

theorem recordOpen_bound (m : StateIdManager) (key : OpenKey) (access deny : UInt32)
    (verifier : Option UInt64) (ident : Ident) :
    Bound m (m.recordOpen key.clientId key.owner key.fh access deny verifier (some ident)).2 key.fh
      ident := by
  have hidx := indexIdent_bound m key.fh ident
  unfold recordOpen
  dsimp only
  split
  · split
    · exact hidx.of_eq (restamp_fhsByIdent _ _ _)
    · exact Bound.reindex (hidx.of_eq (openFresh_fhsByIdent _ _ _ _ _))
  · exact Bound.reindex (hidx.of_eq (openFresh_fhsByIdent _ _ _ _ _))

/-! ### What a close leaves of the buckets -/

def KeepsBuckets (m m' : StateIdManager) : Prop :=
  ∀ fh i, m'.ownersOf fh ≠ [] → fh ∈ m.fhsOf i → fh ∈ m'.fhsOf i

theorem KeepsBuckets.of_eq (h : m'.fhsByIdent = m.fhsByIdent) : KeepsBuckets m m' := by
  intro fh i _ hmem
  rwa [fhsOf_congr h]

theorem KeepsBuckets.trans (h : KeepsBuckets m m₁) (h' : KeepsBuckets m₁ m')
    (hfewer : ∀ fh p, p ∈ m'.ownersOf fh → p ∈ m₁.ownersOf fh) : KeepsBuckets m m' := by
  intro fh i hows hmem
  refine h' fh i hows (h fh i ?_ hmem)
  obtain ⟨p, hp⟩ := exists_mem_of_ne_nil _ hows
  exact ne_nil_of_mem (hfewer fh p hp)

theorem KeepsBuckets.trans_same (h : KeepsBuckets m m₁) (h' : KeepsBuckets m₁ m')
    (hsm : SameOpens m₁ m') : KeepsBuckets m m' :=
  h.trans h' fun fh _ hp => hsm.owners fh ▸ hp

theorem dropFhIfUnopened_keeps (m : StateIdManager) (fh : Bytes) :
    KeepsBuckets m (m.dropFhIfUnopened fh) := by
  intro f i hows hmem
  rw [(dropFhIfUnopened_same m fh).owners] at hows
  unfold dropFhIfUnopened
  split
  · exact hmem
  · next owners hget =>
    split
    · exact hmem
    · next hemp =>
      -- the filehandle that goes has no owner, so it is not the one we ask about
      have hne : f ≠ fh := by
        rintro rfl
        rw [ownersOf, hget] at hows
        exact hemp hows
      split
      · exact mem_removeFromBucket_of_ne hne hmem
      · exact hmem

theorem pushTombstone_fhsByIdent (m : StateIdManager) (other : Other) :
    (m.pushTombstone other).fhsByIdent = m.fhsByIdent := by
  unfold pushTombstone
  split
  · rfl
  · rfl

theorem removeMaster_fhsByIdent (m : StateIdManager) (other : Other) :
    (m.removeMaster other).fhsByIdent = m.fhsByIdent := by
  unfold removeMaster
  split
  · rfl
  · rfl

theorem finishClose_keeps (m : StateIdManager) (other : Other) (key : OpenKey) (nowEmpty : Bool) :
    KeepsBuckets m (m.finishClose other key nowEmpty) := by
  unfold finishClose
  dsimp only
  cases nowEmpty with
  | false =>
    apply KeepsBuckets.of_eq
    rw [removeMaster_fhsByIdent]
    exact pushTombstone_fhsByIdent m other
  | true =>
    rw [if_pos rfl]
    refine KeepsBuckets.trans ?_ (.of_eq (removeMaster_fhsByIdent _ other)) ?_
    · have hbef : KeepsBuckets m { m.pushTombstone other with
          openStateKeys := (m.pushTombstone other).openStateKeys.removeIf other fun k =>
            k = key } :=
        .of_eq (pushTombstone_fhsByIdent m other)
      exact hbef.trans_same (dropFhIfUnopened_keeps _ key.fh) (dropFhIfUnopened_same _ key.fh)
    · intro fh p hp
      rwa [(removeMaster_retired _ other).owners] at hp

variable {key : OpenKey}

theorem removeOpen_finishClose_keeps {pred : OpenState → Bool} {nowEmpty : Bool}
    (h : m.removeOpenUnderEntry key pred = (some nowEmpty, m₁)) (other : Other) :
    KeepsBuckets m (m₁.finishClose other key nowEmpty) := by
  obtain ⟨-, -, -, hunl, hfhs, -⟩ := removeOpenUnderEntry_some h
  refine KeepsBuckets.trans (.of_eq hfhs) (finishClose_keeps m₁ other key nowEmpty) ?_
  intro fh p hp
  rw [(finishClose_closed hunl other nowEmpty).owners] at hp
  exact (hunl.owners fh p).mpr hp

theorem closeOpen_keeps (m : StateIdManager) (stateid : StateId) :
    KeepsBuckets m (m.closeOpen stateid).2 := by
  have htb := pushTombstone_fhsByIdent m stateid.other
  unfold closeOpen
  split
  · split
    · exact .of_eq rfl
    · split
      · exact .of_eq rfl
      · exact .of_eq rfl
  · next key _ =>
    dsimp only
    split
    · next nowEmpty m₁ hrem =>
      intro fh i hows hmem
      rw [← fhsOf_congr htb] at hmem
      exact removeOpen_finishClose_keeps hrem stateid.other fh i hows hmem
    · next m₁ hrem =>
      obtain rfl := removeOpenUnderEntry_none hrem
      split
      · exact .of_eq htb
      · split
        · exact .of_eq htb
        · exact .of_eq htb

theorem closeOpenState_keeps (m : StateIdManager) (other : Other) :
    KeepsBuckets m (m.closeOpenState other) := by
  have htb := pushTombstone_fhsByIdent m other
  unfold closeOpenState
  dsimp only
  split
  · next key _ =>
    split
    · next nowEmpty m₁ hrem =>
      intro fh i hows hmem
      rw [← fhsOf_congr htb] at hmem
      exact removeOpen_finishClose_keeps hrem other fh i hows hmem
    · next m₁ hrem =>
      obtain rfl := removeOpenUnderEntry_none hrem
      apply KeepsBuckets.of_eq
      rw [pushTombstone_fhsByIdent, removeMaster_fhsByIdent]
      exact htb
  · apply KeepsBuckets.of_eq
    rw [pushTombstone_fhsByIdent, removeMaster_fhsByIdent, htb]

theorem removeClientOpen_keeps (m : StateIdManager) (key : OpenKey) :
    KeepsBuckets m (m.removeClientOpen key) := by
  unfold removeClientOpen
  split
  · next m₁ hrem =>
    obtain ⟨-, -, -, -, hfhs, -⟩ := removeOpenUnderEntry_some hrem
    exact .trans_same (.of_eq hfhs) (dropFhIfUnopened_keeps m₁ key.fh)
      (dropFhIfUnopened_same m₁ key.fh)
  · next answer m₁ _ hrem =>
    cases answer with
    | some nowEmpty =>
      obtain ⟨-, -, -, -, hfhs, -⟩ := removeOpenUnderEntry_some hrem
      exact .of_eq hfhs
    | none =>
      obtain rfl := removeOpenUnderEntry_none hrem
      exact .of_eq rfl

theorem foldl_removeClientOpen_keeps (keys : List OpenKey) (m : StateIdManager) :
    KeepsBuckets m (keys.foldl removeClientOpen m) := by
  induction keys generalizing m with
  | nil => exact .of_eq rfl
  | cons key keys ih =>
    exact (removeClientOpen_keeps m key).trans (ih _) (foldl_removeClientOpen_dropped keys _).fewer

theorem removeClientStateids_keeps (m : StateIdManager) (clientId : UInt64) :
    KeepsBuckets m (m.removeClientStateids clientId) := by
  unfold removeClientStateids
  dsimp only
  split
  · next l _ =>
    obtain ⟨states, rows, heq, -, -⟩ := foldl_removeClientState l m
    intro fh i hows hmem
    rw [heq] at hows ⊢
    exact foldl_removeClientOpen_keeps _ _ fh i hows hmem
  · exact foldl_removeClientOpen_keeps _ m

theorem downgradeOpen_fhsByIdent (m : StateIdManager) (stateid : StateId) (access deny : UInt32) :
    (m.downgradeOpen stateid access deny).2.fhsByIdent = m.fhsByIdent := by
  unfold downgradeOpen
  split
  · rfl
  · split
    · rfl
    · split
      · rfl
      · exact restamp_fhsByIdent _ _ _

theorem revoke_fhsByIdent (m : StateIdManager) (stateid : StateId) :
    (m.revoke stateid).2.fhsByIdent = m.fhsByIdent := by
  unfold revoke
  split
  · rfl
  · rfl

/-! ### Runs with the inodes that were recorded -/

structure Recorded where
  manager : StateIdManager
  last : Dict Bytes Ident

namespace Recorded

def start (tag : Option UInt32) : Recorded := ⟨new tag .empty, .empty⟩

def step (n : Recorded) (call : Call) : Recorded where
  manager := n.manager.apply call
  last := match call with
    | .recordOpen key _ _ _ (some ident) => n.last.insert key.fh ident
    | _ => n.last

def Writes (st : OpenState) : Prop := st.shareAccess &&& 2 ≠ 0

/-- `fileHasWriteOpen` is true of every inode with a filehandle that has an open for writing which
is not revoked. -/
def WritersSeen (n : Recorded) : Prop :=
  ∀ key st ident, n.manager.openStates.get? key = some st →
    n.manager.masterAlive st.stateidOther → Writes st → n.last.get? key.fh = some ident →
    n.manager.fileHasWriteOpen ident

def Quiet (n : Recorded) : Call → Prop
  | .restart _ records => records.Perm n.manager.records →
    ∀ key st, n.manager.openStates.get? key = some st →
      n.manager.masterAlive st.stateidOther → ¬Writes st
  | _ => True

end Recorded

def Call.Identified : Call → Prop
  | .recordOpen _ _ _ _ ident => ident ≠ none
  | _ => True

open Recorded

variable {st : OpenState}

theorem Writes.of_within {st' : OpenState} (h : Writes st) (hwin : st.Within st') : Writes st' := by
  unfold Writes at h ⊢
  intro hz
  apply h
  apply and_eq_zero_iff.mpr
  intro i hi
  exact and_eq_zero_iff.mp hz i (hwin.access i hi)

/-- The filehandle of every open has an inode, and that of every open for writing is in its bucket.
-/
structure Indexed (n : Recorded) : Prop where
  sound : Sound n.manager
  named : ∀ key st, n.manager.openStates.get? key = some st →
    ∃ ident, n.last.get? key.fh = some ident
  bucket : ∀ key st ident, n.manager.openStates.get? key = some st → Writes st →
    n.last.get? key.fh = some ident → key.fh ∈ n.manager.fhsOf ident

variable {n : Recorded}

theorem Indexed.writersSeen (h : Indexed n) : n.WritersSeen := by
  intro key st ident hst _ hwrs hla
  unfold fileHasWriteOpen
  rw [any_eq_true]
  refine ⟨key.fh, h.bucket key st ident hst hwrs hla, ?_⟩
  rw [any_eq_true]
  refine ⟨(key.clientId, key.owner), h.sound.listed key st hst, ?_⟩
  rw [show n.manager.openStates.get? ⟨(key.clientId, key.owner).1, (key.clientId, key.owner).2,
    key.fh⟩ = some st from hst]
  exact decide_eq_true hwrs

theorem indexed_start (tag : Option UInt32) : Indexed (start tag) where
  sound := sound_new tag
  named key st hst := by cases (show (none : Option OpenState) = some st from hst)
  bucket key st ident hst := by cases (show (none : Option OpenState) = some st from hst)

theorem Indexed.of_keeps (h : Indexed n) {call : Call}
    (hca : ∀ key access deny verifier ident, call ≠ .recordOpen key access deny verifier ident)
    (hla : (n.step call).last = n.last) (hkps : KeepsBuckets n.manager (n.manager.apply call)) :
    Indexed (n.step call) := by
  have hsnd := h.sound.apply call
  refine ⟨hsnd, ?_, ?_⟩
  · intro key st hst
    obtain ⟨st₀, hst₀, -⟩ := h.sound.apply_within hca hst
    rw [hla]
    exact h.named key st₀ hst₀
  · intro key st ident hst hwrs hid
    rw [hla] at hid
    obtain ⟨st₀, hst₀, hwin⟩ := h.sound.apply_within hca hst
    refine hkps key.fh ident (ne_nil_of_mem (hsnd.listed key st hst)) ?_
    exact h.bucket key st₀ ident hst₀ (Writes.of_within hwrs hwin) hid

theorem Indexed.recordOpen (h : Indexed n) (key : OpenKey) (access deny : UInt32)
    (verifier : Option UInt64) (ident : Ident) :
    Indexed (n.step (.recordOpen key access deny verifier (some ident))) := by
  have hbd := recordOpen_bound n.manager key access deny verifier ident
  have hla : ∀ fh, (n.step (.recordOpen key access deny verifier (some ident))).last.get? fh =
      if fh = key.fh then some ident else n.last.get? fh :=
    fun fh => get?_insert n.last key.fh fh ident
  -- on another filehandle the opens are as they were
  have hops : ∀ k st, (n.step (.recordOpen key access deny verifier
      (some ident))).manager.openStates.get? k = some st → k.fh ≠ key.fh →
      n.manager.openStates.get? k = some st := by
    intro k st hst hfh
    have hk : k ≠ key := fun heq => hfh (congrArg OpenKey.fh heq)
    obtain ⟨sid, m', heq, hch⟩ := recordOpen_change n.manager key access deny verifier (some ident)
    change (n.manager.recordOpen key.clientId key.owner key.fh access deny verifier
      (some ident)).2.openStates.get? k = some st at hst
    rw [heq] at hst
    cases hch with
    | merged cur _ _ hrst =>
      rw [hrst.opens, if_neg hk] at hst
      exact hst
    | made _ hopd =>
      rw [hopd.opens, if_neg hk] at hst
      exact hst
  refine ⟨h.sound.apply (.recordOpen key access deny verifier (some ident)), ?_, ?_⟩
  · intro k st hst
    rw [hla]
    split
    · exact ⟨ident, rfl⟩
    · next hfh => exact h.named k st (hops k st hst hfh)
  · intro k st i hst hwrs hi
    rw [hla] at hi
    split at hi
    · next hfh =>
      rw [hfh, ← Option.some.inj hi]
      exact hbd.here
    · next hfh => exact hbd.others k.fh i hfh (h.bucket k st i (hops k st hst hfh) hwrs hi)

theorem Sound.restart_alive (h : Sound m) {records : List StateIdRecord}
    (hpm : records.Perm m.records) (tag : Option UInt32) :
    ((new tag m.rows).loadRecords records).openStates.get? key = some st ↔
      ∃ st₀, m.openStates.get? key = some st₀ ∧ m.masterAlive st₀.stateidOther ∧
        st = { st₀ with verifier := none } := by
  rw [h.restart_opens hpm (loadRecords_loaded tag m.rows (h.distinct hpm)).1]
  unfold masterAlive
  constructor
  · rintro ⟨st₀, e, hst₀, he, hlv, heq⟩
    refine ⟨st₀, hst₀, ?_, heq⟩
    rw [he]
    simp [hlv]
  · rintro ⟨st₀, hst₀, hliv, heq⟩
    obtain ⟨e, he, hlv⟩ := Option.any_eq_true _ _ |>.mp hliv
    refine ⟨st₀, e, hst₀, he, ?_, heq⟩
    simpa using hlv

theorem Indexed.step (h : Indexed n) {call : Call} (hid : call.Identified)
    (hqt : n.Quiet call) : Indexed (n.step call) := by
  cases call with
  | recordOpen key access deny verifier ident =>
    obtain ⟨i, rfl⟩ := Option.ne_none_iff_exists'.mp hid
    exact h.recordOpen key access deny verifier i
  | closeOpen stateid => exact h.of_keeps nofun rfl (closeOpen_keeps n.manager stateid)
  | closeOpenState other => exact h.of_keeps nofun rfl (closeOpenState_keeps n.manager other)
  | downgradeOpen stateid access deny =>
    exact h.of_keeps nofun rfl (.of_eq (downgradeOpen_fhsByIdent n.manager stateid access deny))
  | revoke stateid => exact h.of_keeps nofun rfl (.of_eq (revoke_fhsByIdent n.manager stateid))
  | removeClientStateids clientId =>
    exact h.of_keeps nofun rfl (removeClientStateids_keeps n.manager clientId)
  | restart tag records =>
    by_cases hpm : records.Perm n.manager.records
    · refine ⟨h.sound.apply (.restart tag records), ?_, ?_⟩
      · intro key st hst
        have hca : ∀ key access deny verifier ident, Call.restart tag records ≠
            .recordOpen key access deny verifier ident := nofun
        obtain ⟨st₀, hst₀, -⟩ := h.sound.apply_within hca hst
        exact h.named key st₀ hst₀
      · -- no open for writing comes back
        intro key st ident hst hwrs _
        change (if records.Perm n.manager.records then
          (new tag n.manager.rows).loadRecords records else n.manager).openStates.get? key =
            some st at hst
        rw [if_pos hpm] at hst
        obtain ⟨st₀, hst₀, hliv, rfl⟩ := (h.sound.restart_alive hpm tag).mp hst
        exact absurd hwrs (hqt hpm key st₀ hst₀ hliv)
    · refine h.of_keeps nofun rfl (.of_eq ?_)
      change (if records.Perm n.manager.records then _ else n.manager).fhsByIdent = _
      rw [if_neg hpm]

theorem Indexed.not_writersSeen_of_restart (h : Indexed n) {tag : Option UInt32}
    {records : List StateIdRecord} (hpm : records.Perm n.manager.records)
    (hst : n.manager.openStates.get? key = some st)
    (hliv : n.manager.masterAlive st.stateidOther) (hwrs : Writes st) :
    ¬(n.step (.restart tag records)).WritersSeen := by
  intro hsn
  obtain ⟨ident, hid⟩ := h.named key st hst
  have hld := loadRecords_loaded tag n.manager.rows (h.sound.distinct hpm)
  have hmanager : (n.step (.restart tag records)).manager =
      (new tag n.manager.rows).loadRecords records := if_pos hpm
  have hback : (n.step (.restart tag records)).manager.openStates.get? key =
      some { st with verifier := none } := by
    rw [hmanager]
    exact (h.sound.restart_alive hpm tag).mpr ⟨st, hst, hliv, rfl⟩
  have hliv' : (n.step (.restart tag records)).manager.masterAlive st.stateidOther := by
    obtain ⟨e, he, hlv⟩ := Option.any_eq_true _ _ |>.mp hliv
    have hop := h.sound.owned key st e hst he (by simpa using hlv)
    rw [hmanager, masterAlive, (h.sound.restart_states hpm hld.1 st.stateidOther _).mpr
      ⟨e, he, StateIdRecord.type_of_openOf hop, rfl⟩]
    exact hlv
  have hfnd := hsn key _ ident hback hliv' hwrs hid
  rw [hmanager] at hfnd
  unfold fileHasWriteOpen at hfnd
  rw [hld.1.fhs] at hfnd
  cases hfnd

/-- A run in which every OPEN brings an inode has every writer seen after each of its calls if and
only if no restart takes place while there is an open for writing that is not revoked. -/
theorem writers_seen_iff (tag : Option UInt32) (calls : List Call)
    (hid : ∀ call ∈ calls, call.Identified) :
    (∀ before, before <+: calls → (run step (start tag) before).WritersSeen) ↔
      Steps step Quiet (start tag) calls := by
  -- along the quiet part of a run the index is whole
  have hidx : ∀ l : List Call, (∀ call ∈ l, call.Identified) →
      Steps step Quiet (start tag) l → Indexed (run step (start tag) l) := by
    intro l
    induction l using reverseRecOn with
    | nil => exact fun _ _ => indexed_start tag
    | append_singleton l call ih =>
      intro hl hqt
      obtain ⟨hbef, hla, -⟩ := steps_append.mp hqt
      rw [run_append]
      refine (ih (fun c hc => hl c (mem_append_left _ hc)) hbef).step ?_ hla
      exact hl call (mem_append_right _ (mem_singleton_self call))
  induction calls using reverseRecOn with
  | nil =>
    refine iff_of_true ?_ trivial
    intro before hbef
    rw [prefix_nil.mp hbef]
    exact (indexed_start tag).writersSeen
  | append_singleton calls call ih =>
    have hid' : ∀ c ∈ calls, c.Identified := fun c hc => hid c (mem_append_left _ hc)
    constructor
    · intro hsn
      have hqt := (ih hid').mp fun before hbef =>
        hsn before (hbef.trans (prefix_append calls [call]))
      refine steps_append.mpr ⟨hqt, ?_, trivial⟩
      have hind := hidx calls hid' hqt
      have haft := hsn _ (prefix_refl (calls ++ [call]))
      rw [run_append] at haft
      cases call with
      | restart tag' records =>
        intro hpm key st hst hliv hwrs
        exact hind.not_writersSeen_of_restart hpm hst hliv hwrs haft
      | _ => trivial
    · intro hqt before hbef
      obtain ⟨rest, hrs⟩ := hbef
      rw [← hrs] at hqt hid
      refine (hidx before ?_ (steps_append.mp hqt).1).writersSeen
      exact fun c hc => hid c (mem_append_left _ hc)

def readerCalls : List Call :=
  let calls : List Call := [.recordOpen ⟨1, [1], [7]⟩ 1 0 none (some (0, 5))]
  calls ++ [.restart none (run step (start none) calls).manager.records,
    .recordOpen ⟨2, [2], [7]⟩ 3 0 none (some (0, 5))]

theorem writer_after_restart_seen : (run step (start none) readerCalls).WritersSeen := by
  refine (writers_seen_iff none readerCalls ?_).mpr ?_ readerCalls (prefix_refl readerCalls)
  · intro call hca
    simp only [readerCalls, cons_append, nil_append, mem_cons, not_mem_nil, or_false] at hca
    rcases hca with rfl | rfl | rfl
    · exact nofun
    · trivial
    · exact nofun
  · refine ⟨trivial, ?_, trivial, trivial⟩
    -- the one open there is reads only
    have hrds : ∀ entry ∈ (run step (start none)
        [.recordOpen ⟨1, [1], [7]⟩ 1 0 none (some (0, 5))]).manager.openStates.toList,
        entry.2.shareAccess &&& 2 = 0 := by decide
    intro _ key st hst _ hwrs
    exact hwrs (hrds (key, st) (mem_toList.mpr hst))

def writerCalls : List Call :=
  let calls : List Call := [.recordOpen ⟨1, [1], [7]⟩ 3 0 none (some (0, 5))]
  calls ++ [.restart none (run step (start none) calls).manager.records]

/-- The open for writing is there and not revoked, its filehandle was recorded with the inode, and
the inode has no writer. -/
theorem restart_hides_writer :
    ((run step (start none) writerCalls).manager.openStates.get? ⟨1, [1], [7]⟩).any
        (fun st => st.shareAccess = 3 &&
          (run step (start none) writerCalls).manager.masterAlive st.stateidOther) ∧
      (run step (start none) writerCalls).last.get? [7] = some (0, 5) ∧
      (run step (start none) writerCalls).manager.fileHasWriteOpen (0, 5) = false := by
  decide

end Flint.StateIds
