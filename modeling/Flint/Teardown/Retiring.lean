import Flint.Teardown.Serving

/-!
# The actions that tear a client down

A pass may go when each entry that it was to find has a removal of its own (`Spent`). A pass over an
index finds every entry, since one that is not listed is of a client that is served.
-/

namespace Flint.Teardown

open Tables List Bool

open StateIds (Bytes OpenKey)

/-! ### What the passes find -/

namespace Tables

variable {t : Tables} {c : ClientId}

theorem mem_pass {β : Type} {f : Slot → Option β} (mk : β → Slot) (q : β → Prop)
    (hf : ∀ slot b, f slot = some b ↔ slot = mk b ∧ q b) {l : List Slot} {b : β} :
    b ∈ l.filterMap f ↔ mk b ∈ l ∧ q b := by
  rw [mem_filterMap]
  constructor
  · rintro ⟨slot, hsl, heq⟩
    obtain ⟨rfl, hq⟩ := (hf slot b).mp heq
    exact ⟨hsl, hq⟩
  · rintro ⟨hsl, hq⟩
    exact ⟨mk b, hsl, (hf (mk b) b).mpr ⟨rfl, hq⟩⟩

theorem mem_tablePass {β : Type} {f : Slot × Val → Option β} (mk : β → Slot) (q : β → Prop)
    (hf : ∀ entry b, f entry = some b ↔ entry.1 = mk b ∧ q b) {b : β} :
    b ∈ t.entries.toList.filterMap f ↔ t.has (mk b) ∧ q b := by
  have hhas : t.has (mk b) ↔ ∃ v, (mk b, v) ∈ t.entries.toList := by
    simp only [Dict.mem_toList]
    exact Option.isSome_iff_exists
  rw [mem_filterMap, hhas]
  constructor
  · rintro ⟨⟨slot, v⟩, hsl, heq⟩
    obtain ⟨rfl, hq⟩ := (hf (slot, v) b).mp heq
    exact ⟨⟨v, hsl⟩, hq⟩
  · rintro ⟨⟨v, hsl⟩, hq⟩
    exact ⟨(mk b, v), hsl, (hf (mk b, v) b).mpr ⟨rfl, hq⟩⟩

theorem mem_clientSessions {id : SessionId} :
    id ∈ t.clientSessions c ↔ .session id ∈ t.listed ∧ id.clientId = c := by
  unfold clientSessions
  exact mem_pass .session (fun id => id.clientId = c) fun slot id => by cases slot <;> grind

theorem mem_clientStates {id : Minted} :
    id ∈ t.clientStates c ↔ .state id ∈ t.listed ∧ id.clientId = c := by
  unfold clientStates
  exact mem_pass .state (fun id => id.clientId = c) fun slot id => by cases slot <;> grind

theorem mem_byClient {id : Minted} :
    id ∈ t.byClient c ↔ .delegation id ∈ t.listed ∧ id.clientId = c := by
  unfold byClient
  exact mem_pass .delegation (fun id => id.clientId = c) fun slot id => by cases slot <;> grind

theorem mem_opensOf {key : OpenKey} :
    key ∈ t.opensOf c ↔ t.has (.opened key) ∧ key.clientId = c := by
  unfold opensOf
  exact mem_tablePass .opened (fun key => key.clientId = c) fun ⟨slot, v⟩ key => by
    cases slot <;> grind

theorem mem_locksOf {key : LockKey} : key ∈ t.locksOf c ↔ t.has (.lock key) ∧ key.client = c := by
  unfold locksOf
  exact mem_tablePass .lock (fun key => key.client = c) fun ⟨slot, v⟩ key => by
    cases slot <;> grind

theorem mem_lockOwnersOf {key : LockKey} :
    key ∈ t.lockOwnersOf c ↔ t.has (.lockOwner key) ∧ key.client = c := by
  unfold lockOwnersOf
  exact mem_tablePass .lockOwner (fun key => key.client = c) fun ⟨slot, v⟩ key => by
    cases slot <;> grind

end Tables

section Retiring

variable {t : Tables} {P Q : Set Action} {a : Action} {c : ClientId} {l : List Action}

theorem Action.retires_of_checked {slot : Slot} (h : a.Checked slot) : a.retires = none := by
  cases a with
  | countStates | countLocks | countDelegations | removeUnused => rfl
  | _ => exact h.elim

namespace Inv

theorem removing (h : Inv t P) (hrets : Retires P c) (hl : ∀ b ∈ l, b.retires = some c)
    (dropped : ∀ id : Minted, .dropStates id.clientId ∈ l →
      (t.has (.state id) → .remove (.state id) ∈ P ∪ follow (some l)) ∧
        (t.has (.stateRow id) → .remove (.stateRow id) ∈ P ∪ follow (some l)))
    (purged : ∀ key, .remove (.lockOwner key) ∈ l → t.has (.lockRow key) →
      .remove (.lockRow key) ∈ P ∪ follow (some l)) : Inv t (P ∪ follow (some l)) := by
  refine h.tear (fun b hb => ?_) (fun slot _ hr => ?_) (fun b hb slot hchk => ?_)
    (fun c' hc' => ?_) dropped purged
  · exact ⟨c, Action.tears_of_retires (hl b hb), h.not_serves hrets.tears⟩
  · obtain ⟨b, hb, hr⟩ := hr
    rw [← Option.mem_unique hr (hl b hb)] at hrets
    exact .inl hrets
  · cases (hl b hb).symm.trans (Action.retires_of_checked hchk)
  · rcases hc' with hc' | hc' <;> cases hl _ hc'

theorem removing_plain (h : Inv t P) (hrets : Retires P c) (hl : ∀ b ∈ l, b.retires = some c)
    (hdr : ∀ c', .dropStates c' ∉ l) (hown : ∀ key, .remove (.lockOwner key) ∉ l) :
    Inv t (P ∪ follow (some l)) :=
  h.removing hrets hl (fun _ hb => absurd hb (hdr _)) fun key hb => absurd hb (hown key)

theorem removing_found {β : Type} (found : List β) (f : β → Action) (h : Inv t P)
    (hrets : Retires P c) (hf : ∀ x ∈ found, (f x).retires = some c)
    (hdr : ∀ x c', f x ≠ .dropStates c') (hown : ∀ x key, f x ≠ .remove (.lockOwner key)) :
    Inv t (P ∪ follow (some (found.map f))) := by
  refine h.removing_plain hrets (fun b hb => ?_) (fun c' hb => ?_) fun key hb => ?_
  · obtain ⟨x, hx, rfl⟩ := mem_map.mp hb
    exact hf x hx
  · obtain ⟨x, -, heq⟩ := mem_map.mp hb
    exact hdr x c' heq
  · obtain ⟨x, -, heq⟩ := mem_map.mp hb
    exact hown x key heq

theorem state_listed_or_removed (h : Inv t P) {id : Minted} (htr : Tears P id.clientId)
    (hhas : t.has (.state id)) : .state id ∈ t.listed ∨ .remove (.state id) ∈ P := by
  rcases h.states id hhas with hl | hl | hr
  · exact .inl hl
  · exact absurd htr (h.apart _ (.of_mem hl rfl))
  · exact .inr hr

theorem stateRow_listed_or_removed (h : Inv t P) {id : Minted} (htr : Tears P id.clientId)
    (hhas : t.has (.stateRow id)) : .state id ∈ t.listed ∨ .remove (.stateRow id) ∈ P := by
  rcases h.stateRows id (.inl hhas) with (hl | hl | ⟨v, hv⟩) | hr
  · exact .inl hl
  · exact absurd htr (h.apart _ (.of_mem hl rfl))
  · exact absurd htr (h.apart _ (.of_mem hv rfl))
  · exact .inr hr

theorem session_listed (h : Inv t P) {id : SessionId} (htr : Tears P id.clientId)
    (hhas : t.has (.session id)) : .session id ∈ t.listed :=
  (h.sessions id hhas).resolve_right fun hl => h.apart _ (.of_mem hl rfl) htr

theorem delegation_listed_or_removed (h : Inv t P) {id : Minted} (htr : Tears P id.clientId)
    (hhas : t.has (.delegation id)) :
    .delegation id ∈ t.listed ∨ .remove (.delegation id) ∈ P := by
  rcases h.delegations id hhas with hl | hl | hr
  · exact .inl hl
  · exact absurd htr (h.apart _ (.of_mem hl rfl))
  · exact .inr hr

end Inv

theorem keeps_readSessions : Keeps t Q (.readSessions c) := by
  intro h
  have ha := Set.mem_insert (Action.readSessions c) Q
  have htr : Tears (insert (.readSessions c) Q) c := .of_mem ha rfl
  have h₁ := h.removing_found (t.clientSessions c) .destroySession (.of_mem ha rfl)
    (fun id hid => congrArg some (mem_clientSessions.mp hid).2)
    (fun id c' heq => by cases heq) fun id key heq => by cases heq
  refine h₁.drop fun id hid hhas => .inr (mem_map.mpr ⟨id, ?_, rfl⟩)
  exact mem_clientSessions.mpr ⟨h.session_listed (hid ▸ htr) hhas, hid⟩

theorem Inv.erase_session (h : Inv t P) (id : SessionId) :
    Inv (t.erase (.session id)) (P ∪ follow (some [.unlist id])) := by
  have h₁ : Inv (t.erase (.session id)) P :=
    h.erase (fun _ heq => by cases heq) fun _ heq => by cases heq
  refine h₁.adds rfl (fun c hc => by cases hc) (fun c hc => by cases hc) fun id' heq => ?_
  rw [← Action.unlist.inj heq]
  exact t.has_erase_self _

theorem keeps_destroySession {id : SessionId} : Keeps t Q (.destroySession id) := by
  intro h
  rw [exec]
  split
  · exact (h.erase_session id).drop (t.has_erase_self _)
  · next hhas => exact h.ends (eq_false_iff.mpr hhas)

theorem keeps_unlist {id : SessionId} : Keeps t Q (.unlist id) := by
  intro h
  refine (h.delist _ (fun id' hp => ?_) (fun id' hp => ?_) fun id' hp => ?_).ends trivial
  · have heq : id' = id := by simpa using hp
    exact h.unlisted id' (heq ▸ Set.mem_insert _ Q)
  · simp at hp
  · simp at hp

/-! ### Stateids, opens and delegations -/

theorem keeps_readStates : Keeps t Q (.readStates c) := by
  intro h
  have htr : Tears (insert (.readStates c) Q) c := .of_mem (Set.mem_insert _ Q) rfl
  have hmem : ∀ {slot}, .remove slot ∈ insert (.readStates c) Q → .remove slot ∈ Q := fun hb =>
    hb.resolve_left nofun
  rw [exec]
  split
  · next hemp =>
    -- no stateid is listed, so each of them is being removed already
    have hno : ∀ id : Minted, id.clientId = c → .state id ∉ t.listed := fun id hid hl =>
      not_mem_nil (isEmpty_iff.mp hemp ▸ mem_clientStates.mpr ⟨hl, hid⟩)
    refine h.ends fun id hid => ⟨fun hhas => ?_, fun hhas => ?_⟩
    · exact hmem ((h.state_listed_or_removed (hid ▸ htr) hhas).resolve_left (hno id hid))
    · exact hmem ((h.stateRow_listed_or_removed (hid ▸ htr) hhas).resolve_left (hno id hid))
  · set l : List Action := (t.clientStates c).flatMap
      (fun id => [.remove (.state id), .remove (.stateRow id)]) ++ [.dropStates c] with hl
    have hfnd : ∀ {id : Minted}, id.clientId = c → .state id ∈ t.listed →
        .remove (.state id) ∈ l ∧ .remove (.stateRow id) ∈ l := by
      intro id hid hlis
      have hmem := mem_clientStates.mpr ⟨hlis, hid⟩
      simp only [hl, mem_append, mem_flatMap]
      exact ⟨.inl ⟨id, hmem, .head _⟩, .inl ⟨id, hmem, .tail _ (.head _)⟩⟩
    have hall : ∀ id : Minted, id.clientId = c →
        (t.has (.state id) → .remove (.state id) ∈ Q ∪ follow (some l)) ∧
          (t.has (.stateRow id) → .remove (.stateRow id) ∈ Q ∪ follow (some l)) := by
      refine fun id hid => ⟨fun hhas => ?_, fun hhas => ?_⟩
      · rcases h.state_listed_or_removed (hid ▸ htr) hhas with hlis | hr
        · exact .inr (hfnd hid hlis).1
        · exact .inl (hmem hr)
      · rcases h.stateRow_listed_or_removed (hid ▸ htr) hhas with hlis | hr
        · exact .inr (hfnd hid hlis).2
        · exact .inl (hmem hr)
    have hcas : ∀ b ∈ l, b = .dropStates c ∨
        ∃ id : Minted, id.clientId = c ∧
          (b = .remove (.state id) ∨ b = .remove (.stateRow id)) := by
      intro b hb
      rcases mem_append.mp hb with hb | hb
      · obtain ⟨id, hid, hb⟩ := mem_flatMap.mp hb
        exact .inr ⟨id, (mem_clientStates.mp hid).2, mem_pair.mp hb⟩
      · exact .inl (mem_singleton.mp hb)
    have hsub : Q ∪ follow (some l) ⊆ insert (.readStates c) Q ∪ follow (some l) :=
      Set.union_subset_union_left _ (Set.subset_insert _ Q)
    refine (h.removing (.of_mem (Set.mem_insert _ Q) rfl) (fun b hb => ?_) (fun id hb => ?_)
      fun key hb => ?_).drop hall
    · rcases hcas b hb with rfl | ⟨id, hid, rfl | rfl⟩
      · rfl
      · exact congrArg some hid
      · exact congrArg some hid
    · rcases hcas _ hb with heq | ⟨id', -, heq | heq⟩
      · exact (hall id (Action.dropStates.inj heq)).imp (fun hr hhas => hsub (hr hhas))
          fun hr hhas => hsub (hr hhas)
      · cases heq
      · cases heq
    · rcases hcas _ hb with heq | ⟨id', -, heq | heq⟩ <;> cases heq

theorem keeps_dropStates : Keeps t Q (.dropStates c) := by
  intro h
  refine (h.delist _ (fun id hp => ?_) (fun id hp => ?_) fun id hp => ?_).ends trivial
  · cases hp
  · have hid : id.clientId = c := not_not.mp (of_decide_eq_false hp)
    exact hid ▸ Set.mem_insert _ Q
  · cases hp

theorem keeps_scanOpens : Keeps t Q (.scanOpens c) := by
  intro h
  have h₁ := h.removing_found (t.opensOf c) (fun key => .remove (.opened key))
    (.of_mem (Set.mem_insert _ Q) rfl)
    (fun key hkey => congrArg some (mem_opensOf.mp hkey).2)
    (fun key c' heq => by cases heq) fun key key' heq => by cases heq
  refine h₁.drop fun key hkey hhas => .inr (mem_map.mpr ⟨key, ?_, rfl⟩)
  exact mem_opensOf.mpr ⟨hhas, hkey⟩

theorem keeps_takeDelegations : Keeps t Q (.takeDelegations c) := by
  intro h
  have ha := Set.mem_insert (Action.takeDelegations c) Q
  have htr : Tears (insert (.takeDelegations c) Q) c := .of_mem ha rfl
  have h₁ := h.removing_found (t.byClient c) (fun id => .remove (.delegation id)) (.of_mem ha rfl)
    (fun id hid => congrArg some (mem_byClient.mp hid).2)
    (fun id c' heq => by cases heq) fun id key heq => by cases heq
  have hall : ∀ id : Minted, id.clientId = c → t.has (.delegation id) →
      .remove (.delegation id) ∈
        Q ∪ follow (some ((t.byClient c).map fun id => .remove (.delegation id))) := by
    intro id hid hhas
    rcases h.delegation_listed_or_removed (hid ▸ htr) hhas with hl | hr
    · exact .inr (mem_map.mpr ⟨id, mem_byClient.mpr ⟨hl, hid⟩, rfl⟩)
    · exact .inl (hr.resolve_left fun heq => by cases heq)
  refine (h₁.delist _ (fun id hp => ?_) (fun id hp => ?_) fun id hp hhas => ?_).drop hall
  · cases hp
  · cases hp
  · have hid : id.clientId = c := not_not.mp (of_decide_eq_false hp)
    exact Set.union_subset_union_left _ (Set.subset_insert _ Q) (hall id hid hhas)

/-! ### Locks -/

theorem keeps_scanLocks : Keeps t Q (.scanLocks c) := by
  intro h
  have h₁ := h.removing_found (t.locksOf c) .removeLock (.of_mem (Set.mem_insert _ Q) rfl)
    (fun key hkey => congrArg some (mem_locksOf.mp hkey).2)
    (fun key c' heq => by cases heq) fun key key' heq => by cases heq
  refine h₁.drop fun key hkey hhas => .inr (mem_map.mpr ⟨key, ?_, rfl⟩)
  exact mem_locksOf.mpr ⟨hhas, hkey⟩

theorem keeps_removeLock (key : LockKey) : Keeps t Q (.removeLock key) := by
  intro h
  rw [exec]
  split
  · have h₁ : Inv (t.erase (.lock key)) (insert (.removeLock key) Q) :=
      h.erase (fun _ heq => by cases heq) fun _ heq => by cases heq
    refine (h₁.removing_plain (.of_mem (Set.mem_insert _ Q) rfl) (fun b hb => ?_)
      (fun c' hb => ?_) fun key' hb => ?_).drop (t.has_erase_self _)
    · rw [mem_singleton.mp hb]
      rfl
    · cases mem_singleton.mp hb
    · cases mem_singleton.mp hb
  · next hhas => exact h.ends (eq_false_iff.mpr hhas)

theorem keeps_scanLockOwners : Keeps t Q (.scanLockOwners c) := by
  intro h
  have ha := Set.mem_insert (Action.scanLockOwners c) Q
  rw [exec]
  set l : List Action := (t.lockOwnersOf c).map (fun key => .remove (.lockOwner key)) ++
    (t.lockOwnersOf c).map (fun key => .remove (.lockRow key)) with hl
  have hfnd : ∀ {key : LockKey}, key.client = c → t.has (.lockOwner key) →
      .remove (.lockOwner key) ∈ l ∧ .remove (.lockRow key) ∈ l := by
    intro key hkey hhas
    have hmem := mem_lockOwnersOf.mpr ⟨hhas, hkey⟩
    exact ⟨mem_append_left _ (mem_map.mpr ⟨key, hmem, rfl⟩),
      mem_append_right _ (mem_map.mpr ⟨key, hmem, rfl⟩)⟩
  have hcas : ∀ b ∈ l, ∃ key, key ∈ t.lockOwnersOf c ∧
      (b = .remove (.lockOwner key) ∨ b = .remove (.lockRow key)) := by
    intro b hb
    rcases mem_append.mp hb with hb | hb
    · obtain ⟨key, hkey, rfl⟩ := mem_map.mp hb
      exact ⟨key, hkey, .inl rfl⟩
    · obtain ⟨key, hkey, rfl⟩ := mem_map.mp hb
      exact ⟨key, hkey, .inr rfl⟩
  refine (h.removing (.of_mem ha rfl) (fun b hb => ?_) (fun id hb => ?_) fun key hb _ => ?_).drop
    fun key hkey => ⟨fun hhas => .inr (hfnd hkey hhas).1, fun hhas => ?_⟩
  · obtain ⟨key, hkey, rfl | rfl⟩ := hcas b hb <;>
      exact congrArg some (mem_lockOwnersOf.mp hkey).2
  · obtain ⟨key, -, heq | heq⟩ := hcas _ hb <;> cases heq
  · obtain ⟨key', hkey', heq | heq⟩ := hcas _ hb
    · obtain rfl := Slot.lockOwner.inj (Action.remove.inj heq)
      obtain ⟨hhas, hcl⟩ := mem_lockOwnersOf.mp hkey'
      exact .inr (hfnd hcl hhas).2
    · cases heq
  · -- a row without a registration is being removed by another teardown
    rcases h.owned key (.inl hhas) with ho | ⟨v, hv⟩ | hr
    · exact .inr (hfnd hkey ho).2
    · exact absurd (Tears.of_mem ha rfl) (h.apart c (.of_mem hv (congrArg some hkey)))
    · exact .inl (hr.resolve_left fun heq => by cases heq)

theorem keeps_remove (slot : Slot) : Keeps t Q (.remove slot) := by
  intro h
  have ha := Set.mem_insert (Action.remove slot) Q
  refine (h.erase (fun id heq => ?_) fun key heq => ?_).ends (t.has_erase_self slot)
  · exact .of_mem ha (congrArg some (congrArg Slot.client heq))
  · exact heq ▸ ha

theorem Inv.retires_record (h : Inv t (insert a Q)) (htr : a.tears = some c)
    (hcov : ∀ slot : Slot, slot.client = c → t.has slot → Covered (insert a Q) slot)
    (hsp : ∀ t' Q', Spent t' Q' a) : Inv (t.retire c).1 (Q ∪ follow (some (t.retire c).2)) := by
  unfold Tables.retire
  split
  · have h₁ := h.retire (h.not_serves (.of_mem (Set.mem_insert a Q) htr)) hcov
    have hpair : ({.removeLease c, .deleteClientRow c} : Set Action) =
        follow (some [.removeLease c, .deleteClientRow c]) := by
      ext b
      exact mem_pair.symm
    rw [hpair] at h₁
    exact h₁.drop (hsp _ _)
  · exact h.ends (hsp _ _)

theorem keeps_removeClient : Keeps t Q (.removeClient c) := fun h =>
  h.retires_record rfl (fun _ hsl hhas => h.covered (hsl ▸ .of_mem (Set.mem_insert _ Q) rfl) hhas)
    fun _ _ => trivial

theorem keeps_removeUnused : Keeps t Q (.removeUnused c) := fun h =>
  h.retires_record rfl (h.checked _ (Set.mem_insert _ Q))
    fun _ _ => trivial

theorem keeps_removeLease : Keeps t Q (.removeLease c) := fun h =>
  (h.dropLease (Set.mem_insert _ Q)).ends <|
    eq_false_iff.mpr fun hc => ((t.leases.isSome_erase c c).mp hc).1 rfl

theorem keeps_deleteClientRow : Keeps t Q (.deleteClientRow c) := fun h =>
  (h.dropClientRow (Set.mem_insert _ Q)).ends <|
    eq_false_iff.mpr fun hc => ((t.clientRows.isSome_erase c c).mp hc).1 rfl

/-! ### DESTROY_CLIENTID -/

theorem Inv.counts {b : Action} (h : Inv t (insert a Q)) (ha : a.tears = some c)
    (hsp : ∀ t' Q', Spent t' Q' a) (hb : b.tears = some c) (hrets : b.retires = none)
    (hls : ∀ c', b ≠ .removeLease c') (hrow : ∀ c', b ≠ .deleteClientRow c')
    (hchk : ∀ slot, b.Checked slot → t.has slot → Covered (insert a Q) slot) :
    Inv t (Q ∪ follow (some [b])) := by
  have hmem : ∀ b' ∈ follow (some [b]), b' = b := fun b' hb' => mem_singleton.mp hb'
  have hsrv := h.not_serves (.of_mem (Set.mem_insert a Q) ha)
  refine (h.tear (fun b' hb' => ⟨c, hmem b' hb' ▸ hb, hsrv⟩) (fun slot _ hr => ?_)
    (fun b' hb' slot hc hhas => ?_) (fun c' hc' => ?_) (fun id hb' => ?_)
    fun key hb' => ?_).drop (hsp _ _)
  · obtain ⟨b', hb', hr⟩ := hr
    rw [hmem b' hb', hrets] at hr
    cases hr
  · rw [hmem b' hb'] at hc
    exact (hchk slot hc hhas).mono Set.subset_union_left
  · rcases hc' with hc' | hc'
    · exact absurd (hmem _ hc').symm (hls c')
    · exact absurd (hmem _ hc').symm (hrow c')
  · rw [← hmem _ hb'] at hrets
    cases hrets
  · rw [← hmem _ hb'] at hrets
    cases hrets

theorem keeps_countSessions : Keeps t Q (.countSessions c) := by
  intro h
  have htr : Tears (insert (.countSessions c) Q) c := .of_mem (Set.mem_insert _ Q) rfl
  rw [exec]
  split
  · next hemp =>
    refine h.counts rfl (fun _ _ => trivial) rfl rfl (by simp) (by simp) fun slot hsl hhas => ?_
    obtain ⟨hcl, id, rfl⟩ := hsl
    have hlis := h.session_listed (hcl ▸ htr) hhas
    have hid := mem_clientSessions.mpr ⟨hlis, hcl⟩
    exact absurd (isEmpty_iff.mp hemp ▸ hid) not_mem_nil
  · exact h.ends trivial

theorem Inv.onState_covered (h : Inv t P) {slot : Slot} (hsl : slot.OnState)
    (hrw : ∀ id : Minted, id.clientId = slot.client → t.has (.stateRow id) →
      Covered P (.stateRow id)) (hhas : t.has slot) : Covered P slot := by
  rcases h.backed slot hsl (.inl hhas) with ⟨id, hid, hrow⟩ | hr
  · have hr : Retires P id.clientId := (hrw id hid hrow).retires
    exact h.covered (hid ▸ hr) hhas
  · exact h.covered hr hhas

theorem keeps_countStates : Keeps t Q (.countStates c) := by
  intro h
  have ha := Set.mem_insert (Action.countStates c) Q
  have htr : Tears (insert (.countStates c) Q) c := .of_mem ha rfl
  rw [exec]
  split
  · next hemp =>
    have hno : ∀ id : Minted, id.clientId = c → .state id ∉ t.listed := fun id hid hl =>
      not_mem_nil (isEmpty_iff.mp hemp ▸ mem_clientStates.mpr ⟨hl, hid⟩)
    have hrw : ∀ id : Minted, id.clientId = c → t.has (.stateRow id) →
        Covered (insert (.countStates c) Q) (.stateRow id) := fun id hid hhas =>
      .inr ((h.stateRow_listed_or_removed (hid ▸ htr) hhas).resolve_left (hno id hid))
    refine h.counts rfl (fun _ _ => trivial) rfl rfl (by simp) (by simp) fun slot hsl hhas => ?_
    obtain ⟨rfl, hdel⟩ := hsl
    cases slot with
    | session id => exact h.checked _ ha (.session id) ⟨rfl, id, rfl⟩ hhas
    | state id => exact .inr ((h.state_listed_or_removed htr hhas).resolve_left (hno id rfl))
    | stateRow id => exact hrw id rfl hhas
    | delegation id => exact absurd rfl (hdel id)
    | opened key | lock key | lockOwner key | lockRow key =>
      exact h.onState_covered trivial hrw hhas
  · exact h.ends trivial

theorem keeps_countLocks : Keeps t Q (.countLocks c) := by
  intro h
  rw [exec]
  split
  · exact h.counts rfl (fun _ _ => trivial) rfl rfl (by simp) (by simp)
      fun slot hsl hhas => h.checked _ (Set.mem_insert _ Q) slot hsl hhas
  · exact h.ends trivial

theorem keeps_countDelegations : Keeps t Q (.countDelegations c) := by
  intro h
  have ha := Set.mem_insert (Action.countDelegations c) Q
  have htr : Tears (insert (.countDelegations c) Q) c := .of_mem ha rfl
  rw [exec]
  split
  · next hemp =>
    refine h.counts rfl (fun _ _ => trivial) rfl rfl (by simp) (by simp) fun slot hsl hhas => ?_
    by_cases hdel : ∃ id, slot = .delegation id
    · obtain ⟨id, rfl⟩ := hdel
      refine .inr ((h.delegation_listed_or_removed (hsl ▸ htr) hhas).resolve_left
        fun hl => ?_)
      exact not_mem_nil (isEmpty_iff.mp hemp ▸ mem_byClient.mpr ⟨hl, hsl⟩)
    · exact h.checked _ ha slot ⟨hsl, fun id heq => hdel ⟨id, heq⟩⟩ hhas
  · exact h.ends trivial

end Retiring

end Flint.Teardown
