import Flint.Delegation.Manager

/-!
# What a call does to the records of a file

`view` is the entry that the map has for a file. Under `Linked` every call is known by the view it
leaves: a grant adds a granted record to a file without guards and without recalls, the fence adds a
guard and leaves no record granted, a dropped guard takes one away, and everything else only lets
records go or takes them further on their way from the recall to the tombstone (`Settling`).
-/

namespace Flint.Delegation

open Function List Option Bool Dict

open StateIds (StateId Other Bytes)

def FenceOutcome.Proceeds : FenceOutcome → Prop
  | .clear _ => True
  | .conflict _ _ expired delay => expired = [] ∧ delay = false

namespace DelegationManager

def view (m : DelegationManager) (ident : FileId) : FileEntry :=
  ((m.files.get? ident).bind m.entries.get?).getD .new

def recordsOn (m : DelegationManager) (ident : FileId) : List DelegRecord := (m.view ident).records

structure Linked (m : DelegationManager) : Prop where
  alive : ∀ {ident i}, m.files.get? ident = some i → ∃ e, m.entries.get? i = some e ∧ e.dead = false
  single : ∀ {a b i}, m.files.get? a = some i → m.files.get? b = some i → a = b
  /-- A reference is made from a counter that is above all of them. -/
  below : ∀ {i e}, m.entries.get? i = some e → i < m.nextEntry

structure Follows (m m' : DelegationManager) (view : FileId → FileEntry) : Prop where
  linked : m'.Linked
  view : m'.view = view
  arcs : ∀ {ident i}, m.files.get? ident = some i → 0 < (m'.view ident).liveGuards →
    m'.files.get? ident = some i

theorem linked_withLimits (maxPerClient maxGlobal : UInt64) (cooldown : ℕ) :
    (withLimits maxPerClient maxGlobal cooldown).Linked where
  alive h := by cases h
  single h := by cases h
  below h := by cases h

variable {m : DelegationManager} {ident : FileId} {i : ℕ} {e : FileEntry}

@[local grind =] theorem view_eq (m : DelegationManager) (ident : FileId) : m.view ident =
    match m.files.get? ident with
    | some i => (m.entries.get? i).getD .new
    | none => .new := by
  cases h : m.files.get? ident <;> simp [view, h]

theorem view_of_get (hi : m.files.get? ident = some i) (he : m.entries.get? i = some e) :
    m.view ident = e := by
  simp [view, hi, he]

theorem view_of_none (h : m.files.get? ident = none) : m.view ident = .new := by
  simp [view, h]

theorem Linked.get_view (h : m.Linked) (hi : m.files.get? ident = some i) :
    m.entries.get? i = some (m.view ident) := by
  obtain ⟨e, he, -⟩ := h.alive hi
  rw [view_of_get hi he, he]

theorem Linked.view_alive (h : m.Linked) (ident : FileId) : (m.view ident).dead = false := by
  cases hi : m.files.get? ident with
  | none => rw [view_of_none hi]; rfl
  | some i =>
    obtain ⟨e, he, hdd⟩ := h.alive hi
    rw [view_of_get hi he, hdd]

/-! ### Access to an entry -/

@[local grind =] theorem new_dead : FileEntry.new.dead = false := rfl

@[local grind =] theorem new_liveGuards : FileEntry.new.liveGuards = 0 := rfl

attribute [local grind =] get?_insert get?_erase

attribute [local grind] store addEntry

theorem Linked.store (h : m.Linked) (hi : m.files.get? ident = some i) (hdd : e.dead = false) :
    Follows m (m.store i e) (update m.view ident e) := by
  obtain ⟨alive, single, below⟩ := h
  refine ⟨⟨?_, single, ?_⟩, ?_, fun hj _ => hj⟩
  · grind
  · grind
  · funext a
    rw [update_apply]
    grind

theorem Linked.addEntry (h : m.Linked) (ident : FileId) : (m.addEntry ident).Linked := by
  have hsf : (m.addEntry ident).entries.get? m.nextEntry = some .new :=
    get?_insert_self _ _ _
  obtain ⟨alive, single, below⟩ := h
  constructor <;> grind

theorem Linked.view_addEntry (h : m.Linked) (hi : m.files.get? ident = none) :
    (m.addEntry ident).view = m.view := by
  funext a
  obtain ⟨alive, single, below⟩ := h
  grind

structure Fetched (m : DelegationManager) (ident : FileId) (i : ℕ) (m' : DelegationManager) :
    Prop where
  linked : m'.Linked
  view : m'.view = m.view
  entry : m'.files.get? ident = some i
  arcs : ∀ {a j}, m.files.get? a = some j → m'.files.get? a = some j

variable {m' : DelegationManager}

theorem Fetched.store (h : Fetched m ident i m') (e : FileEntry) (hdd : e.dead = false) :
    Follows m (m'.store i e) (update m.view ident e) := by
  have hsto := h.linked.store h.entry hdd
  exact ⟨hsto.linked, h.view ▸ hsto.view, fun hj _ => h.arcs hj⟩

theorem Fetched.store_store (h : Fetched m ident i m') (e₁ e : FileEntry) (hdd₁ : e₁.dead = false)
    (hdd : e.dead = false) :
    Follows m ((m'.store i e₁).store i e) (update m.view ident e) := by
  have hfst := h.store e₁ hdd₁
  have hsec := hfst.linked.store h.entry hdd
  refine ⟨hsec.linked, ?_, fun hj _ => h.arcs hj⟩
  rw [hsec.view, hfst.view, update_idem]

theorem Linked.withLiveEntry (h : m.Linked) (ident : FileId) :
    ∃ i m', m.withLiveEntry ident = some (i, m.view ident, m') ∧ Fetched m ident i m' := by
  cases hi : m.files.get? ident with
  | some i =>
    refine ⟨i, m, ?_, ⟨h, rfl, hi, fun hj => hj⟩⟩
    simp [DelegationManager.withLiveEntry, entry, hi, h.get_view hi, h.view_alive]
  | none =>
    have hget : (m.addEntry ident).files.get? ident = some m.nextEntry :=
      get?_insert_self _ _ _
    have hlnk := h.addEntry ident
    have hvw := h.view_addEntry hi
    refine ⟨m.nextEntry, m.addEntry ident, ?_, ⟨hlnk, hvw, hget, ?_⟩⟩
    · simp [DelegationManager.withLiveEntry, entry, hi, hlnk.get_view hget, hvw, h.view_alive]
    · intro a j hj
      have ha : a ≠ ident := by
        rintro rfl
        rw [hi] at hj
        cases hj
      exact (get?_insert_of_ne _ _ ha).trans hj

theorem eq_new_of_isEmpty (hemp : e.isEmpty) (hdd : e.dead = false) : e = .new := by
  obtain ⟨records, liveGuards, cooldownUntil, dead⟩ := e
  simp only [FileEntry.isEmpty, and_eq_true, List.isEmpty_iff, beq_iff_eq,
    isNone_iff_eq_none] at hemp
  obtain ⟨⟨rfl, rfl⟩, rfl⟩ := hemp
  exact congrArg (FileEntry.mk [] 0 none) hdd

theorem Linked.gcMapEntry (h : m.Linked) (ident : FileId) :
    Follows m (m.gcMapEntry ident) m.view := by
  have hsm : Follows m m m.view := ⟨h, rfl, fun hi _ => hi⟩
  unfold DelegationManager.gcMapEntry
  cases hi : m.files.get? ident with
  | none => exact hsm
  | some i =>
    have he := h.get_view hi
    simp only [he]
    split
    · next hemp =>
      have hnew := eq_new_of_isEmpty hemp (h.view_alive ident)
      obtain ⟨alive, single, below⟩ := h
      generalize m.view ident = e at *
      subst hnew
      refine ⟨⟨?_, ?_, ?_⟩, ?_, ?_⟩
      · grind
      · grind
      · grind
      · funext a
        grind
      · grind
    · exact hsm

theorem Follows.trans {m₁ m₂ : DelegationManager} {v₁ v₂ : FileId → FileEntry}
    (h₁ : Follows m m₁ v₁) (h₂ : Follows m₁ m₂ v₂)
    (hgds : ∀ a, 0 < (v₂ a).liveGuards → 0 < (v₁ a).liveGuards) : Follows m m₂ v₂ where
  linked := h₂.linked
  view := h₂.view
  arcs hi hpos := h₂.arcs (h₁.arcs hi (h₁.view ▸ hgds _ (h₂.view ▸ hpos))) hpos

theorem Follows.gcMapEntry {v : FileId → FileEntry} (h : Follows m m' v) (ident : FileId) :
    Follows m (m'.gcMapEntry ident) v :=
  h.trans (h.view ▸ h.linked.gcMapEntry ident) fun _ hpos => hpos

theorem Follows.congr {m₁ m₂ : DelegationManager} {v : FileId → FileEntry} (h : Follows m m₁ v)
    (hfiles : m₂.files = m₁.files) (hents : m₂.entries = m₁.entries)
    (hnx : m₂.nextEntry = m₁.nextEntry) : Follows m m₂ v := by
  have hvw : m₂.view = m₁.view := by
    funext a
    simp [DelegationManager.view, hfiles, hents]
  obtain ⟨⟨alive, single, below⟩, hv, arcs⟩ := h
  refine ⟨⟨?_, ?_, ?_⟩, hvw.trans hv, ?_⟩
  · grind
  · grind
  · grind
  · rw [hfiles, hvw]
    exact arcs

/-! ### Calls that let records go -/

inductive Settled (r : DelegRecord) : DelegRecord → Prop
  | same : Settled r r
  | acked (h : r.state = .recallPending) : Settled r { r with state := .recallAcked }
  | revoked (h : r.state = .recallPending ∨ r.state = .recallAcked) :
      Settled r { r with state := .revoked }

variable {r : DelegRecord}

theorem Settled.trans {r₁ r₂ : DelegRecord} (h₁ : Settled r r₁) (h₂ : Settled r₁ r₂) :
    Settled r r₂ := by
  cases h₁ with
  | same => exact h₂
  | acked h =>
    cases h₂ with
    | same => exact .acked h
    | acked h' => cases h'
    | revoked => exact .revoked (.inl h)
  | revoked h =>
    cases h₂ with
    | same => exact .revoked h
    | acked h' => cases h'
    | revoked h' => exact h'.elim nofun nofun

variable {r' : DelegRecord}

theorem Settled.clientId (h : Settled r r') : r'.clientId = r.clientId := by
  cases h <;> rfl

theorem Settled.of_granted (h : Settled r r') (hr : r'.state = .granted) : r.state = .granted := by
  cases h with
  | same => exact hr
  | acked | revoked => cases hr

theorem Settled.of_revoked (h : Settled r r') (hr : r.state = .revoked) : r'.state = .revoked := by
  cases h with
  | same => exact hr
  | acked h => exact absurd (hr.symm.trans h) (by decide)
  | revoked => rfl

structure Settles (e e' : FileEntry) : Prop where
  guards : e'.liveGuards = e.liveGuards
  dead : e'.dead = e.dead
  records : ∀ r' ∈ e'.records, ∃ r ∈ e.records, Settled r r'

namespace Settles

theorem refl (e : FileEntry) : Settles e e := ⟨rfl, rfl, fun r hr => ⟨r, hr, .same⟩⟩

theorem trans {e e₁ e₂ : FileEntry} (h₁ : Settles e e₁) (h₂ : Settles e₁ e₂) : Settles e e₂ where
  guards := h₂.guards.trans h₁.guards
  dead := h₂.dead.trans h₁.dead
  records r₂ hr₂ := by
    obtain ⟨r₁, hr₁, h₁₂⟩ := h₂.records r₂ hr₂
    obtain ⟨r, hr, h₀₁⟩ := h₁.records r₁ hr₁
    exact ⟨r, hr, h₀₁.trans h₁₂⟩

theorem eraseP (e : FileEntry) (p : DelegRecord → Bool) :
    Settles e { e with records := e.records.eraseP p } :=
  ⟨rfl, rfl, fun r hr => ⟨r, mem_of_mem_eraseP hr, .same⟩⟩

theorem startCooldown (m : DelegationManager) (e : FileEntry) (now : ℕ) :
    Settles e (m.startCooldown e now) := by
  unfold DelegationManager.startCooldown
  split
  · exact .refl e
  · exact ⟨rfl, rfl, fun r hr => ⟨r, hr, .same⟩⟩

theorem modifyFirst (e : FileEntry) {other : Other} {f : DelegRecord → DelegRecord}
    (hf : ∀ r, e.records.find? (·.stateid.other = other) = some r → Settled r (f r)) :
    Settles e { e with records := modifyFirst other f e.records } := by
  refine ⟨rfl, rfl, ?_⟩
  change ∀ r' ∈ DelegationManager.modifyFirst other f e.records, _
  generalize e.records = records at hf
  induction records with
  | nil =>
    intro r' hr'
    cases hr'
  | cons r records ih =>
    intro r' hr'
    unfold DelegationManager.modifyFirst at hr'
    split at hr'
    · next hoth =>
      rcases mem_cons.mp hr' with rfl | hr'
      · exact ⟨r, .head _, hf r (by simp [hoth])⟩
      · exact ⟨r', .tail r hr', .same⟩
    · next hoth =>
      rcases mem_cons.mp hr' with rfl | hr'
      · exact ⟨r', .head _, .same⟩
      · obtain ⟨r₀, hr₀, hset⟩ := ih (fun r₀ hr₀ => hf r₀ (by simpa [hoth] using hr₀)) r' hr'
        exact ⟨r₀, .tail r hr₀, hset⟩

end Settles

structure Settling (m m' : DelegationManager) : Prop where
  linked : m'.Linked
  settles : ∀ ident, Settles (m.view ident) (m'.view ident)
  arcs : ∀ {ident i}, m.files.get? ident = some i → 0 < (m.view ident).liveGuards →
    m'.files.get? ident = some i

theorem Linked.settling_refl (h : m.Linked) : Settling m m := ⟨h, fun _ => .refl _, fun hi _ => hi⟩

theorem Linked.settling_store (h : m.Linked) (hi : m.files.get? ident = some i)
    (he : Settles (m.view ident) e) : Settling m (m.store i e) := by
  have hfol := h.store hi (he.dead.trans (h.view_alive ident))
  refine ⟨hfol.linked, fun a => ?_, fun hj _ => hj⟩
  rw [hfol.view]
  by_cases ha : a = ident
  · subst ha
    rwa [update_self]
  · rw [update_of_ne ha]
    exact .refl _

namespace Settling

variable {m₁ m₂ : DelegationManager}

theorem trans (h₁ : Settling m m₁) (h₂ : Settling m₁ m₂) : Settling m m₂ where
  linked := h₂.linked
  settles ident := (h₁.settles ident).trans (h₂.settles ident)
  arcs hi hpos := h₂.arcs (h₁.arcs hi hpos) ((h₁.settles _).guards.symm ▸ hpos)

theorem follow (h₁ : Settling m m₁) (h₂ : Follows m₁ m₂ m₁.view) : Settling m m₂ :=
  h₁.trans ⟨h₂.linked, fun _ => h₂.view ▸ .refl _, fun hi hpos => h₂.arcs hi (h₂.view ▸ hpos)⟩

theorem congr (h : Settling m m₁) (hfiles : m₂.files = m₁.files) (hents : m₂.entries = m₁.entries)
    (hnx : m₂.nextEntry = m₁.nextEntry) : Settling m m₂ :=
  h.follow (Follows.congr ⟨h.linked, rfl, fun hi _ => hi⟩ hfiles hents hnx)

theorem gcMapEntry (h : Settling m m₁) (ident : FileId) : Settling m (m₁.gcMapEntry ident) :=
  h.follow (h.linked.gcMapEntry ident)

theorem unindex (h : Settling m m₁) (r : DelegRecord) : Settling m (m₁.unindex r) := by
  unfold DelegationManager.unindex
  dsimp only
  apply gcMapEntry
  split
  · exact h.congr rfl rfl rfl
  · exact h.congr rfl rfl rfl

end Settling

theorem find_cases (m : DelegationManager) (other : Other) :
    m.find other = none ∨ ∃ ident i, m.find other = some (ident, i, m.view ident) ∧
      m.files.get? ident = some i := by
  cases hfd : m.find other with
  | none => exact .inl rfl
  | some found =>
    obtain ⟨ident, i, e⟩ := found
    simp only [find, bind_eq_bind, bind_eq_some_iff, Option.pure_def,
      some.injEq, Prod.mk.injEq] at hfd
    obtain ⟨ident', -, i', hi, e', he, rfl, rfl, rfl⟩ := hfd
    exact .inr ⟨ident', i', by rw [view_of_get hi he], hi⟩

variable (h : m.Linked) (stateid : StateId)

include h

theorem noteRecallAcked_settling : Settling m (m.noteRecallAcked stateid) := by
  unfold noteRecallAcked
  rcases m.find_cases stateid.other with hfd | ⟨ident, i, hfd, hi⟩
  · rw [hfd]
    exact h.settling_refl
  rw [hfd]
  refine h.settling_store hi (.modifyFirst _ fun r _ => ?_)
  split
  · next hr => exact .acked hr
  · exact .same

theorem returnDelegation_settling (now : ℕ) : Settling m (m.returnDelegation stateid now).2 := by
  unfold returnDelegation
  rcases m.find_cases stateid.other with hfd | ⟨ident, i, hfd, hi⟩
  · rw [hfd]
    exact h.settling_refl
  rw [hfd]
  dsimp only
  cases hr : (m.view ident).records.find? (·.stateid.other = stateid.other) with
  | none => exact h.settling_refl
  | some r =>
    dsimp only
    split
    · exact h.settling_refl
    split
    · exact h.settling_refl
    -- a record that was under recall also starts the cooldown
    split
    · exact (h.settling_store hi (.eraseP _ _)).unindex r
    · exact (h.settling_store hi ((Settles.eraseP _ _).trans (.startCooldown m _ now))).unindex r

theorem revoke_settling (now : ℕ) : Settling m (m.revoke stateid now).2 := by
  unfold revoke
  rcases m.find_cases stateid.other with hfd | ⟨ident, i, hfd, hi⟩
  · rw [hfd]
    exact h.settling_refl
  rw [hfd]
  dsimp only
  cases hr : (m.view ident).records.find? (·.stateid.other = stateid.other) with
  | none => exact h.settling_refl
  | some r =>
    dsimp only
    split
    · exact h.settling_refl
    · next hstt =>
      -- only a record under recall is left
      have hrecall : r.state = .recallPending ∨ r.state = .recallAcked := by
        cases hs : r.state <;> simp_all
      refine (h.settling_store hi (.trans (.modifyFirst _ fun r' hr' => ?_)
        (.startCooldown m _ now))).congr rfl rfl rfl
      obtain rfl := mem_unique hr hr'
      exact .revoked hrecall

theorem resolveDisown_settling (now : ℕ) : Settling m (m.resolveDisown stateid now).2 := by
  unfold resolveDisown
  rcases m.find_cases stateid.other with hfd | ⟨ident, i, hfd, hi⟩
  · rw [hfd]
    exact h.settling_refl
  rw [hfd]
  dsimp only
  cases hr : (m.view ident).records.find? (isOf stateid.other [.recallPending, .recallAcked]) with
  | none => exact h.settling_refl
  | some r =>
    exact (h.settling_store hi ((Settles.eraseP _ _).trans (.startCooldown m _ now))).unindex r

theorem freeRevoked_settling : Settling m (m.freeRevoked stateid).2 := by
  unfold freeRevoked
  rcases m.find_cases stateid.other with hfd | ⟨ident, i, hfd, hi⟩
  · rw [hfd]
    exact h.settling_refl
  rw [hfd]
  dsimp only
  cases hr : (m.view ident).records.find? (isOf stateid.other [.revoked]) with
  | none => exact h.settling_refl
  | some r =>
    have hsto := h.settling_store hi (.eraseP _ (isOf stateid.other [.revoked]))
    apply Settling.gcMapEntry
    exact hsto.congr rfl rfl rfl

theorem cleanupOne_settling (freed : List StateId) (other : Other) :
    Settling m (cleanupOne (freed, m) other).2 := by
  unfold cleanupOne
  dsimp only
  cases hid : m.byStateid.get? other with
  | none => exact h.settling_refl
  | some ident =>
    have hout : Settling m { m with byStateid := m.byStateid.erase other } :=
      h.settling_refl.congr rfl rfl rfl
    dsimp only
    cases hi : m.files.get? ident with
    | none => exact hout
    | some i =>
      dsimp only
      rw [h.get_view hi]
      dsimp only
      cases hr : (m.view ident).records.find? (·.stateid.other = other) with
      | none => exact hout.gcMapEntry ident
      | some r =>
        have hsto := h.settling_store hi (.eraseP _ (·.stateid.other = other))
        dsimp only
        apply Settling.gcMapEntry
        split
        · exact hsto.congr rfl rfl rfl
        · exact hsto.congr rfl rfl rfl

omit h in
theorem foldl_cleanupOne_settling (others : List Other) (h : m.Linked) (freed : List StateId) :
    Settling m (others.foldl cleanupOne (freed, m)).2 := by
  induction others generalizing m freed with
  | nil => exact h.settling_refl
  | cons other others ih =>
    have hone := cleanupOne_settling h freed other
    exact hone.trans (ih hone.linked _)

theorem cleanupClientDelegations_settling (clientId : UInt64) :
    Settling m (m.cleanupClientDelegations clientId).2 := by
  unfold cleanupClientDelegations
  cases hoths : m.byClient.get? clientId with
  | none => exact h.settling_refl
  | some others =>
    have hout : Settling m { m with byClient := m.byClient.erase clientId } :=
      h.settling_refl.congr rfl rfl rfl
    have hloop := hout.trans (foldl_cleanupOne_settling others hout.linked [])
    exact hloop.congr rfl rfl rfl

/-! ### Grants -/

theorem tryGrant_refused {clientId : UInt64} {fh : Bytes} {precheck : Bool} {mint : StateId}
    {now : ℕ} {refusal : GrantRefusal}
    (hgr : m.tryGrant ident clientId fh precheck mint now = some (.error refusal, m')) :
    Settling m m' := by
  obtain ⟨i, m₁, hent, hm₁⟩ := h.withLiveEntry ident
  have hfetch : Settling m m₁ :=
    ⟨hm₁.linked, fun _ => hm₁.view ▸ .refl _, fun hj _ => hm₁.arcs hj⟩
  have hsto : Settling m (m₁.store i { m.view ident with cooldownUntil := none }) := by
    refine hfetch.trans (hm₁.linked.settling_store hm₁.entry ?_)
    rw [hm₁.view]
    exact ⟨rfl, rfl, fun r hr => ⟨r, hr, .same⟩⟩
  simp only [tryGrant, hent, bind_eq_bind, bind_some, Option.pure_def] at hgr
  -- the checks before the cooldown is cleared, and those after it
  grind

theorem tryGrant_granted {clientId : UInt64} {fh : Bytes} {precheck : Bool} {mint stateid : StateId}
    {now : ℕ} (hgr : m.tryGrant ident clientId fh precheck mint now = some (.ok stateid, m')) :
    (m.view ident).liveGuards = 0 ∧ (∀ r ∈ m.recordsOn ident, r.state = .granted) ∧
      ∃ e, Follows m m' (update m.view ident e) ∧ e.liveGuards = 0 ∧
        ∀ r ∈ e.records, r.state = .granted := by
  obtain ⟨i, m₁, hent, hm₁⟩ := h.withLiveEntry ident
  simp only [tryGrant, hent, bind_eq_bind, bind_some, Option.pure_def] at hgr
  split at hgr
  · cases hgr
  next hgds =>
  split at hgr
  · cases hgr
  next hbarrier =>
  have hz : (m.view ident).liveGuards = 0 := Nat.eq_zero_of_not_pos hgds
  have hall : ∀ r ∈ m.recordsOn ident, r.state = .granted := by
    intro r hr
    by_contra hne
    exact hbarrier (any_eq_true.mpr ⟨r, hr, by simpa using hne⟩)
  refine ⟨hz, hall, ?_⟩
  -- none of the other checks stops a grant that succeeds
  split at hgr
  · cases hgr
  split at hgr
  · cases hgr
  split at hgr
  · cases hgr
  split at hgr
  · cases hgr
  split at hgr
  · cases hgr
  · cases hgr
    have hdd := h.view_alive ident
    have hsto := hm₁.store_store { m.view ident with cooldownUntil := none }
      { m.view ident with
        cooldownUntil := none
        records := (m.view ident).records ++ [⟨mint, clientId, fh, ident, .granted, false⟩] }
      hdd hdd
    refine ⟨_, hsto.congr rfl rfl rfl, hz, ?_⟩
    · intro r hr
      rcases mem_append.mp hr with hr | hr
      · exact hall r hr
      · rw [mem_singleton.mp hr]

omit h

/-! ### The fence -/

inductive Recalled (truncate : Bool) (r : DelegRecord) : DelegRecord → Prop
  | kept (h : r.state ≠ .granted) : Recalled truncate r r
  | recalled (h : r.state = .granted) :
      Recalled truncate r { r with state := .recallPending, truncate }

structure Consulted (mutator : Option UInt64) (truncate : Bool) (records : List DelegRecord)
    (c : Consult) : Prop where
  recalled : ∀ r' ∈ c.records, ∃ r ∈ records, Recalled truncate r r'
  /-- A consult that found nothing foreign to wait for or to revoke has only tombstones of others.
  -/
  exclusive : c.foreignLive = false → c.expired = [] →
    ∀ r ∈ c.records, some r.clientId ≠ mutator → r.state = .revoked

section Fence

variable {mutator : Option UInt64} {truncate : Bool} {records : List DelegRecord}

theorem Consulted.snoc {c c' : Consult} (h : Consulted mutator truncate records c)
    (hrecords : c'.records = c.records ++ [r']) (hr : Recalled truncate r r')
    (hfor : c'.foreignLive = false → c.foreignLive = false)
    (hexp : c'.expired = [] → c.expired = [])
    (hla : c'.foreignLive = false → c'.expired = [] → some r'.clientId ≠ mutator →
      r'.state = .revoked) : Consulted mutator truncate (records ++ [r]) c' := by
  cases h
  constructor <;> grind

theorem Consulted.consultRecord {c : Consult} (h : Consulted mutator truncate records c)
    (holderLeaseExpired : UInt64 → Bool) (r : DelegRecord) :
    Consulted mutator truncate (records ++ [r])
      (consultRecord mutator truncate holderLeaseExpired c r) := by
  unfold DelegationManager.consultRecord
  cases hs : r.state with
  | revoked => exact h.snoc rfl (.kept (by simp [hs])) id id fun _ _ _ => hs
  | recallPending | recallAcked =>
    refine h.snoc rfl (.kept (by simp [hs])) (fun hf => (or_eq_false_iff.mp hf).1) id ?_
    intro hf _ hoth
    exact absurd (or_eq_false_iff.mp hf).2 (by simpa using hoth)
  | granted =>
    dsimp only
    split
    · refine h.snoc rfl (.recalled hs) id (fun he => (append_eq_nil_iff.mp he).1) ?_
      exact fun _ he => absurd (append_eq_nil_iff.mp he).2 (cons_ne_nil _ _)
    · refine h.snoc rfl (.recalled hs) (fun hf => (or_eq_false_iff.mp hf).1) id ?_
      intro hf _ hoth
      exact absurd (or_eq_false_iff.mp hf).2 (by simpa using hoth)

theorem consulted (mutator : Option UInt64) (truncate : Bool) (holderLeaseExpired : UInt64 → Bool)
    (records : List DelegRecord) :
    Consulted mutator truncate records (consult mutator truncate holderLeaseExpired records) := by
  induction records using reverseRecOn with
  | nil => exact ⟨fun r hr => absurd hr not_mem_nil, fun _ _ r hr => absurd hr not_mem_nil⟩
  | append_singleton records r ih =>
    unfold consult at ih ⊢
    rw [foldl_append]
    exact ih.consultRecord holderLeaseExpired r

/-- What a consult of the fence leaves: one guard more, and the records as recalled. -/
structure Fenced (m : DelegationManager) (ident : FileId) (mutator : Option UInt64)
    (truncate : Bool) (outcome : FenceOutcome) (m' : DelegationManager) : Prop where
  linked : m'.Linked
  others : ∀ a, a ≠ ident → m'.view a = m.view a
  arcs : ∀ {a j}, m.files.get? a = some j → m'.files.get? a = some j
  entry : m'.files.get? ident = some outcome.guard.entry
  guards : (m'.view ident).liveGuards = (m.view ident).liveGuards + 1
  recalled : ∀ r' ∈ m'.recordsOn ident, ∃ r ∈ m.recordsOn ident, Recalled truncate r r'
  guard_ident : outcome.guard.ident = ident
  guard_mutator : outcome.guard.mutator = mutator
  armed : outcome.guard.checked ↔ outcome.Proceeds
  exclusive : outcome.Proceeds →
    ∀ r ∈ m'.recordsOn ident, some r.clientId ≠ mutator → r.state = .revoked

theorem Fetched.fenced {m₁ : DelegationManager} (h : m.Linked) (hm₁ : Fetched m ident i m₁)
    {outcome : FenceOutcome} {checked : Bool}
    (hrcl : ∀ r' ∈ records, ∃ r ∈ m.recordsOn ident, Recalled truncate r r')
    (hgd : outcome.guard = ⟨i, ident, mutator, checked⟩) (harmed : checked ↔ outcome.Proceeds)
    (hexcl : outcome.Proceeds → ∀ r ∈ records, some r.clientId ≠ mutator → r.state = .revoked) :
    Fenced m ident mutator truncate outcome (m₁.store i { m.view ident with
      liveGuards := (m.view ident).liveGuards + 1
      records := records }) := by
  have hsto := hm₁.store { m.view ident with
    liveGuards := (m.view ident).liveGuards + 1
    records := records } (h.view_alive ident)
  have hvw := congrFun hsto.view ident
  rw [update_self] at hvw
  refine ⟨hsto.linked, ?_, hm₁.arcs, ?_, ?_, ?_, ?_, ?_, ?_, ?_⟩
  · intro a ha
    rw [hsto.view, update_of_ne ha]
  · rw [hgd]
    exact hm₁.entry
  · rw [hvw]
  · unfold recordsOn at hrcl ⊢
    rwa [hvw]
  · rw [hgd]
  · rw [hgd]
  · rwa [hgd]
  · unfold recordsOn
    rwa [hvw]

theorem mutationFence_spec (h : m.Linked) (mutator : Option UInt64) (truncate : Bool)
    (holderLeaseExpired : UInt64 → Bool) (ident : FileId) :
    ∃ outcome m', m.mutationFence mutator truncate holderLeaseExpired ident = some (outcome, m') ∧
      Fenced m ident mutator truncate outcome m' := by
  obtain ⟨i, m₁, hent, hm₁⟩ := h.withLiveEntry ident
  have hc := consulted mutator truncate holderLeaseExpired (m.view ident).records
  simp only [mutationFence, hent, bind_eq_bind, bind_some, Option.pure_def]
  split
  · next hemp =>
    -- no records: the entry keeps its list, which is empty
    have hnil : (m.view ident).records = [] := List.isEmpty_iff.mp hemp
    refine ⟨_, _, rfl, hm₁.fenced h ?_ rfl ⟨fun _ => trivial, fun _ => rfl⟩ ?_⟩
    · intro r hr
      rw [hnil] at hr
      cases hr
    · intro _ r hr
      rw [hnil] at hr
      cases hr
  split
  · next hclr =>
    simp only [and_eq_true, List.isEmpty_iff, not_eq_true'] at hclr
    exact ⟨_, _, rfl, hm₁.fenced h hc.recalled rfl ⟨fun _ => trivial, fun _ => rfl⟩
      fun _ => hc.exclusive hclr.2 hclr.1.2⟩
  · refine ⟨_, _, rfl, hm₁.fenced h hc.recalled rfl ?_ fun hproc => hc.exclusive hproc.2 hproc.1⟩
    rw [and_eq_true, List.isEmpty_iff, not_eq_true']
    exact and_comm

theorem dropGuard_spec (h : m.Linked) {g : MutationGuard}
    (hg : m.files.get? g.ident = some g.entry) :
    Follows m (m.dropGuard g).2 (update m.view g.ident
      { m.view g.ident with liveGuards := (m.view g.ident).liveGuards - 1 }) := by
  have hsto := h.store (e := { m.view g.ident with
    liveGuards := (m.view g.ident).liveGuards - 1 }) hg (h.view_alive g.ident)
  have hmodify : m.entries.modify g.entry (fun e => { e with liveGuards := e.liveGuards - 1 }) =
      m.entries.insert g.entry
        { m.view g.ident with liveGuards := (m.view g.ident).liveGuards - 1 } := by
    rw [Dict.modify, h.get_view hg]
  unfold dropGuard
  dsimp only
  rw [hmodify]
  exact hsto.gcMapEntry g.ident

end Fence

end DelegationManager

end Flint.Delegation
