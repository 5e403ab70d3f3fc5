import Flint.Basic.Fencing
import Flint.Forge.Lease

/-!
# The epochs of the snapshots

A snapshot is stamped with the epoch of its writer's lease. A commit finds in its renewal, after the
snapshot in its hand was read, that the cell is in its own epoch: from then on its write cannot
bring the epoch down, since it fails if another write came first (`Server.Sound.writes`).

The rotation of a takeover makes no such check. It loads the snapshot after its acquire, and between
the two the cell can be taken over again (`overtaken_rotation_lands`). `Servers.Entitled` excludes
this.
-/

namespace Flint.Forge.Lease

open Register Outcome Snapshot List Option Function

open Flint.Syncer (EpochCell Observed Incarnation acquired renewed stillOurs)

variable {ι : Type}

@[simp] def Phase.cells : Phase ι → List (Observed ι)
  | .observed (some o) => [o]
  | .rotating lease | .rotateWrite lease _ | .releasing lease => [lease]
  | _ => []

@[simp] def Phase.doc : Phase ι → Option (Cell ι)
  | .rotateWrite _ cell | .listing cell _ | .renewing _ cell _ | .renewRead _ cell _
  | .renewed _ cell _ | .committing _ cell _ _ => some cell
  | _ => none

def Phase.rotation : Phase ι → Option (Observed ι)
  | .rotating lease => some lease
  | _ => none

@[simp] def Phase.due : Phase ι → Bool
  | .rotateWrite _ _ | .renewed _ _ _ | .committing _ _ _ _ => true
  | _ => false

@[simp] def Server.writes (s : Server ι) : Option (ℕ × Cell ι) :=
  match s.phase with
  | .rotateWrite lease cell => some (lease.2.epoch, cell)
  | .renewed _ cell _ => s.lease.map fun l => (l.2.epoch, cell)
  | .committing _ cell _ epoch => some (epoch, cell)
  | _ => none

/-! ### What a request does to the bucket -/

def Bucket.Bounded (b : Bucket ι) : Prop :=
  ∀ snap ∈ b.snapshot.value, b.cell.AtLeast EpochCell.epoch snap.epoch

theorem Bucket.Bounded.atMost {b : Bucket ι} (h : b.Bounded) {e : ℕ}
    (hce : b.cell.AtMost EpochCell.epoch e) : b.snapshot.AtMost epoch e :=
  fun snap hsn => (h snap hsn).le_of_atMost hce

structure Advance (b b' : Bucket ι) : Prop where
  cell : b.cell.Grows EpochCell.epoch b'.cell
  snapshot : b.snapshot.Grows epoch b'.snapshot

theorem Advance.refl (b : Bucket ι) : Advance b b := ⟨.refl _, .refl _⟩

structure Pending (b : Bucket ι) (p : ℕ × Cell ι) : Prop where
  entitled : b.snapshot.Entitled epoch p.1 p.2
  held : b.cell.AtLeast EpochCell.epoch p.1

variable {p : ℕ × Cell ι}

theorem Pending.advance {b b' : Bucket ι} (h : Pending b p) (hadv : Advance b b') : Pending b' p :=
  ⟨h.entitled.grows hadv.snapshot, hadv.cell.atLeast h.held⟩

namespace Event

def stamp : Event → Option ℕ
  | .stamped e => some e
  | .rotated _ => none

def epoch : Event → ℕ
  | .stamped e | .rotated e => e

def Follows (later earlier : Event) : Prop := ∀ e, later = .stamped e → earlier.epoch ≤ e

end Event

structure Logged (b b' : Bucket ι) (events : List Event) : Prop where
  reached : ∀ ev ∈ events, b'.snapshot.AtLeast epoch ev.epoch
  stamped : ∀ e, .stamped e ∈ events → b.snapshot.AtMost epoch e
  ordered : events.Pairwise Event.Follows

theorem logged_nil (b b' : Bucket ι) : Logged b b' [] := ⟨nofun, nofun, .nil⟩

structure Kept (b b' : Bucket ι) (events : List Event) : Prop where
  advance : Advance b b'
  bounded : b'.Bounded
  logged : Logged b b' events

section Requests

variable {b : Bucket ι}

theorem Kept.refl (h : b.Bounded) : Kept b b [] := ⟨.refl b, h, logged_nil b b⟩

theorem kept_cell (h : b.Bounded) {cell : Register (EpochCell ι)}
    (hgrw : b.cell.Grows EpochCell.epoch cell) : Kept b { b with cell } [] :=
  ⟨⟨hgrw, .refl _⟩, fun snap hsn => hgrw.atLeast (h snap hsn), logged_nil _ _⟩

theorem grows_put_cell {o : Observed ι} (ho : b.cell.Held EpochCell.epoch o) {c : EpochCell ι}
    (hc : o.2.epoch ≤ c.epoch) (fate : Fate) :
    b.cell.Grows EpochCell.epoch (put b.cell (some o) c fate).register := by
  rcases put_cases b.cell (some o) c fate with ⟨-, heq, -⟩ | ⟨hcur, -, heq⟩
  · rw [heq]
    exact .refl _
  · rw [heq]
    exact .inr ⟨c, rfl, fun v hv => (ho.atMost hcur v hv).trans hc⟩

theorem grows_put_fresh (c : EpochCell ι) (fate : Fate) :
    b.cell.Grows EpochCell.epoch (put b.cell none c fate).register := by
  rcases put_cases b.cell none c fate with ⟨-, heq, -⟩ | ⟨hcur, -, heq⟩
  · rw [heq]
    exact .refl _
  · rw [heq]
    exact .inr ⟨c, rfl, atMost_of_current_none hcur⟩

theorem register_of_ok {V : Type} {r : Register V} {x : Option (ℕ × V)} {v : V} {fate : Fate}
    (hok : (put r x v fate).answer = .ok) :
    (put r x v fate).took ∧ (put r x v fate).register = r.put v := by
  rcases put_cases r x v fate with ⟨-, -, hanswer⟩ | ⟨-, htook, heq⟩
  · exact absurd hok hanswer
  · exact ⟨htook, heq⟩

theorem held_of_ok {x : Option (Observed ι)} {c : EpochCell ι} {fate : Fate}
    (hok : (put b.cell x c fate).answer = .ok) :
    (put b.cell x c fate).register.Held EpochCell.epoch
      ((put b.cell x c fate).register.version, c) := by
  rw [(register_of_ok hok).2]
  exact held_put c

theorem kept_write (h : b.Bounded) (hp : Pending b p) (next : Snapshot ι) (hnx : next.epoch = p.1)
    (fate : Fate) :
    Kept b { b with snapshot := (put b.snapshot p.2 next fate).register }
      (stampedIf (put b.snapshot p.2 next fate).took p.1) := by
  rcases put_cases b.snapshot p.2 next fate with ⟨htook, heq, -⟩ | ⟨hcur, htook, heq⟩
  · rw [heq, htook]
    exact .refl h
  · rw [heq, htook]
    have hmo : b.snapshot.AtMost epoch p.1 := hp.entitled.atMost hcur
    refine ⟨⟨.refl _, .inr ⟨next, rfl, hnx ▸ hmo⟩⟩, fun snap hsn => ?_, ?_, ?_, ?_⟩
    · cases hsn
      exact hnx ▸ hp.held
    · intro ev hev
      obtain rfl := mem_singleton.mp hev
      exact ⟨next, rfl, hnx.ge⟩
    · intro e he
      obtain rfl := Event.stamped.inj (mem_singleton.mp he)
      exact hmo
    · exact pairwise_singleton _ _

theorem kept_rotated (h : b.Bounded) (hp : Pending b p) {next : Snapshot ι}
    (hnx : next.epoch = p.1) {fate : Fate} (hok : (put b.snapshot p.2 next fate).answer = .ok) :
    Kept b { b with snapshot := (put b.snapshot p.2 next fate).register }
      (.rotated p.1 :: stampedIf (put b.snapshot p.2 next fate).took p.1) := by
  have hkp := kept_write h hp next hnx fate
  refine ⟨hkp.advance, hkp.bounded, fun ev hev => ?_, fun e he => ?_, ?_⟩
  · rcases mem_cons.mp hev with rfl | hev
    · rw [(register_of_ok hok).2]
      exact ⟨next, rfl, hnx.ge⟩
    · exact hkp.logged.reached ev hev
  · rcases mem_cons.mp he with heq | he
    · exact absurd heq Event.noConfusion
    · exact hkp.logged.stamped e he
  · exact .cons (fun _ _ _ heq => absurd heq Event.noConfusion) hkp.logged.ordered

end Requests

/-! ### One server -/

variable {w : Server ι}

namespace Server

variable {b b' : Bucket ι} {s : Server ι} {fate : Fate} {me : ι}

/-- A server has in hand what it has read or written, and the write it is about to send is in
order. -/
structure Sound (b : Bucket ι) (s : Server ι) : Prop where
  lease : ∀ o ∈ s.lease, b.cell.Held EpochCell.epoch o
  cells : ∀ o ∈ s.phase.cells, b.cell.Held EpochCell.epoch o
  cell : ∀ x ∈ s.cell, b.snapshot.Seen x
  doc : ∀ x ∈ s.phase.doc, b.snapshot.Seen x
  writes : ∀ p ∈ s.writes, Pending b p

theorem Sound.advance (h : s.Sound b) (hadv : Advance b b') : s.Sound b' where
  lease o ho := (h.lease o ho).grows hadv.cell
  cells o ho := (h.cells o ho).grows hadv.cell
  cell x hx := hadv.snapshot.seen (h.cell x hx)
  doc x hx := hadv.snapshot.seen (h.doc x hx)
  writes p hp := (h.writes p hp).advance hadv

theorem sound_idle (hph : s.phase = .idle) (hls : ∀ o ∈ s.lease, b.cell.Held EpochCell.epoch o)
    (hce : ∀ x ∈ s.cell, b.snapshot.Seen x) : s.Sound b := by
  exact ⟨hls, by simp [hph], hce, by simp [hph], by simp [hph]⟩

theorem Sound.toIdle (h : s.Sound b) : s.toIdle.Sound b := sound_idle rfl h.lease h.cell

theorem Sound.fence (h : s.Sound b) : s.fence.toIdle.Sound b :=
  sound_idle rfl (by simp [Server.fence, Server.toIdle]) h.cell

theorem Sound.claimed (h : s.Sound b) {lease : Observed ι}
    (hls : b.cell.Held EpochCell.epoch lease) :
    (s.claimed lease).Sound b := by
  exact sound_idle rfl (by simpa [Server.claimed]) h.cell

variable {x : Cell ι}

theorem Sound.setCell (h : s.Sound b) (hx : b.snapshot.Seen x) :
    Sound b { s with cell := some x, phase := .idle } := by
  exact sound_idle rfl h.lease (by simpa)

variable {phase : Phase ι}

theorem Sound.setPhase (h : s.Sound b) (hdue : phase.due = false)
    (hcel : ∀ o ∈ phase.cells, b.cell.Held EpochCell.epoch o)
    (hdoc : ∀ x ∈ phase.doc, b.snapshot.Seen x) : Sound b { s with phase } := by
  refine ⟨h.lease, hcel, h.cell, hdoc, ?_⟩
  cases phase <;> simp_all

theorem Sound.setDoc (h : s.Sound b) (hx : b.snapshot.Seen x) (hdue : phase.due = false)
    (hcel : phase.cells = []) (hdoc : phase.doc = some x) :
    Sound b { s with phase } := by
  refine h.setPhase hdue (by rw [hcel]; nofun) ?_
  rw [hdoc]
  simpa

theorem Sound.setBare (h : s.Sound b) (hdue : phase.due = false) (hcel : phase.cells = [])
    (hdoc : phase.doc = none) : Sound b { s with phase } := by
  exact h.setPhase hdue (by rw [hcel]; nofun) (by rw [hdoc]; nofun)

variable {l : Observed ι}

theorem Sound.setHeld (h : s.Sound b) (hl : b.cell.Held EpochCell.epoch l)
    (hdue : phase.due = false) (hcel : phase.cells = [l]) (hdoc : phase.doc = none) :
    Sound b { s with phase } := by
  refine h.setPhase hdue ?_ (by rw [hdoc]; nofun)
  rw [hcel]
  simpa

theorem Sound.toRenewed (h : s.Sound b) (hb : b.Bounded) (hl : b.cell.Held EpochCell.epoch l)
    (hmo : b.cell.AtMost EpochCell.epoch l.2.epoch) (hx : b.snapshot.Seen x) (c : Commit)
    (packs : List ℕ) : Sound b { s with lease := some l, phase := .renewed c x packs } := by
  refine ⟨by simpa, by simp, h.cell, by simpa, fun p hp => ?_⟩
  cases hp
  exact ⟨.of_atMost hx (hb.atMost hmo), hl.atLeast⟩

theorem Sound.setLease (h : s.Sound b) {lease : Option (Observed ι)}
    (hls : ∀ o ∈ lease, b.cell.Held EpochCell.epoch o)
    (hep : ∀ l ∈ lease, ∃ l₀ ∈ s.lease, l.2.epoch = l₀.2.epoch) (fenced beating : Bool) :
    Sound b { s with lease, fenced, beating } := by
  refine ⟨hls, h.cells, h.cell, h.doc, fun p hp => h.writes p ?_⟩
  cases hph : s.phase with
  | renewed c x packs =>
    -- the one phase that looks at the lease
    rw [Server.writes, hph] at hp ⊢
    obtain ⟨l, hl, rfl⟩ := map_eq_some_iff.mp hp
    obtain ⟨l₀, hl₀, heq⟩ := hep l hl
    rw [mem_def.mp hl₀, heq]
    rfl
  | _ =>
    rw [Server.writes, hph] at hp ⊢
    exact hp

structure Good (b : Bucket ι) (r : Reply ι) : Prop where
  kept : Kept b r.bucket r.events
  sound : r.server.Sound r.bucket

theorem good_read (hb : b.Bounded) (h : w.Sound b) : Good b ⟨b, w, []⟩ := ⟨.refl hb, h⟩

theorem atMost_of_read {o : Observed ι} (h : b.cell.read = some o) :
    b.cell.AtMost EpochCell.epoch o.2.epoch := by
  intro c hc
  obtain ⟨v, hv, rfl⟩ := map_eq_some_iff.mp h
  rw [mem_def, hv] at hc
  exact (some.inj hc ▸ le_rfl)

theorem good_renewNext (hb : b.Bounded) (h : s.Sound b) {c : Commit} {packs : List ℕ}
    (hx : b.snapshot.Seen x) : Good b (renewNext fate b s c x packs) := by
  rw [renewNext]
  split
  · exact good_read hb h.toIdle
  · next l hl =>
    have hkp := kept_cell hb (grows_put_cell (h.lease l hl) (c := renewed l) le_rfl fate)
    have hsnd := h.advance hkp.advance
    refine ⟨hkp, ?_⟩
    dsimp only
    split
    · next hok =>
      refine hsnd.toRenewed hkp.bounded (held_of_ok hok) ?_ hx c packs
      -- the cell is the one that was just written
      refine atMost_of_read ?_
      dsimp only
      rw [(register_of_ok hok).2]
      rfl
    · exact hsnd.setDoc hx rfl rfl rfl
    · exact hsnd.toIdle
    · exact hsnd.toIdle

theorem good_commitNext (hb : b.Bounded) (h : s.Sound b) {c : Commit} {packs : List ℕ} {epoch : ℕ}
    (hpn : Pending b (epoch, x)) : Good b (commitNext me fate b s c x packs epoch) := by
  have hkp := kept_write hb hpn (stamp x packs epoch me) rfl fate
  have hsnd := h.advance hkp.advance
  refine ⟨hkp, ?_⟩
  dsimp only [commitNext]
  split
  · next hok =>
    refine hsnd.setCell ?_
    dsimp only
    rw [(register_of_ok hok).2]
    exact seen_read _
  · split
    · exact hsnd.fence
    · exact hsnd.toIdle
  all_goals
    cases c.settles with
    | true | false => exact hsnd.setBare rfl rfl rfl

theorem good_rotateNext (hb : b.Bounded) (h : s.Sound b) {lease : Observed ι}
    (hls : b.cell.Held EpochCell.epoch lease) (hpn : Pending b (lease.2.epoch, x)) :
    Good b (rotateNext me fate b s lease x) := by
  have hkp := kept_write hb hpn (stamp x (snapOf x).packs lease.2.epoch me) rfl fate
  have hsnd := h.advance hkp.advance
  dsimp only [rotateNext]
  split
  · next hok =>
    refine ⟨kept_rotated hb hpn rfl hok, ?_⟩
    refine (hsnd.setCell ?_).claimed (hls.grows hkp.advance.cell)
    dsimp only
    rw [(register_of_ok hok).2]
    exact seen_read _
  · exact ⟨hkp, hsnd.toIdle⟩

variable [DecidableEq ι]

theorem held_adopted (h : s.adopted fate b = some l) :
    b.cell.read = some l ∧ ∃ l₀ ∈ s.lease, l.2.epoch = l₀.2.epoch := by
  rw [adopted] at h
  split at h
  · obtain ⟨l₀, hl₀, hours⟩ := bind_eq_some_iff.mp h
    obtain ⟨hrd, hsm⟩ := filter_eq_some_iff.mp hours
    have hhold := (Bool.and_eq_true_iff.mp hsm).1
    exact ⟨hrd, l₀, hl₀, of_decide_eq_true (Bool.and_eq_true_iff.mp hhold).1⟩
  · cases h

theorem good_claimNext (hb : b.Bounded) (h : s.Sound b) {state : Option (Observed ι)}
    (hstt : ∀ o ∈ state, b.cell.Held EpochCell.epoch o) : Good b (claimNext me fate b s state) := by
  cases state with
  | none =>
    have hkp := kept_cell hb (grows_put_fresh (acquired me none) fate)
    refine ⟨hkp, ?_⟩
    have hsnd := h.advance hkp.advance
    dsimp only [claimNext]
    split
    · next hok => exact hsnd.claimed (held_of_ok hok)
    · exact hsnd.toIdle
  | some o =>
    rw [claimNext]
    split
    · have hkp := kept_cell hb (grows_put_cell (hstt o rfl)
        (c := acquired me (some o)) (Nat.le_succ o.2.epoch) fate)
      have hsnd := h.advance hkp.advance
      refine ⟨hkp, ?_⟩
      dsimp only
      split
      · next hok =>
        have hls := held_of_ok hok
        split
        · exact hsnd.claimed hls
        · exact hsnd.setHeld hls rfl rfl rfl
      · exact sound_idle rfl hsnd.lease hsnd.cell
      · exact sound_idle rfl hsnd.lease hsnd.cell
      · exact hsnd.toIdle
    · exact good_read hb (sound_idle rfl h.lease h.cell)

theorem good_beat (hb : b.Bounded) (h : s.Sound b) : Good b (s.beat fate b) := by
  rw [beat]
  split
  · refine good_read hb ?_
    split
    · next l hl =>
      obtain ⟨hrd, hep⟩ := held_adopted hl
      refine h.setLease ?_ ?_ s.fenced false
      · simpa using held_read hrd
      · simpa using hep
    · exact h.setLease (by simp [Server.fence]) (by simp [Server.fence]) true false
  · split
    · exact good_read hb h
    · split
      · exact good_read hb h
      · next l hl =>
        have hkp := kept_cell hb (grows_put_cell (h.lease l hl) (c := renewed l) le_rfl fate)
        have hsnd := h.advance hkp.advance
        refine ⟨hkp, ?_⟩
        dsimp only
        split
        · next hok =>
          refine hsnd.setLease ?_ (fun o ho => ⟨l, hl, ?_⟩) s.fenced s.beating
          · simpa using held_of_ok hok
          · cases ho
            rfl
        · exact ⟨hsnd.lease, hsnd.cells, hsnd.cell, hsnd.doc, hsnd.writes⟩
        · exact hsnd
        · exact hsnd

theorem good_next (hb : b.Bounded) (h : s.Sound b)
    (hent : ∀ lease ∈ s.phase.rotation, ∀ c ∈ b.cell.value, c.epoch = lease.2.epoch) :
    Good b (s.next me fate b) := by
  have hse : b.snapshot.Seen b.snapshot.read := b.snapshot.seen_read
  rw [next]
  cases hph : s.phase with
  | idle | listing x revalidated => exact good_read hb h
  | observed state => exact good_claimNext hb h fun o ho => h.cells o (by simp_all)
  | rotating lease =>
    have hls := h.cells lease (by simp [hph])
    have hmo : b.cell.AtMost EpochCell.epoch lease.2.epoch :=
      fun c hc => (hent lease (by rw [hph]; rfl) c hc).le
    refine good_read hb ?_
    split
    · refine ⟨h.lease, by simpa, h.cell, by simpa, fun p hp => ?_⟩
      cases hp
      exact ⟨.of_atMost hse (hb.atMost hmo), hls.atLeast⟩
    · exact h.toIdle
  | rotateWrite lease x =>
    exact good_rotateNext hb h (h.cells lease (by simp [hph])) (h.writes _ (by simp [hph]))
  | loading =>
    refine good_read hb ?_
    split
    · cases hrd : b.snapshot.read with
      | none => exact h.setCell (hrd ▸ hse)
      | some p => exact h.setDoc (hrd ▸ hse) rfl rfl rfl
    · exact h.toIdle
  | reloading =>
    refine good_read hb ?_
    split
    · exact h.setDoc hse rfl rfl rfl
    · exact h.toIdle
  | renewing c x packs =>
    dsimp only
    split
    · exact good_read hb h
    · split
      · exact good_read hb h.toIdle
      · exact good_renewNext hb h (h.doc x (by rw [hph]; rfl))
  | renewRead c x packs =>
    refine good_read hb ?_
    split
    · next l hl =>
      obtain ⟨hrd, -⟩ := held_adopted hl
      exact h.toRenewed hb (held_read hrd) (atMost_of_read hrd) (h.doc x (by rw [hph]; rfl)) c packs
    · exact h.fence
  | renewed c x packs =>
    refine good_read hb ?_
    split
    · next l hl =>
      -- the write that was due is due under the epoch that was looked up
      exact ⟨h.lease, by simp, h.cell, fun y hy => h.doc y (by simpa [hph] using hy),
        fun p hp => h.writes p (by simpa [hph, hl] using hp)⟩
    · exact h.toIdle
  | committing c x packs epoch => exact good_commitNext hb h (h.writes _ (by simp [hph]))
  | settling c seq epoch =>
    refine good_read hb ?_
    split
    · exact h.setCell hse
    · exact h.toIdle
  | releasing lease =>
    have hls := h.cells lease (by simp [hph])
    have hkp := kept_cell hb (grows_put_cell hls
      (c := { lease.2 with released := true, handoff := none }) le_rfl fate)
    exact ⟨hkp, (h.advance hkp.advance).toIdle⟩

end Server

/-! ### The run -/

namespace Servers

variable {s : Servers ι}

/-- A rotation loads the snapshot while the cell is in the epoch it was acquired in. -/
def Entitled (s : Servers ι) : Action ι → Prop
  | .next i _ => ∀ lease ∈ (s.servers i).phase.rotation, ∀ c ∈ s.bucket.cell.value,
      c.epoch = lease.2.epoch
  | _ => True

structure Inv (s : Servers ι) : Prop where
  bounded : s.bucket.Bounded
  servers : ∀ i, (s.servers i).Sound s.bucket
  reached : ∀ ev ∈ s.log, s.bucket.snapshot.AtLeast epoch ev.epoch
  ordered : s.log.Pairwise Event.Follows

theorem sound_new (b : Bucket ι) (inc : Incarnation) : (Server.new inc : Server ι).Sound b :=
  Server.sound_idle rfl (by simp [Server.new]) (by simp [Server.new])

variable {b : Bucket ι}

theorem sound_restoring (h : w.Sound b) :
    Server.Sound b { w with phase := restoreFrom w.cell } := by
  refine h.setPhase ?_ ?_ fun x hx => h.cell x ?_
  all_goals rcases hce : w.cell with _ | _ | p <;> simp_all [restoreFrom]

theorem sound_listed (h : w.Sound b) (missing : Bool) : (listed w missing).Sound b := by
  rw [listed]
  split
  · next x revalidated hph =>
    split
    · cases revalidated with
      | true => exact h.toIdle
      | false => exact h.setBare rfl rfl rfl
    · exact h.setCell (h.doc x (by rw [hph]; rfl))
  · exact h

theorem inv_start (hb : b.Bounded) (inc : ι → Incarnation) : Inv (start b inc) where
  bounded := hb
  servers i := sound_new b (inc i)
  reached ev hev := by
    obtain ⟨snap, hsn, rfl⟩ := mem_map.mp hev
    exact ⟨snap, mem_toList.mp hsn, le_rfl⟩
  ordered := by
    rw [start]
    cases b.snapshot.value with
    | none => exact .nil
    | some snap => exact pairwise_singleton _ _

variable [DecidableEq ι]

theorem Inv.setServer (h : Inv s) {i : ι} (hw : w.Sound s.bucket) : Inv (s.setServer i w) where
  bounded := h.bounded
  servers := (forall_update_iff s.servers fun _ w => w.Sound s.bucket).mpr
    ⟨hw, fun j _ => h.servers j⟩
  reached := h.reached
  ordered := h.ordered

theorem Inv.reply (h : Inv s) {i : ι} {r : Reply ι} (hr : Server.Good s.bucket r) :
    Inv (s.reply i r) where
  bounded := hr.kept.bounded
  servers := (forall_update_iff s.servers fun _ w => w.Sound r.bucket).mpr
    ⟨hr.sound, fun j _ => (h.servers j).advance hr.kept.advance⟩
  reached ev hev := by
    rcases mem_append.mp hev with hnew | hold
    · exact hr.kept.logged.reached ev hnew
    · exact hr.kept.advance.snapshot.atLeast (h.reached ev hold)
  ordered := by
    refine pairwise_append.mpr ⟨hr.kept.logged.ordered, h.ordered, ?_⟩
    intro later hlat earlier hearlier e heq
    -- the snapshot before the step is at least in the epoch of what came before, and at most in
    -- that of the stamp
    have hmo := hr.kept.logged.stamped e (heq ▸ hlat)
    exact (h.reached earlier hearlier).le_of_atMost hmo

theorem Inv.step (h : Inv s) {a : Action ι} (ha : s.Entitled a) : Inv (s.step a) := by
  cases a <;> rw [Servers.step]
  case claim i =>
    split
    · refine h.setServer ?_
      cases hrd : s.bucket.cell.read with
      | none => exact (h.servers i).setBare rfl rfl rfl
      | some o => exact (h.servers i).setHeld (held_read hrd) rfl rfl rfl
    · exact h
  case next => exact h.reply (Server.good_next h.bounded (h.servers _) ha)
  case beat => exact h.reply (Server.good_beat h.bounded (h.servers _))
  case restore i =>
    split
    · exact h.setServer (sound_restoring (h.servers i))
    · exact h
  case listed => exact h.setServer (sound_listed (h.servers _) _)
  case commit i c packs =>
    split
    · next x _ hce =>
      split
      · exact h
      · exact h.setServer ((h.servers i).setDoc ((h.servers i).cell x hce) rfl rfl rfl)
    · exact h
  case release i =>
    split
    · refine h.setServer ?_
      have hce := (h.servers i).cell
      cases hls : (s.servers i).lease with
      | none => exact Server.sound_idle rfl (by simp) hce
      | some l => exact ⟨by simp, by simpa using (h.servers i).lease l hls, hce, by simp, by simp⟩
    · exact h
  case restart => exact h.setServer (sound_new _ _)

theorem inv_run (hb : b.Bounded) {inc : ι → Incarnation} {l : List (Action ι)}
    (h : Steps step Entitled (start b inc) l) : Inv (run step (start b inc) l) :=
  run_invariant_of_steps (P := Inv) (fun _ _ h ha => h.step ha) (inv_start hb inc) h

/-! ### Results -/

/-- When each rotation loads the snapshot while the cell is in the epoch it was acquired in, the
epochs of successive snapshots do not go down, and after a claim with a rotation no snapshot is
written under an earlier epoch. -/
theorem epochs_never_go_back (b : Bucket ι) (inc : ι → Incarnation) (l : List (Action ι))
    (hb : b.Bounded) (h : Steps step Entitled (start b inc) l) :
    let log := (run step (start b inc) l).log
    (log.filterMap Event.stamp).Pairwise (fun later earlier => earlier ≤ later) ∧
      ∀ after before e, log = after ++ .rotated e :: before →
        ∀ e' ∈ after.filterMap Event.stamp, e ≤ e' := by
  intro log
  have hord : log.Pairwise Event.Follows := (inv_run hb h).ordered
  have hstm : ∀ {ev : Event} {e : ℕ}, ev.stamp = some e → ev = .stamped e := by
    intro ev e hev
    cases ev with
    | stamped e' => exact congrArg Event.stamped (some.inj hev)
    | rotated e' => cases hev
  constructor
  · refine Pairwise.filterMap Event.stamp (fun later earlier hfol e he e₀ he₀ => ?_) hord
    have hle := hfol e (hstm he)
    rwa [hstm he₀] at hle
  · intro after before e hlog e' he'
    obtain ⟨ev, hev, hsta⟩ := mem_filterMap.mp he'
    rw [hlog] at hord
    have hfol := (pairwise_append.mp hord).2.2 ev hev _ (.head _)
    exact hfol e' (hstm hsta)

def takeover {n : ℕ} (i : Fin n) : List (Action (Fin n)) :=
  (replicate 7 [.claim i, .next i .done]).flatten

def newServers (n : ℕ) : Servers (Fin n) := start ⟨.new none, .new none⟩ fun _ => ⟨0, none, 0⟩

/-- Server 1 acquires the cell in epoch 2 and stops before it loads the snapshot; server 2 takes
over in epoch 3 and rotates. The rotation of server 1 then succeeds, back to epoch 2. -/
theorem overtaken_rotation_lands :
    (run step (newServers 3) ([.claim 0, .next 0 .done] ++ takeover 1 ++ takeover 2 ++
      [.next 2 .done, .next 2 .done] ++ [.next 1 .done, .next 1 .done])).log =
      [.rotated 2, .stamped 2, .rotated 3, .stamped 3] := by
  decide +kernel

instance (s : Servers ι) (a : Action ι) : Decidable (s.Entitled a) := by
  unfold Entitled
  split <;> infer_instance

/-- Server 0 publishes a snapshot and has renewed its lease for the next one when server 1 takes
over. The takeover rotates, and the write of server 0 fails. -/
theorem straggler_fails :
    let l := [.claim 0, .next 0 .done, .restore 0, .next 0 .done, .commit 0 .batch [1]] ++
      replicate 3 (.next 0 .done) ++ [.commit 0 .batch [2], .next 0 .done, .next 0 .done] ++
      takeover 1 ++ [.next 1 .done, .next 1 .done, .next 0 .done]
    let log := (run step (newServers 2) l).log
    Steps step Entitled (newServers 2) l ∧ log = [.rotated 2, .stamped 2, .stamped 1] ∧
      (log.filterMap Event.stamp).Pairwise (fun later earlier => earlier ≤ later) := by
  intro l log
  have hsts : Steps step Entitled (newServers 2) l := by decide +kernel
  refine ⟨hsts, by decide +kernel, ?_⟩
  exact (epochs_never_go_back _ _ l (fun snap hsn => absurd hsn (by simp [new]))
    hsts).1

end Servers

end Flint.Forge.Lease
