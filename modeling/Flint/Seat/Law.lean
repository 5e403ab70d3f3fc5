import Flint.Seat.Record

/-!
# Seats move by election only

An election moves the seat to the next epoch and to a registered target whose copy is in sync. The
lease stays behind with the epoch it was granted for. A composer that was voted out can therefore
not renew: while it is out, the seat names another, and when it is voted in again, the lease that
still stands is of an earlier epoch than the seat.
-/

namespace Flint.Seat

open Outcome Option Prod

open Record

variable {volume : String} {s s' : Record}

/-! ### What a transaction does -/

theorem readSeat_ok {x : Option BlockSeat} (h : s.readSeat = .ok x) : x = s.seat := by
  unfold readSeat at h
  split at h
  · next hno => rw [hno, ← Except.ok.inj h]
  · next seat hse =>
    split at h
    · cases h
    · rw [hse, ← Except.ok.inj h]

variable {e now : Int} {cand : String}

theorem promoteVolume_ok {c : String} {seat' : BlockSeat}
    (h : s.promoteVolume e c cand now = .ok (s', seat')) :
    ∃ seat, s.seat = some seat ∧ seat.epoch = e ∧ seat.composer = c ∧ cand ≠ c ∧
      s.Registered cand ∧ s.InSync cand ∧ s' = { s with seat := some ⟨e + 1, cand, now⟩ } := by
  unfold promoteVolume at h
  obtain ⟨x, hx, h⟩ := bind_ok.mp h
  obtain rfl := readSeat_ok hx
  cases hse : s.seat with
  | none =>
    rw [hse] at h
    cases h
  | some seat =>
    rw [hse] at h
    obtain ⟨_, hsm, h⟩ := bind_ok.mp h
    obtain ⟨_, hsf, h⟩ := bind_ok.mp h
    obtain ⟨_, hreg, h⟩ := bind_ok.mp h
    obtain ⟨_, hsy, hcas⟩ := bind_ok.mp h
    split at hcas
    · next heq =>
      cases pure_ok.mp hcas
      refine ⟨seat, rfl, heq.1, heq.2, ?_, not_not.mp (refuse_ok.mp hreg),
        not_not.mp (refuse_ok.mp hsy), by rw [heq.1]⟩
      rw [← heq.2]
      exact refuse_ok.mp hsf
    · cases hcas

variable {expires : Int}

theorem leaseRenew_ok {holder : String} {reply : BlockLease}
    (h : s.leaseRenew volume holder expires = .ok (s', reply)) :
    ∃ seat lease, s.seat = some seat ∧ seat.composer = holder ∧ s.lease = some lease ∧
      lease.epoch = seat.epoch ∧ lease.holder = holder ∧
      s' = { s with lease := some { lease with expiresUnix := expires } } := by
  unfold leaseRenew at h
  obtain ⟨x, hx, h⟩ := bind_ok.mp h
  obtain rfl := readSeat_ok hx
  cases hse : s.seat with
  | none =>
    rw [hse] at h
    cases h
  | some seat =>
    rw [hse] at h
    dsimp only at h
    split at h
    · cases h
    · next hcomp =>
      cases hls : s.lease with
      | none =>
        rw [hls] at h
        cases h
      | some lease =>
        rw [hls] at h
        dsimp only at h
        split at h
        · next heq =>
          cases pure_ok.mp h
          exact ⟨seat, lease, rfl, not_not.mp hcomp, rfl, heq.1, heq.2, rfl⟩
        · cases h

theorem seatVolume_ok {composer : String} {seat' : BlockSeat}
    (h : s.seatVolume composer now expires = .ok (s', seat')) :
    s' = s ∨ s.seat = none ∧ s' = { s with
      seat := some ⟨1, composer, now⟩
      legs := s.legs.insertOrIgnore ⟨composer, .insync, now⟩
      lease := some (s.lease.getD ⟨1, composer, expires⟩) } := by
  unfold seatVolume at h
  obtain ⟨x, -, h⟩ := bind_ok.mp h
  cases x with
  | none => cases h
  | some seat =>
    cases pure_ok.mp h
    cases hse : s.seat with
    | some _ => exact .inl rfl
    | none => exact .inr ⟨rfl, rfl⟩

inductive Change (s : Record) : SeatOp → Record → Prop
  | nothing (op : SeatOp) : Change s op s
  | seated (composer : String) (now expires : Int) (hno : s.seat = none) :
    Change s (.seatVolume composer now expires) { s with
      seat := some ⟨1, composer, now⟩
      legs := s.legs.insertOrIgnore ⟨composer, .insync, now⟩
      lease := some (s.lease.getD ⟨1, composer, expires⟩) }
  | promoted (seat : BlockSeat) (cand : String) (now : Int) (hse : s.seat = some seat)
    (hoth : cand ≠ seat.composer) (hreg : s.Registered cand) (hsy : s.InSync cand) :
    Change s (.promoteVolume seat.epoch seat.composer cand now)
      { s with seat := some ⟨seat.epoch + 1, cand, now⟩ }
  | granted (epoch : Int) (holder : String) (expires : Int) :
    Change s (.leaseGrant epoch holder expires) { s with lease := some ⟨epoch, holder, expires⟩ }
  | renewed (seat : BlockSeat) (lease : BlockLease) (expires : Int) (hse : s.seat = some seat)
    (hls : s.lease = some lease) (hep : lease.epoch = seat.epoch)
    (hhol : lease.holder = seat.composer) :
    Change s (.leaseRenew seat.composer expires)
      { s with lease := some { lease with expiresUnix := expires } }
  | dropped : Change s .leaseDrop { s with lease := none }
  | marked (targetId mark : String) (leg : BlockLeg) (now : Int) :
    Change s (.legMark targetId mark now) { s with legs := s.legs.put leg }
  | registered (targetId traddr : String) (trsvcid : UInt16) (now : Int) (row : BlockTargetRow) :
    Change s (.targetRegister targetId traddr trsvcid now) { s with targets := s.targets.put row }

theorem answer_ok {α : Type} {f : α → SeatReply} {x : Tx (Record × α)} {r : SeatReply}
    (h : answer f x = .ok (s', r)) : ∃ a, x = .ok (s', a) := by
  unfold answer at h
  cases x with
  | error e => cases h
  | ok p =>
    have heq := Except.ok.inj h
    exact ⟨p.2, by rw [← (mk.inj heq).1]⟩

variable {op : SeatOp}

theorem exec_change {r : SeatReply} (h : exec volume s op = .ok (s', r)) : Change s op s' := by
  cases op with
  | targetRegister t a p now =>
    dsimp only [exec] at h
    obtain ⟨x, h⟩ := answer_ok h
    obtain ⟨rfl, -⟩ := mk.inj (Except.ok.inj h)
    exact .registered t a p now _
  | seatVolume c now exp =>
    obtain ⟨x, h⟩ := answer_ok h
    rcases seatVolume_ok h with rfl | ⟨hno, rfl⟩
    · exact .nothing _
    · exact .seated c now exp hno
  | promoteVolume e c cand now =>
    obtain ⟨x, h⟩ := answer_ok h
    obtain ⟨seat, hse, rfl, rfl, hoth, hreg, hsy, rfl⟩ := promoteVolume_ok h
    exact .promoted seat cand now hse hoth hreg hsy
  | leaseGrant e holder exp =>
    obtain ⟨x, h⟩ := answer_ok h
    obtain ⟨rfl, -⟩ := mk.inj (Except.ok.inj h)
    exact .granted e holder exp
  | leaseRenew holder exp =>
    obtain ⟨x, h⟩ := answer_ok h
    obtain ⟨seat, lease, hse, rfl, hls, hep, hhol, rfl⟩ := leaseRenew_ok h
    exact .renewed seat lease exp hse hls hep hhol
  | leaseDrop =>
    obtain ⟨x, h⟩ := answer_ok h
    obtain ⟨rfl, -⟩ := mk.inj (Except.ok.inj h)
    exact .dropped
  | legMark t m now =>
    dsimp only [exec] at h
    obtain ⟨x, h⟩ := answer_ok h
    unfold legMark at h
    split at h
    · cases h
    · obtain ⟨rfl, -⟩ := mk.inj (Except.ok.inj h)
      exact .marked t m _ now

theorem step_change (volume : String) (s : Record) (op : SeatOp) :
    Change s op (step volume s op) := by
  unfold step
  split
  · next hxc => exact exec_change hxc
  · exact .nothing op

/-! ### The seat -/

/-- The next seat, after an election that `op` won for its candidate. -/
def Elected (s : Record) (seat : BlockSeat) (op : SeatOp) (s' : Record) : Prop :=
  ∃ cand now, op = .promoteVolume seat.epoch seat.composer cand now ∧ s.Registered cand ∧
    s.InSync cand ∧ s'.seat = some ⟨seat.epoch + 1, cand, now⟩

theorem Change.seat (h : Change s op s') {seat : BlockSeat} (hse : s.seat = some seat) :
    s'.seat = some seat ∨ Elected s seat op s' := by
  cases h with
  | seated composer now expires hno => exact absurd hse (by rw [hno]; simp)
  | promoted seat₀ cand now hse₀ hoth hreg hsy =>
    obtain rfl := mem_unique hse₀ hse
    exact .inr ⟨cand, now, rfl, hreg, hsy, rfl⟩
  | nothing | granted | renewed | dropped | marked | registered => exact .inl hse

/-- **Epochs grow**: a later seat has a later epoch or is the same seat. -/
theorem seat_grows (volume : String) (ops : List SeatOp) {seat : BlockSeat}
    (hse : s.seat = some seat) :
    ∃ later, (run (step volume) s ops).seat = some later ∧ seat.epoch ≤ later.epoch ∧
      (later.epoch = seat.epoch → later = seat) := by
  induction ops generalizing s seat with
  | nil => exact ⟨seat, hse, le_refl _, fun _ => rfl⟩
  | cons op ops ih =>
    cases (step_change volume s op).seat hse with
    | inl hsm => exact ih hsm
    | inr helec =>
      obtain ⟨cand, now, -, -, -, hnx⟩ := helec
      obtain ⟨later, hlat, hle, -⟩ := ih hnx
      change seat.epoch + 1 ≤ later.epoch at hle
      exact ⟨later, hlat, by omega, fun heq => absurd heq (by omega)⟩

theorem commits_promote {c : String} (h : Commits volume s (.promoteVolume e c cand now)) :
    ∃ seat, s.seat = some seat ∧ seat.epoch = e ∧ seat.composer = c ∧ cand ≠ c ∧
      (step volume s (.promoteVolume e c cand now)) =
        { s with seat := some ⟨e + 1, cand, now⟩ } := by
  unfold Commits at h
  unfold step
  cases hxc : exec volume s (.promoteVolume e c cand now) with
  | error err =>
    rw [hxc] at h
    cases h
  | ok p =>
    obtain ⟨x, hp⟩ := answer_ok hxc
    obtain ⟨seat, hse, hep, hcomp, hoth, -, -, hs'⟩ := promoteVolume_ok hp
    exact ⟨seat, hse, hep, hcomp, hoth, hs'⟩

/-! ### The lease -/

/-- How `lease_grant` is called: with the epoch and the composer of the seat. -/
def SeatOp.Called (s : Record) : SeatOp → Prop
  | .leaseGrant epoch holder _ => ∃ seat ∈ s.seat, seat.epoch = epoch ∧ seat.composer = holder
  | _ => True

/-- No lease is ahead of the seat. -/
def Ordered (s : Record) : Prop :=
  ∀ lease, s.lease = some lease → ∃ seat, s.seat = some seat ∧ lease.epoch ≤ seat.epoch

theorem Change.ordered (h : Change s op s') (hcld : op.Called s) (hs : Ordered s) : Ordered s' := by
  intro lease hls
  cases h with
  | nothing | marked | registered => exact hs lease hls
  | dropped => cases hls
  | seated composer now expires hno =>
    -- without a seat there was no lease, so the new one is of the first epoch
    have hnolease : s.lease = none := by
      cases hl : s.lease with
      | none => rfl
      | some l =>
        obtain ⟨seat, hse, -⟩ := hs l hl
        exact absurd hse (by rw [hno]; simp)
    rw [hnolease] at hls
    cases hls
    exact ⟨_, rfl, le_refl _⟩
  | promoted seat cand now hse =>
    obtain ⟨seat₀, hse₀, hle⟩ := hs lease hls
    obtain rfl := mem_unique hse₀ hse
    exact ⟨_, rfl, by change lease.epoch ≤ seat₀.epoch + 1; omega⟩
  | granted epoch holder expires =>
    cases hls
    obtain ⟨seat, hse, hep, -⟩ := hcld
    exact ⟨seat, hse, le_of_eq hep.symm⟩
  | renewed seat lease₀ expires hse hls₀ hep hhol =>
    cases hls
    exact ⟨seat, hse, le_of_eq hep⟩

/-- The composer `a` was voted out at `epoch` and has got no lease since. -/
structure Deposed (a : String) (epoch : Int) (old : Option BlockLease) (s : Record) : Prop where
  past : ∃ seat, s.seat = some seat ∧ epoch < seat.epoch
  lease : ∀ lease, s.lease = some lease → lease.holder = a → old = some lease ∧ lease.epoch ≤ epoch

/-- The transaction grants `a` a lease for an epoch after `epoch`. -/
def SeatOp.Reinstates (a : String) (epoch : Int) : SeatOp → Prop
  | .leaseGrant e holder _ => holder = a ∧ epoch < e
  | _ => False

variable {a : String} {old : Option BlockLease}

theorem Deposed.refused {epoch : Int} (h : Deposed a epoch old s) :
    ¬Commits volume s (.leaseRenew a expires) := by
  unfold Commits
  intro hok
  cases hxc : exec volume s (.leaseRenew a expires) with
  | error err =>
    rw [hxc] at hok
    cases hok
  | ok p =>
    obtain ⟨x, hp⟩ := answer_ok hxc
    obtain ⟨seat, lease, hse, -, hls, hep, hhol, -⟩ := leaseRenew_ok hp
    obtain ⟨seat₀, hse₀, hpas⟩ := h.past
    obtain rfl := mem_unique hse₀ hse
    have hle := (h.lease lease hls hhol).2
    omega

theorem Change.deposed {epoch : Int} (h : Change s op s') (hcld : op.Called s)
    (hop : ¬op.Reinstates a epoch) (hs : Deposed a epoch old s) : Deposed a epoch old s' := by
  obtain ⟨seat, hse, hpas⟩ := hs.past
  have hpas' : ∃ seat, s'.seat = some seat ∧ epoch < seat.epoch := by
    cases h.seat hse with
    | inl hsm => exact ⟨seat, hsm, hpas⟩
    | inr helec =>
      obtain ⟨cand, now, -, -, -, hnx⟩ := helec
      exact ⟨_, hnx, by change epoch < seat.epoch + 1; omega⟩
  refine ⟨hpas', ?_⟩
  intro lease hls hhol
  cases h with
  | nothing | marked | registered | promoted => exact hs.lease lease hls hhol
  | dropped => cases hls
  | seated composer now expires hno => exact absurd hse (by rw [hno]; simp)
  | granted e holder expires =>
    -- a grant to `a` is for the epoch of the seat, which is past
    cases hls
    obtain ⟨seat₀, hse₀, hep, -⟩ := hcld
    obtain rfl := mem_unique hse hse₀
    exact absurd ⟨hhol, hep ▸ hpas⟩ hop
  | renewed seat₀ lease₀ expires hse₀ hls₀ hep hcomp =>
    -- a renewal by `a` needs a lease of the seat's epoch
    cases hls
    obtain rfl := mem_unique hse hse₀
    have hle := (hs.lease lease₀ hls₀ hhol).2
    omega

theorem deposed_of_promote (hs : Ordered s) (h : Commits volume s (.promoteVolume e a cand now)) :
    Deposed a e s.lease (step volume s (.promoteVolume e a cand now)) := by
  obtain ⟨seat, hse, hep, -, -, hte⟩ := commits_promote h
  rw [hte]
  refine ⟨⟨_, rfl, by change e < e + 1; omega⟩, ?_⟩
  intro lease hls _
  obtain ⟨seat₀, hse₀, hle⟩ := hs lease hls
  obtain rfl := mem_unique hse₀ hse
  exact ⟨hls, hep ▸ hle⟩

/-! ### Whole runs -/

theorem recordAfter_append (volume : String) (pre mid : List SeatOp) :
    recordAfter volume (pre ++ mid) = run (step volume) (recordAfter volume pre) mid :=
  run_append ..

structure SeatLaw (volume : String) (ops : List SeatOp) : Prop where
  /-- A transaction leaves the seat alone, or it is a promotion: the epoch goes up by one and the
  seat to a registered candidate in sync. -/
  moves : ∀ pre op, pre ++ [op] <+: ops → ∀ seat, (recordAfter volume pre).seat = some seat →
    (recordAfter volume (pre ++ [op])).seat = some seat ∨
      Commits volume (recordAfter volume pre) op ∧
        Elected (recordAfter volume pre) seat op (recordAfter volume (pre ++ [op]))
  composer : ∀ pre mid, pre ++ mid <+: ops →
    ∀ seat later, (recordAfter volume pre).seat = some seat →
    (recordAfter volume (pre ++ mid)).seat = some later → later.epoch = seat.epoch →
    later.composer = seat.composer
  /-- Of the promotions that expect one epoch and composer, one commits. -/
  once : ∀ pre mid e c cand cand' now now',
    pre ++ .promoteVolume e c cand now :: mid ++ [.promoteVolume e c cand' now'] <+: ops →
    Commits volume (recordAfter volume pre) (.promoteVolume e c cand now) →
    ¬Commits volume (recordAfter volume (pre ++ .promoteVolume e c cand now :: mid))
      (.promoteVolume e c cand' now')
  /-- After the promotion that votes `a` out, and until a later grant, `a` cannot renew. -/
  deposed : ∀ pre mid e a cand now, pre ++ .promoteVolume e a cand now :: mid <+: ops →
    Commits volume (recordAfter volume pre) (.promoteVolume e a cand now) →
    (∀ op ∈ mid, ¬op.Reinstates a e) →
    (∀ expires, ¬Commits volume (recordAfter volume (pre ++ .promoteVolume e a cand now :: mid))
        (.leaseRenew a expires)) ∧
      ∀ lease, (recordAfter volume (pre ++ .promoteVolume e a cand now :: mid)).lease = some lease →
        lease.holder = a → (recordAfter volume pre).lease = some lease
  /-- Seating changes no seat, lease or mark that is there. -/
  seating : ∀ pre c now expires, pre ++ [.seatVolume c now expires] <+: ops →
    (∀ seat, (recordAfter volume pre).seat = some seat →
      (recordAfter volume (pre ++ [.seatVolume c now expires])).seat = some seat) ∧
    (∀ lease, (recordAfter volume pre).lease = some lease →
      (recordAfter volume (pre ++ [.seatVolume c now expires])).lease = some lease) ∧
    ∀ leg ∈ (recordAfter volume pre).legs,
      leg ∈ (recordAfter volume (pre ++ [.seatVolume c now expires])).legs

theorem commits_or_same (volume : String) (s : Record) (op : SeatOp) :
    Commits volume s op ∨ step volume s op = s := by
  unfold Commits step
  cases exec volume s op with
  | ok p => exact .inl rfl
  | error e => exact .inr rfl

theorem deposed_run {mid : List SeatOp} (hcld : Steps (step volume) (fun s op => op.Called s) s mid)
    (hmid : ∀ op ∈ mid, ¬op.Reinstates a e) (hs : Deposed a e old s) :
    Deposed a e old (run (step volume) s mid) := by
  induction mid generalizing s with
  | nil => exact hs
  | cons op mid ih =>
    refine ih hcld.2 (fun x hx => hmid x (.tail op hx)) ?_
    exact (step_change volume s op).deposed hcld.1 (hmid op (.head _)) hs

theorem ordered_run {ops : List SeatOp}
    (hcld : Steps (step volume) (fun s op => op.Called s) .empty ops) :
    Ordered (recordAfter volume ops) := by
  refine run_invariant_of_steps (P := Ordered) ?_ ?_ hcld
  · intro s op hs hop
    exact (step_change volume s op).ordered hop hs
  · intro lease hls
    cases hls

theorem seatVolume_keeps (volume : String) (s : Record) (c : String) (now expires : Int) :
    (∀ seat, s.seat = some seat → (step volume s (.seatVolume c now expires)).seat = some seat) ∧
      (∀ lease, s.lease = some lease →
        (step volume s (.seatVolume c now expires)).lease = some lease) ∧
      ∀ leg ∈ s.legs, leg ∈ (step volume s (.seatVolume c now expires)).legs := by
  generalize hop : SeatOp.seatVolume c now expires = op
  have hch := step_change volume s op
  generalize step volume s op = s' at hch ⊢
  cases hch with
  | nothing => exact ⟨fun _ h => h, fun _ h => h, fun _ h => h⟩
  | seated composer now₀ expires₀ hno =>
    refine ⟨fun seat h => absurd h (by rw [hno]; simp), fun lease h => ?_, fun leg h => ?_⟩
    · change some (s.lease.getD _) = some lease
      rw [h]
      rfl
    · exact KeyedTable.mem_insertOrIgnore.mpr (.inl h)
  | promoted | granted | renewed | dropped | marked | registered => cases hop

/-- **Seats move by election only, and a deposed composer never renews.** -/
theorem seats_move_by_election (volume : String) (ops : List SeatOp)
    (hcld : Steps (step volume) (fun s op => op.Called s) .empty ops) :
    SeatLaw volume ops where
  moves := by
    intro pre op _ seat hse
    rw [recordAfter_append]
    change (step volume _ op).seat = _ ∨ _ ∧ Elected _ seat op (step volume _ op)
    cases commits_or_same volume (recordAfter volume pre) op with
    | inr hsm =>
      rw [hsm]
      exact .inl hse
    | inl hcommits =>
      cases (step_change volume _ op).seat hse with
      | inl hstd => exact .inl hstd
      | inr helec => exact .inr ⟨hcommits, helec⟩
  composer := by
    intro pre mid _ seat later hse hlat hep
    rw [recordAfter_append] at hlat
    obtain ⟨x, hx, -, hsm⟩ := seat_grows volume mid hse
    obtain rfl := mem_unique hx hlat
    rw [hsm hep]
  once := by
    intro pre mid e c cand cand' now now' _ hfst hsec
    obtain ⟨seat, -, -, -, -, hte⟩ := commits_promote hfst
    -- the epoch is past `e` when the second one is tried
    have hnx : (step volume (recordAfter volume pre) (.promoteVolume e c cand now)).seat =
        some ⟨e + 1, cand, now⟩ := by rw [hte]
    obtain ⟨later, hlat, hle, -⟩ := seat_grows volume mid hnx
    obtain ⟨seat', hse', hep, -⟩ := commits_promote hsec
    rw [recordAfter_append] at hse'
    obtain rfl := mem_unique hlat hse'
    change e + 1 ≤ later.epoch at hle
    omega
  deposed := by
    intro pre mid e a cand now hprefix hcommits hmid
    obtain ⟨post, rfl⟩ := hprefix
    have hspl := (steps_append.mp hcld).1
    obtain ⟨hpre, -, hrs⟩ := steps_append.mp hspl
    have hst := deposed_of_promote (ordered_run hpre) hcommits
    have hend := deposed_run hrs hmid hst
    rw [recordAfter_append]
    exact ⟨fun expires => hend.refused, fun lease hls hhol => (hend.lease lease hls hhol).1⟩
  seating := by
    intro pre c now expires _
    rw [recordAfter_append]
    exact seatVolume_keeps volume _ c now expires

/-- Target `a` is seated, `b` is elected, then `a` again; `a` tries to renew before it is granted
the lease of its new epoch, and after. -/
def reelection : List SeatOp :=
  [.targetRegister "a" "10.0.0.1" 4420 0, .targetRegister "b" "10.0.0.2" 4420 0,
    .seatVolume "a" 1 100, .legMark "b" "insync" 2, .promoteVolume 1 "a" "b" 3,
    .promoteVolume 2 "b" "a" 4, .leaseRenew "a" 200, .leaseGrant 3 "a" 300, .leaseRenew "a" 400]

theorem reelection_lawful :
    SeatLaw "v" reelection ∧ ¬Commits "v" (recordAfter "v" (reelection.take 6))
      (.leaseRenew "a" 200) ∧
      Commits "v" (recordAfter "v" (reelection.take 8)) (.leaseRenew "a" 400) := by
  refine ⟨seats_move_by_election "v" reelection ?_, by decide, by decide⟩
  exact ⟨trivial, trivial, trivial, trivial, trivial, trivial, trivial,
    ⟨⟨3, "a", 4⟩, by decide, rfl, rfl⟩, trivial, trivial⟩

end Flint.Seat
