import Flint.Basic.Outcome
import Flint.Basic.Register

/-!
# The manifest of a barrier

At a barrier the hub writes a manifest of the tree, on the condition that the one in the bucket is
the one it wrote or read last. It remembers the digest of what it wrote, and a barrier that finds
the same tree writes nothing.

The answer to a PUT that took effect can be lost. After an error that is not one of the condition
the hub keeps what it remembers (`stale_digest_unchanged`).
-/

namespace Flint.Tier.Barrier

open Outcome Option Prod Function

variable {ε δ : Type}

structure Built (ε : Type) where
  entries : List ε
  beyondRpo : ℕ
  skippedSpecial : ℕ
deriving DecidableEq

structure Manifest (ε : Type) extends Built ε where
  version : ℕ
  seq : ℕ
  epoch : ℕ
  writtenUnix : ℕ

def manifestVersion : ℕ := 1

def Manifest.parse (m : Manifest ε) : Option (Manifest ε) :=
  if m.version = manifestVersion then some m else none

structure WriterState (δ : Type) where
  seq : ℕ := 0
  etag : Option ℕ := none
  lastDigest : Option δ := none

inductive StoreError
  | preconditionFailed | conflict | other

inductive Fate
  | done
  | fails (e : StoreError)
  /-- It takes effect if its condition holds, and the answer is an error all the same. -/
  | lost (e : StoreError)

inductive BarrierOutcome
  | wrote (seq beyondRpo skippedSpecial : ℕ)
  | unchanged (seq beyondRpo skippedSpecial : ℕ)
  | failed

/-- A manifest that does not parse is written over under its tag, from number 0. -/
def seed (bucket : Register (Manifest ε)) (answered : Bool) : WriterState δ :=
  match answered, bucket.read with
  | true, some (etag, m) => ⟨m.parse.elim 0 (·.seq), some etag, none⟩
  | _, _ => {}

def putWhole (bucket : Register (Manifest ε)) (condition : Option ℕ) (m : Manifest ε)
    (fate : Fate) :
    Register (Manifest ε) × Except StoreError ℕ :=
  match fate, decide (condition = bucket.read.map fst) with
  | .done, true => (bucket.put m, .ok (bucket.version + 1))
  | .done, false => (bucket, .error .preconditionFailed)
  | .lost e, true => (bucket.put m, .error e)
  | .lost e, false | .fails e, _ => (bucket, .error e)

structure Hub (ε δ : Type) where
  bucket : Register (Manifest ε)
  state : WriterState δ

structure Call (ε : Type) where
  epoch : ℕ
  now : ℕ
  built : Built ε
  fate : Fate
  reseeds : Bool

section Writer

variable [DecidableEq δ] (digest : Built ε → δ)

def Hub.manifest (h : Hub ε δ) (c : Call ε) : Manifest ε :=
  ⟨c.built, manifestVersion, h.state.seq + 1, c.epoch, c.now⟩

def writeAtBarrier (h : Hub ε δ) (c : Call ε) : Hub ε δ × BarrierOutcome :=
  if h.state.lastDigest = some (digest c.built) then
    (h, .unchanged h.state.seq c.built.beyondRpo c.built.skippedSpecial)
  else
    match putWhole h.bucket h.state.etag (h.manifest c) c.fate with
    | (bucket, .ok etag) =>
      (⟨bucket, (h.manifest c).seq, some etag, some (digest c.built)⟩,
        .wrote (h.manifest c).seq c.built.beyondRpo c.built.skippedSpecial)
    | (bucket, .error .other) => (⟨bucket, h.state⟩, .failed)
    | (bucket, .error _) => (⟨bucket, seed bucket c.reseeds⟩, .failed)

inductive Event (ε : Type)
  | barrier (c : Call ε)
  | restart (answered : Bool)

def step (h : Hub ε δ) : Event ε → Hub ε δ
  | .barrier c => (writeAtBarrier digest h c).1
  | .restart answered => ⟨h.bucket, seed h.bucket answered⟩

end Writer

def start (manifest : Option (Manifest ε)) (answered : Bool) : Hub ε δ :=
  ⟨.new manifest, seed (.new manifest) answered⟩

def BarrierOutcome.Describes (bucket : Register (Manifest ε)) (built : Built ε) :
    BarrierOutcome → Prop
  | .failed => True
  | .wrote seq beyondRpo skippedSpecial | .unchanged seq beyondRpo skippedSpecial =>
    beyondRpo = built.beyondRpo ∧ skippedSpecial = built.skippedSpecial ∧
      ∃ m, bucket.value = some m ∧ m.seq = seq ∧ m.toBuilt = built

def Truthful [DecidableEq δ] (digest : Built ε → δ) (h : Hub ε δ) : Prop :=
  ∀ c, (writeAtBarrier digest h c).2.Describes (writeAtBarrier digest h c).1.bucket c.built

def Advances (bucket bucket' : Register (Manifest ε)) : Prop :=
  bucket' = bucket ∨
    ∃ m', bucket' = bucket.put m' ∧ ∀ m, bucket.value.bind (·.parse) = some m → m.seq < m'.seq

/-- The answer to a write that takes effect is not lost to an error of another kind while a digest
is remembered. -/
def Answered (h : Hub ε δ) : Event ε → Prop
  | .barrier c => h.state.lastDigest = none ∨ c.fate ≠ .lost .other
  | .restart _ => True

/-! ### One barrier -/

inductive Sent (h : Hub ε δ) (c : Call ε) : Register (Manifest ε) → Prop
  | kept : Sent h c h.bucket
  | put (hcd : h.state.etag = h.bucket.read.map fst) : Sent h c (h.bucket.put (h.manifest c))

inductive Change (digest : Built ε → δ) (h : Hub ε δ) (c : Call ε) : Hub ε δ × BarrierOutcome → Prop
  | unchanged (hdigest : h.state.lastDigest = some (digest c.built)) : Change digest h c
      (h, .unchanged h.state.seq c.built.beyondRpo c.built.skippedSpecial)
  | wrote (hcd : h.state.etag = h.bucket.read.map fst) : Change digest h c
      (⟨h.bucket.put (h.manifest c), h.state.seq + 1, some (h.bucket.version + 1),
        some (digest c.built)⟩, .wrote (h.state.seq + 1) c.built.beyondRpo c.built.skippedSpecial)
  | failed {bucket : Register (Manifest ε)} (hsent : Sent h c bucket)
      (hkp : c.fate ≠ .lost .other → bucket = h.bucket) :
      Change digest h c (⟨bucket, h.state⟩, .failed)
  | reseeded {bucket : Register (Manifest ε)} (hsent : Sent h c bucket) :
      Change digest h c (⟨bucket, seed bucket c.reseeds⟩, .failed)

theorem putWhole_cases (h : Hub ε δ) (c : Call ε) :
    h.state.etag = h.bucket.read.map fst ∧
      putWhole h.bucket h.state.etag (h.manifest c) c.fate =
        (h.bucket.put (h.manifest c), .ok (h.bucket.version + 1)) ∨
      ∃ bucket e, Sent h c bucket ∧ (c.fate ≠ .lost e → bucket = h.bucket) ∧
        putWhole h.bucket h.state.etag (h.manifest c) c.fate = (bucket, .error e) := by
  unfold putWhole
  split
  · next heq => exact .inl ⟨of_decide_eq_true heq, rfl⟩
  · exact .inr ⟨_, _, .kept, fun _ => rfl, rfl⟩
  · next e hfate heq =>
    exact .inr ⟨_, e, .put (of_decide_eq_true heq), fun hlost => absurd hfate hlost, rfl⟩
  · exact .inr ⟨_, _, .kept, fun _ => rfl, rfl⟩
  · exact .inr ⟨_, _, .kept, fun _ => rfl, rfl⟩

theorem writeAtBarrier_change [DecidableEq δ] (digest : Built ε → δ) (h : Hub ε δ) (c : Call ε) :
    Change digest h c (writeAtBarrier digest h c) := by
  unfold writeAtBarrier
  split
  · next hdigest => exact .unchanged hdigest
  · rcases putWhole_cases h c with ⟨hcd, hput⟩ | ⟨bucket, e, hsent, hkp, hput⟩
    · rw [hput]
      exact .wrote hcd
    · rw [hput]
      cases e with
      | other => exact .failed hsent hkp
      | preconditionFailed | conflict => exact .reseeded hsent

/-- The tag that the hub has is of a manifest whose number it knows, or of one that is gone. -/
structure Guarded (h : Hub ε δ) : Prop where
  le_version : ∀ e, h.state.etag = some e → e ≤ h.bucket.version
  seq : ∀ m, h.bucket.value.bind (·.parse) = some m →
    h.state.etag = some h.bucket.version → m.seq = h.state.seq

def Remembers (digest : Built ε → δ) (h : Hub ε δ) : Prop :=
  ∀ d, h.state.lastDigest = some d →
    ∃ m, h.bucket.value = some m ∧ m.seq = h.state.seq ∧ digest m.toBuilt = d

theorem guarded_seed (bucket : Register (Manifest ε)) (answered : Bool) :
    Guarded (⟨bucket, seed bucket answered⟩ : Hub ε δ) := by
  unfold seed
  split
  · next etag m hrd =>
    obtain ⟨m', hm', heq⟩ := map_eq_some_iff.mp hrd
    cases heq
    refine ⟨fun e he => Nat.le_of_eq (some.inj he).symm, fun m hm _ => ?_⟩
    rw [hm', bind_some] at hm
    simp only [hm, elim_some]
  · exact ⟨nofun, nofun⟩

theorem remembers_seed (digest : Built ε → δ) (bucket : Register (Manifest ε)) (answered : Bool) :
    Remembers digest ⟨bucket, seed bucket answered⟩ := by
  unfold Remembers seed
  split <;> exact nofun

variable {digest : Built ε → δ} {h : Hub ε δ} {c : Call ε} {r : Hub ε δ × BarrierOutcome}

theorem Guarded.advances (hg : Guarded h) {bucket : Register (Manifest ε)}
    (hsent : Sent h c bucket) : Advances h.bucket bucket := by
  cases hsent with
  | kept => exact .inl rfl
  | put hcd =>
    refine .inr ⟨_, rfl, fun m hm => ?_⟩
    have het : h.state.etag = some h.bucket.version := by
      obtain ⟨_, hv, -⟩ := bind_eq_some_iff.mp hm
      rw [hcd, Register.read, hv]
      rfl
    rw [hg.seq m hm het]
    exact Nat.lt_succ_self _

theorem Guarded.change (hg : Guarded h) (hr : Change digest h c r) :
    Guarded r.1 ∧ Advances h.bucket r.1.bucket := by
  cases hr with
  | unchanged => exact ⟨hg, .inl rfl⟩
  | wrote hcd =>
    refine ⟨⟨fun e he => Nat.le_of_eq (some.inj he).symm, fun m hm _ => ?_⟩, hg.advances (.put hcd)⟩
    rw [← some.inj hm]
    rfl
  | failed hsent =>
    refine ⟨?_, hg.advances hsent⟩
    cases hsent with
    | kept => exact hg
    | put _ =>
      -- the tag in hand is of an earlier manifest now
      refine ⟨fun e he => Nat.le_succ_of_le (hg.le_version e he), fun _ _ he => ?_⟩
      exact absurd (hg.le_version _ he) (Nat.not_succ_le_self _)
  | reseeded hsent => exact ⟨guarded_seed _ _, hg.advances hsent⟩

theorem Remembers.change (hm : Remembers digest h) (hans : Answered h (.barrier c))
    (hr : Change digest h c r) : Remembers digest r.1 := by
  cases hr with
  | unchanged => exact hm
  | wrote =>
    rintro d hd
    exact ⟨_, rfl, rfl, some.inj hd⟩
  | failed _ hkp =>
    rcases hans with hno | hfate
    · exact fun d hd => nomatch hno.symm.trans hd
    · rw [hkp hfate]
      exact hm
  | reseeded => exact remembers_seed digest _ c.reseeds

theorem Remembers.describes (hm : Remembers digest h) (hinj : Injective digest)
    (hr : Change digest h c r) : r.2.Describes r.1.bucket c.built := by
  cases hr with
  | unchanged hdigest =>
    obtain ⟨m, hm, hseq, hd⟩ := hm _ hdigest
    exact ⟨rfl, rfl, m, hm, hseq, hinj hd⟩
  | wrote => exact ⟨rfl, rfl, _, rfl, rfl, rfl⟩
  | failed | reseeded => trivial

variable [DecidableEq δ]

theorem Guarded.step (hg : Guarded h) (event : Event ε) : Guarded (step digest h event) ∧
    Advances h.bucket (step digest h event).bucket := by
  cases event with
  | barrier c => exact hg.change (writeAtBarrier_change digest h c)
  | restart answered => exact ⟨guarded_seed _ answered, .inl rfl⟩

/-- **Barrier outcomes tell the truth**, in the runs in which no answer is lost while a digest is
remembered. In every run a manifest is replaced by one with a greater number, unless it is of a
version the hub does not read. -/
theorem barriers_truthful (hinj : Injective digest) (manifest : Option (Manifest ε))
    (answered : Bool) (events : List (Event ε)) :
    (∀ event, Advances (run (step digest) (start manifest answered) events).bucket
      (step digest (run (step digest) (start manifest answered) events) event).bucket) ∧
    (Steps (step digest) Answered (start manifest answered) events →
      Truthful digest (run (step digest) (start manifest answered) events)) := by
  constructor
  · have hg : Guarded (run (step digest) (start manifest answered) events) :=
      run_invariant (fun _ event hg => (hg.step event).1) (guarded_seed _ answered) events
    exact fun event => (hg.step event).2
  · intro hsts c
    have hm : Remembers digest (run (step digest) (start manifest answered) events) := by
      refine run_invariant_of_steps ?_ (remembers_seed digest _ answered) hsts
      rintro h (c | answered) hm hs
      · exact hm.change hs (writeAtBarrier_change digest h c)
      · exact remembers_seed digest _ answered
    exact hm.describes hinj (writeAtBarrier_change digest _ c)

def barrier (entries : List ℕ) (fate : Fate) : Event ℕ :=
  .barrier ⟨0, 0, ⟨entries, 0, 0⟩, fate, true⟩

theorem conflict_reseeds : Truthful id (run (step id) (start none true)
    [barrier [] .done, barrier [0] (.lost .conflict)]) :=
  (barriers_truthful (fun _ _ h => h) none true _).2 ⟨.inl rfl, .inr nofun, trivial⟩

/-- The manifest with the entry is in the bucket when the hub answers that the empty one is. -/
theorem stale_digest_unchanged : ¬Truthful id (run (step id) (start none true)
    [barrier [] .done, barrier [0] (.lost .other)]) := by
  intro h
  obtain ⟨-, -, m, hm, hseq, -⟩ := h ⟨0, 0, ⟨[], 0, 0⟩, .done, true⟩
  cases hm
  cases hseq

end Flint.Tier.Barrier
