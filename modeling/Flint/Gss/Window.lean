import Mathlib.Order.Lattice

/-!
# The replay window of a security context

The context keeps the largest sequence number it has taken and a bitmap of the last 128: bit `d` is
for the number that is `d` below the largest. `Tracks` says that its bits are the numbers that were
taken.
-/

namespace Flint.Gss

open List

def maxSeq : ℕ := 0x80000000

structure GssContext where
  sequenceWindow : ℕ
  lastSeqNum : ℕ
  seqBitmap : BitVec 128

def GssContext.new : GssContext := ⟨128, 0, 0⟩

variable (c : GssContext)

def verifySequence (seq : ℕ) : GssContext × Bool :=
  if maxSeq ≤ seq then (c, false)
  else if c.lastSeqNum < seq then
    let diff := seq - c.lastSeqNum
    -- a shift by the whole width is refused, and leaves nothing
    let shifted := if diff < c.sequenceWindow ∧ diff < 128 then c.seqBitmap <<< diff else 0
    ({ c with seqBitmap := shifted ||| 1#128, lastSeqNum := seq }, true)
  else
    let diff := c.lastSeqNum - seq
    let mask := 1#128 <<< diff
    if c.sequenceWindow ≤ diff then (c, false)
    else if c.seqBitmap &&& mask ≠ 0 then (c, false)
    else ({ c with seqBitmap := c.seqBitmap ||| mask }, true)

def receive (s : GssContext × List ℕ) (seq : ℕ) : GssContext × List ℕ :=
  ((verifySequence s.1 seq).1, if (verifySequence s.1 seq).2 then seq :: s.2 else s.2)

def received (seqs : List ℕ) : GssContext × List ℕ := seqs.foldl receive (.new, [])

def largest (taken : List ℕ) : ℕ := taken.foldr max 0

structure Tracks (c : GssContext) (taken : List ℕ) : Prop where
  window : c.sequenceWindow = 128
  last : c.lastSeqNum = largest taken
  le_last : ∀ n ∈ taken, n ≤ c.lastSeqNum
  bits : ∀ d < 128, d ≤ c.lastSeqNum → (c.seqBitmap.getLsbD d ↔ c.lastSeqNum - d ∈ taken)
  nodup : taken.Nodup

variable {c} {taken : List ℕ}

theorem getLsbD_mask {d diff : ℕ} (hd : d < 128) :
    (1#128 <<< diff).getLsbD d = decide (d = diff) := by
  rw [BitVec.getLsbD_shiftLeft, BitVec.getLsbD_one]
  grind

theorem and_mask_eq_zero {b : BitVec 128} {diff : ℕ} (hdiff : diff < 128) :
    b &&& 1#128 <<< diff = 0 ↔ b.getLsbD diff = false := by
  rw [BitVec.eq_of_getLsbD_eq_iff]
  constructor
  · intro h
    simpa [getLsbD_mask hdiff] using h diff hdiff
  · intro h d hd
    by_cases heq : d = diff
    · simp [heq, h]
    · simp [getLsbD_mask hd, heq]

theorem Tracks.advance (h : Tracks c taken) {seq : ℕ} (hlt : c.lastSeqNum < seq) :
    Tracks { c with
        seqBitmap := (if seq - c.lastSeqNum < c.sequenceWindow ∧ seq - c.lastSeqNum < 128 then
          c.seqBitmap <<< (seq - c.lastSeqNum) else 0) ||| 1#128
        lastSeqNum := seq } (seq :: taken) := by
  have hnew : seq ∉ taken := fun hmem => (h.le_last seq hmem).not_gt hlt
  refine ⟨h.window, ?_, ?_, ?_, nodup_cons.mpr ⟨hnew, h.nodup⟩⟩
  · rw [largest, foldr_cons, ← largest, ← h.last]
    exact (max_eq_left hlt.le).symm
  · exact forall_mem_cons.mpr ⟨le_rfl, fun n hn => (h.le_last n hn).trans hlt.le⟩
  · intro d hd (hle : d ≤ seq)
    -- what lies between the two largest numbers has not been taken
    have hgap : d < seq - c.lastSeqNum → seq - d ∉ taken := fun hd hmem => by
      have := h.le_last _ hmem
      omega
    have hold : seq - c.lastSeqNum ≤ d →
        (c.seqBitmap.getLsbD (d - (seq - c.lastSeqNum)) ↔ seq - d ∈ taken) := fun hge => by
      have := h.bits (d - (seq - c.lastSeqNum)) (by omega) (by omega)
      rwa [show c.lastSeqNum - (d - (seq - c.lastSeqNum)) = seq - d by omega] at this
    have hsf : seq - d = seq ↔ d = 0 := by omega
    rw [BitVec.getLsbD_or, h.window, mem_cons, hsf]
    split
    · rw [BitVec.getLsbD_shiftLeft, BitVec.getLsbD_one]
      grind
    · rw [BitVec.getLsbD_one]
      grind

theorem Tracks.mark (h : Tracks c taken) {seq : ℕ} (hle : seq ≤ c.lastSeqNum) (hnew : seq ∉ taken) :
    Tracks { c with seqBitmap := c.seqBitmap ||| 1#128 <<< (c.lastSeqNum - seq) }
      (seq :: taken) := by
  refine ⟨h.window, ?_, forall_mem_cons.mpr ⟨hle, h.le_last⟩, ?_, nodup_cons.mpr ⟨hnew, h.nodup⟩⟩
  · rw [largest, foldr_cons, ← largest, ← h.last]
    exact (max_eq_right hle).symm
  · intro d hd (hd' : d ≤ c.lastSeqNum)
    have hsf : c.lastSeqNum - d = seq ↔ d = c.lastSeqNum - seq := by omega
    rw [BitVec.getLsbD_or, getLsbD_mask hd, mem_cons, hsf, ← h.bits d hd hd']
    simp [or_comm]

theorem Tracks.step (h : Tracks c taken) (seq : ℕ) :
    ((verifySequence c seq).2 ↔ seq < maxSeq ∧ seq ∉ taken ∧
      (largest taken < seq ∨ seq ≤ largest taken ∧ largest taken - seq < 128)) ∧
    Tracks (receive (c, taken) seq).1 (receive (c, taken) seq).2 := by
  rw [← h.last]
  unfold receive verifySequence
  by_cases hmax : maxSeq ≤ seq
  · rw [if_pos hmax]
    exact ⟨by simp [hmax.not_gt], h⟩
  by_cases hlt : c.lastSeqNum < seq
  · rw [if_neg hmax, if_pos hlt]
    have hnew : seq ∉ taken := fun hmem => (h.le_last seq hmem).not_gt hlt
    exact ⟨by simp [not_le.mp hmax, hnew, hlt], h.advance hlt⟩
  have hle := not_lt.mp hlt
  rw [if_neg hmax, if_neg hlt]
  dsimp only
  by_cases hold : c.sequenceWindow ≤ c.lastSeqNum - seq
  · rw [if_pos hold]
    rw [h.window] at hold
    exact ⟨by simp [hlt, hold.not_gt], h⟩
  have hdiff : c.lastSeqNum - seq < 128 := h.window ▸ not_le.mp hold
  have hbit := h.bits _ hdiff (Nat.sub_le ..)
  rw [Nat.sub_sub_self hle] at hbit
  by_cases hmem : seq ∈ taken
  · rw [if_neg hold, if_pos (by rw [Ne, and_mask_eq_zero hdiff, hbit.mpr hmem]; simp)]
    exact ⟨by simp [hmem], h⟩
  · have hclr := Bool.eq_false_iff.mpr (mt hbit.mp hmem)
    rw [if_neg hold, if_neg (by rw [Ne, and_mask_eq_zero hdiff]; simpa using hclr)]
    exact ⟨by simp [not_le.mp hmax, hmem, hle, hdiff], h.mark hle hmem⟩

/-- **The replay window is exact.** A number is taken when it is below the bound, has not been taken
before, and is above the largest one taken or less than 128 below it. -/
theorem verifySequence_exact (seqs : List ℕ) : (received seqs).2.Nodup ∧
    ∀ seq, (verifySequence (received seqs).1 seq).2 ↔
      seq < maxSeq ∧ seq ∉ (received seqs).2 ∧
        (largest (received seqs).2 < seq ∨
          seq ≤ largest (received seqs).2 ∧ largest (received seqs).2 - seq < 128) := by
  have hrun : ∀ s : GssContext × List ℕ, Tracks s.1 s.2 →
      Tracks (seqs.foldl receive s).1 (seqs.foldl receive s).2 := by
    induction seqs with
    | nil => exact fun s hs => hs
    | cons seq seqs ih => exact fun s hs => ih _ (hs.step seq).2
  have htracks := hrun (.new, []) ⟨rfl, rfl, by simp, by simp [GssContext.new], nodup_nil⟩
  exact ⟨htracks.nodup, fun seq => (htracks.step seq).1⟩

end Flint.Gss
