import Mathlib.Data.UInt

/-!
# The slots of a session

A slot stores the sequence id of the last request accepted on it and at most one reply.
`processSequence` decides whether a request is new, a resend or out of order; `cacheResponse`
attaches the encoded reply, by the number of the slot alone.
-/

namespace Flint.Slots

abbrev Bytes := List UInt8

def maxSlots : UInt32 := 128

inductive SeqStatus
  | new
  /-- A resend of the last request accepted, with its reply where one is cached. -/
  | replay (cached : Option Bytes)
  | misordered
deriving DecidableEq

structure Slot where
  sequenceId : UInt32
  cachedResponse : Option Bytes

def Slot.new : Slot := ⟨0, none⟩

structure Session where
  foreChanMaxresponsesizeCached : UInt32
  foreChanMaxrequests : UInt32
  slots : List Slot
  highestSlotid : UInt32

def slotCount (maxRequests : UInt32) : UInt32 := min (max maxRequests 1) maxSlots

def Session.new (maxResponseCached maxRequests : UInt32) : Session where
  foreChanMaxresponsesizeCached := maxResponseCached
  foreChanMaxrequests := slotCount maxRequests
  slots := List.replicate (slotCount maxRequests).toNat Slot.new
  highestSlotid := 0

def Session.advance (s : Session) (slotId sequenceId : UInt32) : Session :=
  { s with
    slots := s.slots.set slotId.toNat ⟨sequenceId, none⟩
    highestSlotid := max s.highestSlotid slotId }

def Session.processSequence (s : Session) (slotId sequenceId : UInt32) :
    Except String SeqStatus × Session :=
  match s.slots[slotId.toNat]? with
  | none => (.error "Slot ID out of range", s)
  | some slot =>
    -- the first use of a slot has sequence id 1; after a wrap this arm is the one below again
    if slot.sequenceId = 0 ∧ sequenceId = 1 then
      (.ok .new, s.advance slotId 1)
    else if sequenceId = slot.sequenceId then
      (.ok (.replay slot.cachedResponse), s)
    else if sequenceId = slot.sequenceId + 1 then
      (.ok .new, s.advance slotId sequenceId)
    else
      (.ok .misordered, s)

/-- Attach the reply of a finished compound to a slot. A reply above the negotiated size is not
cached. -/
def Session.cacheResponse (s : Session) (slotId : UInt32) (response : Bytes) : Session :=
  if s.foreChanMaxresponsesizeCached.toNat < response.length then
    s
  else
    { s with slots := s.slots.modify slotId.toNat fun slot =>
        { slot with cachedResponse := some response } }

/-! ### What the two functions do -/

@[simp] theorem getElem?_slots_new {maxCached maxRequests : UInt32} {k : ℕ} {slot : Slot} :
    (Session.new maxCached maxRequests).slots[k]? = some slot ↔
      k < (slotCount maxRequests).toNat ∧ Slot.new = slot := by
  simp [Session.new, List.getElem?_replicate]

variable {s : Session} {slotId sequenceId : UInt32}

theorem processSequence_new {s' : Session}
    (h : s.processSequence slotId sequenceId = (.ok .new, s')) :
    ∃ slot, s.slots[slotId.toNat]? = some slot ∧ sequenceId = slot.sequenceId + 1 ∧
      s' = s.advance slotId sequenceId := by
  unfold Session.processSequence at h
  split at h
  · cases h
  · next slot hsl =>
    refine ⟨slot, hsl, ?_⟩
    split at h
    · next hfst =>
      obtain ⟨hz, rfl⟩ := hfst
      cases h
      exact ⟨by rw [hz]; rfl, rfl⟩
    · split at h
      · cases h
      · split at h
        · next hnx =>
          cases h
          exact ⟨hnx, rfl⟩
        · cases h

theorem processSequence_of_ne_new {s' : Session} {answer : Except String SeqStatus}
    (h : s.processSequence slotId sequenceId = (answer, s')) (hne : answer ≠ .ok .new) :
    s' = s := by
  unfold Session.processSequence at h
  split at h
  · cases h
    rfl
  · split_ifs at h
    all_goals cases h
    · exact absurd rfl hne
    · rfl
    · exact absurd rfl hne
    · rfl

theorem processSequence_replay {cached : Option Bytes}
    (h : (s.processSequence slotId sequenceId).1 = .ok (.replay cached)) :
    ∃ slot, s.slots[slotId.toNat]? = some slot ∧ sequenceId = slot.sequenceId ∧
      slot.cachedResponse = cached := by
  unfold Session.processSequence at h
  split at h
  · cases h
  · next slot hsl =>
    refine ⟨slot, hsl, ?_⟩
    split_ifs at h with hfst hsm hnx
    · cases h
    · cases h
      exact ⟨hsm, rfl⟩
    · cases h
    · cases h

theorem getElem?_slots_advance {k : ℕ} {slot : Slot}
    (h : (s.advance slotId sequenceId).slots[k]? = some slot) :
    (k = slotId.toNat ∧ slot = ⟨sequenceId, none⟩) ∨
      (k ≠ slotId.toNat ∧ s.slots[k]? = some slot) := by
  rw [Session.advance, List.getElem?_set] at h
  by_cases hk : slotId.toNat = k
  · rw [if_pos hk] at h
    split at h
    · cases h
      exact .inl ⟨hk.symm, rfl⟩
    · cases h
  · rw [if_neg hk] at h
    exact .inr ⟨Ne.symm hk, h⟩

theorem getElem?_slots_cacheResponse {response : Bytes} {k : ℕ} {slot : Slot}
    (h : (s.cacheResponse slotId response).slots[k]? = some slot) :
    ∃ old, s.slots[k]? = some old ∧ slot.sequenceId = old.sequenceId ∧
      (slot = old ∨ k = slotId.toNat ∧ slot.cachedResponse = some response ∧
        response.length ≤ s.foreChanMaxresponsesizeCached.toNat) := by
  unfold Session.cacheResponse at h
  split at h
  · exact ⟨slot, h, rfl, .inl rfl⟩
  · next hfits =>
    rw [List.getElem?_modify] at h
    obtain ⟨old, hold, heq⟩ := Option.map_eq_some_iff.mp h
    refine ⟨old, hold, ?_⟩
    by_cases hk : slotId.toNat = k
    · rw [if_pos hk] at heq
      subst heq
      exact ⟨rfl, .inr ⟨hk.symm, rfl, Nat.not_lt.mp hfits⟩⟩
    · rw [if_neg hk] at heq
      subst heq
      exact ⟨rfl, .inl rfl⟩

end Flint.Slots
