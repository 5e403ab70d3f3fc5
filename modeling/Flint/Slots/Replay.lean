import Flint.Basic.Outcome
import Flint.Slots.Session

/-!
# Resends and late replies

The reply to a request is attached to its slot when the compound has run. `Server` is the session
with the history of the requests it accepted. Their numbers modulo 2 ^ 32 are the sequence ids
(`Numbered`).

A slot has room for one reply and does not store whose it is. As long as replies are attached before
the next request on their slot is accepted, the cached reply is that of the last request accepted
(`Attached`). A later one overwrites that of the newer request.
-/

namespace Flint.Slots

open Outcome List

structure Accepted where
  slotId : UInt32
  sequenceId : UInt32
  reply : Option Bytes
deriving DecidableEq

structure Server where
  session : Session
  accepted : List Accepted

variable (maxResponseCached maxRequests : UInt32)

def Server.new : Server := ⟨.new maxResponseCached maxRequests, []⟩

inductive Event
  | sequence (slotId sequenceId : UInt32)
  /-- The `n`-th accepted request has its reply, which is attached to the slot of the request. -/
  | reply (n : ℕ) (response : Bytes)

/-- A SEQUENCE that is new enters the history. A request is replied to once. -/
def Server.step (st : Server) : Event → Server
  | .sequence slotId sequenceId =>
    match st.session.processSequence slotId sequenceId with
    | (.ok .new, session) => ⟨session, st.accepted ++ [⟨slotId, sequenceId, none⟩]⟩
    | (_, session) => { st with session }
  | .reply n response =>
    match st.accepted[n]? with
    | some ⟨slotId, sequenceId, none⟩ =>
      ⟨st.session.cacheResponse slotId response,
        st.accepted.set n ⟨slotId, sequenceId, some response⟩⟩
    | _ => st

def serverAfter (events : List Event) : Server :=
  run Server.step (.new maxResponseCached maxRequests) events

def Server.news (st : Server) (slotId : UInt32) : List Accepted :=
  st.accepted.filter fun a => a.slotId = slotId

def Server.latest (st : Server) (slotId sequenceId : UInt32) : Option Accepted :=
  ((st.news slotId).filter fun a => a.sequenceId = sequenceId).getLast?

/-- A reply is prompt if the slot of its request has not moved on when the reply is attached, or if
it is too large to be attached. Nothing is asked of an arriving SEQUENCE. -/
def Event.Prompt (st : Server) : Event → Prop
  | .sequence _ _ => True
  | .reply n response =>
    ∀ a, st.accepted[n]? = some a →
      (∀ b ∈ st.accepted.drop (n + 1), b.slotId ≠ a.slotId) ∨
        st.session.foreChanMaxresponsesizeCached.toNat < response.length

inductive Change (st : Server) : Event → Server → Prop
  | same (event : Event) : Change st event st
  | accept {slotId sequenceId : UInt32} (slot : Slot)
      (hsl : st.session.slots[slotId.toNat]? = some slot)
      (hseq : sequenceId = slot.sequenceId + 1) :
      Change st (.sequence slotId sequenceId)
        ⟨st.session.advance slotId sequenceId, st.accepted ++ [⟨slotId, sequenceId, none⟩]⟩
  | attach {n : ℕ} {slotId sequenceId : UInt32} (response : Bytes)
      (hn : st.accepted[n]? = some ⟨slotId, sequenceId, none⟩) :
      Change st (.reply n response)
        ⟨st.session.cacheResponse slotId response,
          st.accepted.set n ⟨slotId, sequenceId, some response⟩⟩

theorem Server.change (st : Server) (event : Event) : Change st event (st.step event) := by
  cases event with
  | sequence slotId sequenceId =>
    show Change st _ (match st.session.processSequence slotId sequenceId with
      | (.ok .new, session) => ⟨session, st.accepted ++ [⟨slotId, sequenceId, none⟩]⟩
      | (_, session) => { st with session })
    split
    · next session hnew =>
      obtain ⟨slot, hsl, hseq, rfl⟩ := processSequence_new hnew
      exact .accept slot hsl hseq
    · next answer session hoth heq =>
      obtain rfl := processSequence_of_ne_new heq hoth
      exact .same _
  | reply n response =>
    show Change st _ (match st.accepted[n]? with
      | some ⟨slotId, sequenceId, none⟩ =>
        ⟨st.session.cacheResponse slotId response,
          st.accepted.set n ⟨slotId, sequenceId, some response⟩⟩
      | _ => st)
    split
    · next slotId sequenceId hn => exact .attach response hn
    · exact .same _

/-! ### The numbering of the requests on a slot -/

/-- The requests accepted on a slot have the sequence ids 1, 2, … modulo 2 ^ 32 in order. -/
structure Numbered (st : Server) : Prop where
  /-- The sequence id of a slot is the number of requests accepted on it. -/
  slot : ∀ (k : UInt32) (slot : Slot), st.session.slots[k.toNat]? = some slot →
    slot.sequenceId = UInt32.ofNat (st.news k).length
  ids : ∀ k : UInt32, (st.news k).map Accepted.sequenceId =
    (range (st.news k).length).map fun i => UInt32.ofNat (i + 1)

theorem news_accept (st : Server) (session : Session) (a : Accepted) (k : UInt32) :
    Server.news ⟨session, st.accepted ++ [a]⟩ k =
      if a.slotId = k then st.news k ++ [a] else st.news k := by
  unfold Server.news
  rw [filter_append]
  by_cases hk : a.slotId = k
  · simp [hk]
  · simp [hk]

variable {st : Server} {a : Accepted}

theorem news_of_split {pre post : List Accepted} (h : st.accepted = pre ++ a :: post) (k : UInt32) :
    st.news k = pre.filter (fun b => b.slotId = k) ++
      ((if a.slotId = k then [a] else []) ++ post.filter fun b => b.slotId = k) := by
  unfold Server.news
  rw [h, filter_append, filter_cons]
  by_cases hk : a.slotId = k
  · simp [hk]
  · simp [hk]

variable {n : ℕ}

theorem accepted_split {l : List Accepted} (h : l[n]? = some a) (a' : Accepted) :
    l = l.take n ++ a :: l.drop (n + 1) ∧ l.set n a' = l.take n ++ a' :: l.drop (n + 1) := by
  obtain ⟨hlt, rfl⟩ := List.getElem?_eq_some_iff.mp h
  constructor
  · rw [← drop_eq_getElem_cons hlt, take_append_drop]
  · exact set_eq_take_append_cons_drop.trans (if_pos hlt)

theorem ids_attach {slotId sequenceId : UInt32} {reply : Option Bytes} (session : Session)
    (response : Bytes) (hn : st.accepted[n]? = some ⟨slotId, sequenceId, reply⟩) (k : UInt32) :
    (Server.news ⟨session, st.accepted.set n ⟨slotId, sequenceId, some response⟩⟩ k).map
      Accepted.sequenceId = (st.news k).map Accepted.sequenceId := by
  obtain ⟨hold, hnew⟩ := accepted_split hn ⟨slotId, sequenceId, some response⟩
  rw [news_of_split hold, news_of_split hnew]
  simp only [map_append]
  by_cases hk : slotId = k
  · rw [if_pos hk, if_pos hk]
    rfl
  · rw [if_neg hk, if_neg hk]

theorem Numbered.new : Numbered (.new maxResponseCached maxRequests) where
  slot k slot hsl := by
    obtain ⟨-, rfl⟩ := getElem?_slots_new.mp hsl
    rfl
  ids k := rfl

theorem Numbered.step (h : Numbered st) (event : Event) : Numbered (st.step event) := by
  have hch := st.change event
  generalize st.step event = st' at hch ⊢
  cases hch with
  | same => exact h
  | @accept slotId sequenceId slot hsl hseq =>
    -- the request gets the number after those of the slot's history
    have hnumber : sequenceId = UInt32.ofNat ((st.news slotId).length + 1) := by
      rw [hseq, h.slot slotId slot hsl, UInt32.ofNat_add]
      rfl
    constructor
    · intro k slot' hsl'
      rw [news_accept]
      rcases getElem?_slots_advance hsl' with ⟨hk, rfl⟩ | ⟨hk, hold⟩
      · obtain rfl : k = slotId := UInt32.toNat_inj.mp hk
        rw [if_pos rfl, length_append]
        exact hnumber
      · rw [if_neg fun heq => hk (congrArg UInt32.toNat heq.symm)]
        exact h.slot k slot' hold
    · intro k
      rw [news_accept]
      by_cases hk : slotId = k
      · subst hk
        rw [if_pos rfl, length_append, map_append, h.ids, length_singleton, range_succ, map_append]
        exact congrArg (_ ++ [·]) hnumber
      · rw [if_neg hk]
        exact h.ids k
  | @attach n slotId sequenceId response hn =>
    have hids := ids_attach (st.session.cacheResponse slotId response) response hn
    have hleng : ∀ k, (Server.news ⟨st.session.cacheResponse slotId response,
        st.accepted.set n ⟨slotId, sequenceId, some response⟩⟩ k).length = (st.news k).length := by
      intro k
      have hlen := congrArg length (hids k)
      rwa [length_map, length_map] at hlen
    constructor
    · intro k slot hsl
      obtain ⟨old, hold, hseq, -⟩ := getElem?_slots_cacheResponse hsl
      rw [hseq, hleng]
      exact h.slot k old hold
    · intro k
      rw [hids, hleng]
      exact h.ids k

theorem numbered_run (events : List Event) :
    Numbered (serverAfter maxResponseCached maxRequests events) :=
  run_invariant (fun _ event h => h.step event) (.new _ _) events

/-! ### The reply cached in a slot -/

/-- The reply a slot has cached is that of the last request accepted on it. -/
def Attached (st : Server) : Prop :=
  ∀ (k : UInt32) (slot : Slot) (response : Bytes), st.session.slots[k.toNat]? = some slot →
    slot.cachedResponse = some response →
      ∃ a, (st.news k).getLast? = some a ∧ a.reply = some response

theorem Attached.new : Attached (.new maxResponseCached maxRequests) := by
  intro k slot response hsl hcch
  obtain ⟨-, rfl⟩ := getElem?_slots_new.mp hsl
  cases hcch

variable {k : UInt32}

theorem getLast?_news_attach {slotId sequenceId : UInt32} (session : Session) (response : Bytes)
    (hn : st.accepted[n]? = some ⟨slotId, sequenceId, none⟩) (hla : (st.news k).getLast? = some a)
    (hrpl : a.reply ≠ none) :
    (Server.news ⟨session, st.accepted.set n ⟨slotId, sequenceId, some response⟩⟩ k).getLast? =
      some a := by
  obtain ⟨hold, hnew⟩ := accepted_split hn ⟨slotId, sequenceId, some response⟩
  rw [news_of_split hold] at hla
  rw [news_of_split hnew]
  by_cases hk : slotId = k
  · rw [if_pos hk] at hla ⊢
    -- the last of the slot has a reply and request `n` has none, so the last comes after it
    cases hpost : (st.accepted.drop (n + 1)).filter fun b => b.slotId = k with
    | nil =>
      rw [hpost, append_nil, getLast?_concat] at hla
      cases hla
      exact absurd rfl hrpl
    | cons b post =>
      rw [hpost, getLast?_append_of_ne_nil _ (by simp),
        getLast?_append_of_ne_nil _ (by simp)] at hla
      rw [getLast?_append_of_ne_nil _ (by simp), getLast?_append_of_ne_nil _ (by simp)]
      exact hla
  · rw [if_neg hk] at hla ⊢
    exact hla

theorem Attached.step (h : Attached st) {event : Event} (hprompt : event.Prompt st) :
    Attached (st.step event) := by
  have hch := st.change event
  generalize st.step event = st' at hch ⊢
  cases hch with
  | same => exact h
  | @accept slotId sequenceId slot hsl hseq =>
    intro k slot' response hsl' hcch
    rcases getElem?_slots_advance hsl' with ⟨hk, rfl⟩ | ⟨hk, hold⟩
    · cases hcch
    · rw [news_accept, if_neg fun heq => hk (congrArg UInt32.toNat heq.symm)]
      exact h k slot' response hold hcch
  | @attach n slotId sequenceId response hn =>
    intro k slot cached hsl hcch
    obtain ⟨old, hold, -, hcase⟩ := getElem?_slots_cacheResponse hsl
    rcases hcase with rfl | ⟨hk, hattached, hfits⟩
    · -- the slot has the reply it had
      obtain ⟨a, hla, hrpl⟩ := h k slot cached hold hcch
      refine ⟨a, getLast?_news_attach _ response hn hla ?_, hrpl⟩
      rw [hrpl]
      exact Option.some_ne_none _
    · -- the slot has this reply, and no request on it was accepted after request `n`
      obtain rfl : k = slotId := UInt32.toNat_inj.mp hk
      obtain rfl : response = cached := Option.mem_unique hattached hcch
      have hno : (st.accepted.drop (n + 1)).filter (fun b => b.slotId = k) = [] := by
        rcases hprompt _ hn with hlat | hlarge
        · exact filter_eq_nil_iff.mpr fun b hb => by simpa using hlat b hb
        · exact absurd hlarge (Nat.not_lt.mpr hfits)
      obtain ⟨-, hnew⟩ := accepted_split hn ⟨k, sequenceId, some response⟩
      refine ⟨⟨k, sequenceId, some response⟩, ?_, rfl⟩
      rw [news_of_split hnew, if_pos rfl, hno, append_nil, getLast?_concat]

theorem attached_run {maxResponseCached maxRequests : UInt32} {events : List Event}
    (h : Steps Server.step (fun st event => event.Prompt st)
      (.new maxResponseCached maxRequests) events) :
    Attached (serverAfter maxResponseCached maxRequests events) :=
  run_invariant_of_steps (fun _ _ hst hprompt => hst.step hprompt) (.new _ _) h

/-! ### Resends get their own reply, and ids return after all the others -/

theorem Numbered.sequenceId_eq (h : Numbered st) {i : ℕ} (ha : (st.news k)[i]? = some a) :
    a.sequenceId = UInt32.ofNat (i + 1) := by
  have hids := congrArg (·[i]?) (h.ids k)
  obtain ⟨hlt, rfl⟩ := List.getElem?_eq_some_iff.mp ha
  simpa [hlt] using hids

theorem Numbered.last (h : Numbered st) {slot : Slot}
    (hsl : st.session.slots[k.toNat]? = some slot) (hla : (st.news k).getLast? = some a) :
    a.sequenceId = slot.sequenceId := by
  obtain ⟨pre, hpre⟩ := getLast?_eq_some_iff.mp hla
  have hi : (st.news k)[pre.length]? = some a := by rw [hpre, getElem?_concat_length]
  rw [h.sequenceId_eq hi, h.slot k slot hsl, hpre, length_append]
  rfl

theorem Numbered.apart (h : Numbered st) {i j : ℕ} {b : Accepted} (ha : (st.news k)[i]? = some a)
    (hb : (st.news k)[j]? = some b) : a.sequenceId = b.sequenceId ↔ i % 2 ^ 32 = j % 2 ^ 32 := by
  rw [h.sequenceId_eq ha, h.sequenceId_eq hb, ← UInt32.toNat_inj, UInt32.toNat_ofNat',
    UInt32.toNat_ofNat']
  omega

/-- **Exactly once.** While replies are attached promptly, a resend answered from the cache gets the
reply of the most recent request accepted with its sequence id, which comes back after 2 ^ 32 - 1
others. -/
theorem resend_gets_own_reply (events : List Event) :
    (Steps Server.step (fun st event => event.Prompt st)
        (.new maxResponseCached maxRequests) events →
      ∀ (k s : UInt32) (response : Bytes),
        ((serverAfter maxResponseCached maxRequests events).session.processSequence k s).1 =
          .ok (.replay (some response)) →
        ∃ a, (serverAfter maxResponseCached maxRequests events).latest k s = some a ∧
          a.reply = some response) ∧
    ∀ (k : UInt32) (i j : ℕ) (a b : Accepted),
      i < j → ((serverAfter maxResponseCached maxRequests events).news k)[i]? = some a →
      ((serverAfter maxResponseCached maxRequests events).news k)[j]? = some b →
      a.sequenceId = b.sequenceId →
        2 ^ 32 - 1 ≤ j - i - 1 ∧
          ((∀ m c, i < m → m < j →
              ((serverAfter maxResponseCached maxRequests events).news k)[m]? = some c →
              c.sequenceId ≠ a.sequenceId) →
            j - i - 1 = 2 ^ 32 - 1) := by
  have hnum := numbered_run maxResponseCached maxRequests events
  generalize hst : serverAfter maxResponseCached maxRequests events = st at hnum ⊢
  constructor
  · intro hprompt k s response hreplay
    have hatt : Attached st := hst ▸ attached_run hprompt
    obtain ⟨slot, hsl, rfl, hcch⟩ := processSequence_replay hreplay
    obtain ⟨a, hla, hrpl⟩ := hatt k slot response hsl hcch
    refine ⟨a, ?_, hrpl⟩
    -- the last request on the slot has this id, so it is the most recent one with it
    have hid : a.sequenceId = slot.sequenceId := hnum.last hsl hla
    obtain ⟨pre, hpre⟩ := getLast?_eq_some_iff.mp hla
    rw [Server.latest, hpre, filter_append, filter_cons_of_pos (by simpa using hid),
      filter_nil, getLast?_concat]
  · intro k i j a b hij ha hb hids
    have hmod : i % 2 ^ 32 = j % 2 ^ 32 := (hnum.apart ha hb).mp hids
    have hfar : i + 2 ^ 32 ≤ j := by omega
    refine ⟨by omega, fun hbetween => ?_⟩
    -- otherwise the request 2 ^ 32 after the first lies between the two and has its id
    by_contra hmore
    have hlt : i + 2 ^ 32 < j := by omega
    obtain ⟨hjlt, -⟩ := List.getElem?_eq_some_iff.mp hb
    have hm : (st.news k)[i + 2 ^ 32]? = some (st.news k)[i + 2 ^ 32] :=
      getElem?_eq_getElem _
    refine hbetween (i + 2 ^ 32) _ (by omega) hlt hm ?_
    exact (hnum.apart hm ha).mpr (Nat.add_mod_right i (2 ^ 32))

def promptReplies : List Event := [.sequence 0 1, .reply 0 [10], .sequence 0 2, .reply 1 [20]]

/-- The resend of the second request gets the second reply. -/
theorem resend_of_second_request :
    ((serverAfter 1024 4 promptReplies).session.processSequence 0 2).1 = .ok (.replay (some [20])) ∧
      ∃ a, (serverAfter 1024 4 promptReplies).latest 0 2 = some a ∧ a.reply = some [20] := by
  refine ⟨by decide, (resend_gets_own_reply 1024 4 promptReplies).1 ?_ 0 2 [20] (by decide)⟩
  -- each reply belongs to the last request in the history
  refine ⟨trivial, fun a _ => .inl fun b hb => ?_, trivial, fun a _ => .inl fun b hb => ?_, trivial⟩
  · exact absurd (show b ∈ [] from hb) not_mem_nil
  · exact absurd (show b ∈ [] from hb) not_mem_nil

def lateReply : List Event := [.sequence 0 1, .sequence 0 2, .reply 0 [10]]

/-- The resend of the second request, which has no reply yet, gets the reply of the first. -/
theorem late_reply_answers_newer_request :
    ((serverAfter 1024 4 lateReply).session.processSequence 0 2).1 = .ok (.replay (some [10])) ∧
      (serverAfter 1024 4 lateReply).latest 0 2 = some ⟨0, 2, none⟩ ∧
      (serverAfter 1024 4 lateReply).latest 0 1 = some ⟨0, 1, some [10]⟩ := by
  decide

end Flint.Slots
