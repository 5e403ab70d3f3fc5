import Flint.Basic.Dict
import Flint.Basic.Greedy
import Flint.Basic.Str

/-!
# Which share owns a bucket subtree

Two shares overlap when they are in one bucket and the prefix of one begins that of the other.
`admitMe` goes through the fleet by age and admits a share unless it overlaps one that is admitted
already. `AdmitTable` looks for an overlap at the prefix before the one in question and at those
that begin with it. The verdict of a share depends on the older ones only (`verdict_of_older`).

When a share comes or goes, the shares that overlap it are reconciled (`overlap_set`). But a share
that it kept out may keep out others in turn, which do not overlap it (`not_woken`).
-/

namespace Flint.Fleet

open Option hiding any_eq_false mem_map
open Greedy hiding add
open KeyedTable List SortedMap

@[ext] structure ShareKey where
  endpoint : Str
  bucket : Str
  keyPrefix : Str
deriving DecidableEq

structure Candidate where
  ns : Str
  name : Str
  uid : Str
  created : ℤ
  key : Option ShareKey
deriving DecidableEq

def Candidate.ref (c : Candidate) : Str := c.ns.dir.append c.name

def overlaps (a b : ShareKey) : Bool :=
  a.endpoint = b.endpoint && a.bucket = b.bucket &&
    (a.keyPrefix.startsWith b.keyPrefix || b.keyPrefix.startsWith a.keyPrefix)

inductive Admission
  | admitted
  | rejected (winner message : Str)
deriving DecidableEq

abbrev Owner := Candidate × ShareKey

/-- The order of the arbitration: by creation, then by uid, then by name. -/
def Candidate.age (c : Candidate) : ℤ ×ₗ Str ×ₗ Str := toLex (c.created, toLex (c.uid, c.ref))

def ordered (fleet : List Candidate) : List Owner :=
  (fleet.filterMap fun c => c.key.map (c, ·)).insertionSort fun a b => a.1.age ≤ b.1.age

def isMe (me c : Candidate) : Bool := if me.uid.isEmpty then c.ref = me.ref else c.uid = me.uid

def olderOwns (mine : ShareKey) (winner : Str) (w : ShareKey) : Str :=
  flatten (α := Char)
    ["bucket subtree s3://".toList, mine.bucket, ['/'], mine.keyPrefix, " (endpoint ".toList,
      if mine.endpoint.isEmpty then "aws".toList else mine.endpoint,
      ") is already owned by FlintShare ".toList, winner, ", which owns s3://".toList, w.bucket,
      ['/'], w.keyPrefix, " and is older; refusing to run a second hub on it — when one ".toList,
      "hub dies for a lease window the other takes the prefix over and serves its data".toList]

def alreadyOwned (mine : ShareKey) (winner : Str) : Str :=
  flatten (α := Char) ["bucket subtree s3://".toList, mine.bucket, ['/'], mine.keyPrefix,
    " is already owned by FlintShare ".toList, winner]

def admitLoop (me : Candidate) (mine : ShareKey) (admitted : List Owner) : List Owner → Admission
  | [] =>
    match admitted.find? (overlaps ·.2 mine) with
    | none => .admitted
    | some w => .rejected w.1.ref (alreadyOwned mine w.1.ref)
  | c :: rest =>
    match admitted.find? (overlaps ·.2 c.2) with
    | none => if isMe me c.1 then .admitted else admitLoop me mine (admitted ++ [c]) rest
    | some w =>
      if isMe me c.1 then .rejected w.1.ref (olderOwns mine w.1.ref w.2)
      else admitLoop me mine admitted rest

def admitMe (fleet : List Candidate) (me : Candidate) : Admission :=
  match me.key with
  | none => .admitted
  | some mine => admitLoop me mine [] (ordered fleet)

/-! ### The table -/

structure AdmitTable where
  admitted : List (Str × ShareKey)
  groups : Dict (Str × Str) (SortedMap Str ℕ)
  byUid : Dict Str (Option ℕ)
  byRef : Dict Str (Option ℕ)

namespace AdmitTable

def empty : AdmitTable := ⟨[], .empty, .empty, .empty⟩

variable (t : AdmitTable)

def oldestOverlap (key : ShareKey) : Option ℕ :=
  (t.groups.get? (key.endpoint, key.bucket)).bind fun group =>
    let best := (group.last fun r => r.1 < key.keyPrefix).bind fun r =>
      if key.keyPrefix.startsWith r.1 then some r.2 else none
    ((group.select fun r => key.keyPrefix ≤ r.1).takeWhile fun r =>
      r.1.startsWith key.keyPrefix).foldl (fun best r => some (best.elim r.2 (min · r.2))) best

def note (c : Candidate) (verdict : Option ℕ) : AdmitTable :=
  { t with
    byUid := if c.uid.isEmpty then t.byUid else t.byUid.insert c.uid verdict
    byRef := t.byRef.insert c.ref verdict }

def push (c : Owner) : AdmitTable :=
  { t with
    admitted := t.admitted ++ [(c.1.ref, c.2)]
    groups := t.groups.insert (c.2.endpoint, c.2.bucket)
      (((t.groups.get? (c.2.endpoint, c.2.bucket)).getD .empty).insert c.2.keyPrefix
        t.admitted.length) }

def add (c : Owner) : AdmitTable :=
  match t.oldestOverlap c.2 with
  | none => (t.note c.1 none).push c
  | some i => t.note c.1 (some i)

def build (fleet : List Candidate) : AdmitTable := (ordered fleet).foldl add empty

def lookedUp (me : Candidate) : Option (Option ℕ) :=
  if me.uid.isEmpty then t.byRef.get? me.ref else t.byUid.get? me.uid

def rejectedBy (i : ℕ) (message : Str → ShareKey → Str) : Admission :=
  match t.admitted[i]? with
  | some (winner, w) => .rejected winner (message winner w)
  | none => .admitted

def verdict (me : Candidate) : Admission :=
  match me.key with
  | none => .admitted
  | some mine =>
    match t.lookedUp me with
    | some none => .admitted
    | some (some i) => t.rejectedBy i (olderOwns mine)
    | none =>
      match t.oldestOverlap mine with
      | none => .admitted
      | some i => t.rejectedBy i fun winner _ => alreadyOwned mine winner

end AdmitTable

def overlapSet (fleet : List Candidate) (me : Candidate) : List Candidate :=
  match me.key with
  | none => []
  | some mine => (fleet.filter (·.uid ≠ me.uid)).filter fun c => c.key.any (overlaps · mine)

def Candidate.overlaps (a b : Candidate) : Bool := a.key.any fun k => b.key.any (Fleet.overlaps k)

def Apart (fleet : List Candidate) (verdict : Candidate → Admission) : Prop :=
  ∀ c ∈ fleet, ∀ d ∈ fleet, c ≠ d → verdict c = .admitted → verdict d = .admitted →
    c.overlaps d = false

instance (fleet : List Candidate) (verdict : Candidate → Admission) :
    Decidable (Apart fleet verdict) := by
  unfold Apart
  infer_instance

theorem overlaps_comm (a b : ShareKey) : overlaps a b = overlaps b a := by
  simp only [overlaps, eq_comm, Bool.or_comm]

def clash (a b : Owner) : Bool := overlaps a.2 b.2

theorem clash_comm (a b : Owner) : clash a b = clash b a := overlaps_comm a.2 b.2

def admittedOf (l : List Owner) : List Owner := pick clash l

/-! ### The oldest overlap -/

namespace AdmitTable

theorem min?_eq_findIdx? {α : Type} {l : List α} {p : α → Bool} {places : List ℕ}
    (h : ∀ i, i ∈ places ↔ ∃ c, l[i]? = some c ∧ p c) : places.min? = l.findIdx? p := by
  cases hfd : l.findIdx? p with
  | none =>
    rw [min?_eq_none_iff, eq_nil_iff_forall_not_mem]
    grind [findIdx?_eq_none_iff]
  | some i =>
    obtain ⟨hlt, hp, hbef⟩ := findIdx?_eq_some_iff_getElem.mp hfd
    rw [min?_eq_some_iff]
    grind

theorem foldl_best (l : List (Str × ℕ)) (best : Option ℕ) :
    l.foldl (fun best r => some (best.elim r.2 (min · r.2))) best =
      (best.toList ++ l.map Prod.snd).min? := by
  induction l generalizing best with
  | nil => cases best <;> rfl
  | cons r l ih =>
    rw [foldl_cons, ih]
    cases best <;> rfl

def place (t : AdmitTable) (key : ShareKey) : Option ℕ :=
  (t.groups.get? (key.endpoint, key.bucket)).bind (·.get? key.keyPrefix)

structure Holds (t : AdmitTable) (A : List Owner) : Prop where
  admitted : t.admitted = A.map fun c => (c.1.ref, c.2)
  place : ∀ key i, t.place key = some i ↔ ∃ c, A[i]? = some c ∧ c.2 = key
  apart : A.Pairwise fun a b => clash a b = false

variable {t : AdmitTable} {A : List Owner}

theorem Holds.eq_of_clash (h : t.Holds A) {i j : ℕ} {a b : Owner} (ha : A[i]? = some a)
    (hb : A[j]? = some b) (hcla : clash a b) : i = j := by
  have hap := pairwise_iff_getElem.mp h.apart
  have hcomm := clash_comm a b
  grind

theorem overlaps_iff {a b : ShareKey} : overlaps a b ↔ a.endpoint = b.endpoint ∧
    a.bucket = b.bucket ∧ (a.keyPrefix.startsWith b.keyPrefix ∨
      b.keyPrefix.startsWith a.keyPrefix) := by
  simp only [overlaps, Bool.and_eq_true, Bool.or_eq_true, decide_eq_true_eq, and_assoc]

theorem overlaps_self (a : ShareKey) : overlaps a a :=
  overlaps_iff.mpr ⟨rfl, rfl, .inl (Str.startsWith_iff.mpr prefix_rfl)⟩

theorem Holds.below (h : t.Holds A) {key : ShareKey} {group : SortedMap Str ℕ}
    (hgrp : ∀ q i, (q, i) ∈ group ↔ ∃ c, A[i]? = some c ∧ c.2 = { key with keyPrefix := q })
    {i : ℕ} :
    ((group.last fun r => r.1 < key.keyPrefix).bind fun r =>
      if key.keyPrefix.startsWith r.1 then some r.2 else none) = some i ↔
        ∃ q, (q, i) ∈ group ∧ q < key.keyPrefix ∧ key.keyPrefix.startsWith q := by
  rw [bind_eq_some_iff]
  constructor
  · rintro ⟨r, hla, hr⟩
    obtain ⟨hmem, hlt, -⟩ := last_eq_some hla
    split at hr
    · next hsts => exact ⟨r.1, some.inj hr ▸ hmem, of_decide_eq_true hlt, hsts⟩
    · cases hr
  · rintro ⟨q, hmem, hlt, hsts⟩
    cases hla : group.last fun r => r.1 < key.keyPrefix with
    | none =>
      have hnil := getLast?_eq_none_iff.mp hla
      exact absurd (mem_select.mpr ⟨hmem, decide_eq_true hlt⟩) (hnil ▸ not_mem_nil)
    | some r =>
      obtain ⟨hr, hrlt, hmax⟩ := last_eq_some hla
      have hbegins : r.1.startsWith q := by
        by_contra hnot
        have hlt' := Str.lt_of_not_startsWith (hmax _ hmem (decide_eq_true hlt)) hnot hsts
        exact lt_asymm hlt' (of_decide_eq_true hrlt)
      obtain ⟨c, hc, hkey⟩ := (hgrp q i).mp hmem
      obtain ⟨d, hd, hkey'⟩ := (hgrp r.1 r.2).mp hr
      have hi : i = r.2 := h.eq_of_clash hc hd (overlaps_iff.mpr (by simp [hkey, hkey', hbegins]))
      obtain rfl := some.inj (hc.symm.trans (hi ▸ hd))
      have hq : q = r.1 := congrArg ShareKey.keyPrefix (hkey.symm.trans hkey')
      exact ⟨r, rfl, by rw [if_pos (hq ▸ hsts), hi]⟩

theorem Holds.oldestOverlap_eq (h : t.Holds A) (key : ShareKey) :
    t.oldestOverlap key = A.findIdx? (overlaps ·.2 key) := by
  unfold oldestOverlap
  have hgrp := fun q => h.place { key with keyPrefix := q }
  have hoverlap : ∀ c : Owner, overlaps c.2 key ↔ ∃ q,
      (q.startsWith key.keyPrefix ∨ key.keyPrefix.startsWith q) ∧
        c.2 = { key with keyPrefix := q } := by
    intro c
    rw [overlaps_iff]
    exact ⟨fun ⟨he, hb, hp⟩ => ⟨_, hp, by rw [← he, ← hb]⟩, by rintro ⟨q, hp, heq⟩; simp [heq, hp]⟩
  cases hget : t.groups.get? (key.endpoint, key.bucket) with
  | none =>
    simp only [AdmitTable.place, hget, bind_none, reduceCtorEq, false_iff] at hgrp
    refine (findIdx?_eq_none_iff.mpr fun c hc => Bool.eq_false_iff.mpr fun hov => ?_).symm
    obtain ⟨q, -, heq⟩ := (hoverlap c).mp hov
    obtain ⟨i, hi⟩ := mem_iff_getElem?.mp hc
    exact hgrp q i ⟨c, hi, heq⟩
  | some group =>
    simp only [AdmitTable.place, hget, bind_some, get?_eq_some] at hgrp
    have habv : ∀ r : Str × ℕ, decide (key.keyPrefix ≤ r.1) ↔ key.keyPrefix ≤ r.1 :=
      fun r => decide_eq_true_iff
    have htk : ((group.select fun r => key.keyPrefix ≤ r.1).takeWhile fun r =>
        r.1.startsWith key.keyPrefix) = group.rows.filter fun r => r.1.startsWith key.keyPrefix :=
      LexPrefix.takeWhile_isPrefix (α := Char) habv (fun r => Str.startsWith_iff) group.sorted
    rw [bind_some, foldl_best, htk]
    apply min?_eq_findIdx?
    intro i
    have hle : ∀ q, key.keyPrefix.startsWith q → q ≤ key.keyPrefix := fun _ => Str.le_of_startsWith
    simp only [mem_append, mem_toList, h.below hgrp, mem_map, mem_filter,
      mem_rows, Prod.exists, hoverlap, hgrp]
    grind

theorem Holds.oldestOverlap_eq_none (h : t.Holds A) {c : Owner} :
    t.oldestOverlap c.2 = none ↔ A.any (clash · c) = false := by
  rw [h.oldestOverlap_eq, findIdx?_eq_none_iff, any_eq_false]
  simp only [Bool.not_eq_true, clash]

theorem place_push (t : AdmitTable) (c : Owner) (key : ShareKey) :
    (t.push c).place key = if key = c.2 then some t.admitted.length else t.place key := by
  unfold place push
  rw [Dict.get?_insert]
  by_cases hbkt : (key.endpoint, key.bucket) = (c.2.endpoint, c.2.bucket)
  · have hkey : key = c.2 ↔ key.keyPrefix = c.2.keyPrefix := by
      rw [ShareKey.ext_iff, ← and_assoc, and_iff_right (Prod.mk.inj hbkt)]
    rw [if_pos hbkt, bind_some, get?_insert, ← hbkt]
    simp only [hkey]
    cases t.groups.get? (key.endpoint, key.bucket) <;> rfl
  · rw [if_neg hbkt, if_neg fun heq : key = c.2 => hbkt (heq ▸ rfl)]

theorem Holds.push (h : t.Holds A) {c : Owner} (hfr : ∀ a ∈ A, ¬clash a c) :
    (t.push c).Holds (A ++ [c]) := by
  refine ⟨by simp [AdmitTable.push, h.admitted], fun key i => ?_, ?_⟩
  · have hlen : t.admitted.length = A.length := by rw [h.admitted, length_map]
    have hnew : ∀ d, A[i]? = some d → d.2 ≠ c.2 := fun d hd heq =>
      hfr d (mem_of_getElem? hd) (by rw [clash, heq]; exact overlaps_self c.2)
    have hold := h.place key i
    rw [place_push, hlen]
    grind
  · refine pairwise_append.mpr ⟨h.apart, pairwise_singleton .., fun a ha b hb => ?_⟩
    rw [mem_singleton.mp hb]
    exact Bool.eq_false_iff.mpr (hfr a ha)

theorem Holds.add (h : t.Holds A) (c : Owner) : (t.add c).Holds (Greedy.add clash A c) := by
  have hnote : ∀ verdict, (t.note c.1 verdict).Holds A := fun _ => ⟨h.admitted, h.place, h.apart⟩
  unfold AdmitTable.add Greedy.add
  cases hno : t.oldestOverlap c.2 with
  | none =>
    have hany := h.oldestOverlap_eq_none.mp hno
    rw [if_neg (Bool.eq_false_iff.mp hany)]
    exact (hnote none).push (any_eq_false.mp hany)
  | some i =>
    rw [if_pos (Bool.of_not_eq_false fun hany => by simp [h.oldestOverlap_eq_none.mpr hany] at hno)]
    exact hnote _

theorem lookedUp_note (t : AdmitTable) (c me : Candidate) (verdict : Option ℕ) :
    (t.note c verdict).lookedUp me = if isMe me c then some verdict else t.lookedUp me := by
  unfold lookedUp isMe note
  grind [Dict.get?_insert]

theorem lookedUp_add (t : AdmitTable) (c : Owner) (me : Candidate) :
    (t.add c).lookedUp me = if isMe me c.1 then some (t.oldestOverlap c.2) else t.lookedUp me := by
  rw [← lookedUp_note, add]
  cases t.oldestOverlap c.2 <;> rfl

theorem holds_build (l : List Owner) : (l.foldl add empty).Holds (pick clash l) := by
  induction l using reverseRecOn with
  | nil => exact ⟨rfl, fun key i => by simp [pick, place, empty], .nil⟩
  | append_singleton l c ih =>
    rw [pick_snoc, foldl_append]
    exact ih.add c

theorem lookedUp_foldl {me : Candidate} {m : List Owner} (hm : ∀ x ∈ m, isMe me x.1 = false) :
    (m.foldl add t).lookedUp me = t.lookedUp me := by
  induction m generalizing t with
  | nil => rfl
  | cons d m ih =>
    obtain ⟨hd, hm⟩ := forall_mem_cons.mp hm
    rw [foldl_cons, ih hm, lookedUp_add, hd]
    rfl

theorem lookedUp_build {me : Candidate} {l m : List Owner} {o : Owner} (hme : isMe me o.1)
    (hm : ∀ x ∈ m, isMe me x.1 = false) :
    ((l ++ o :: m).foldl add empty).lookedUp me =
      some ((pick clash l).findIdx? (overlaps ·.2 o.2)) := by
  rw [foldl_append, foldl_cons, lookedUp_foldl hm, lookedUp_add, if_pos hme,
    (holds_build l).oldestOverlap_eq]

theorem lookedUp_empty (me : Candidate) : empty.lookedUp me = none := by
  unfold lookedUp
  split <;> rfl

theorem Holds.rejectedBy_eq (h : t.Holds A) {i : ℕ} {w : Owner} (hi : A[i]? = some w)
    (message : Str → ShareKey → Str) :
    t.rejectedBy i message = .rejected w.1.ref (message w.1.ref w.2) := by
  rw [rejectedBy, h.admitted, getElem?_map, hi]
  rfl

end AdmitTable

/-! ### The reference -/

section Reference

variable {fleet : List Candidate} {me : Candidate} {mine : ShareKey}

def judge (message : Str → ShareKey → Str) (winner : Option Owner) : Admission :=
  winner.elim .admitted fun w => .rejected w.1.ref (message w.1.ref w.2)

theorem admitLoop_append {A l m : List Owner} (h : ∀ x ∈ l, isMe me x.1 = false) :
    admitLoop me mine A (l ++ m) = admitLoop me mine (l.foldl (Greedy.add clash) A) m := by
  induction l generalizing A with
  | nil => rfl
  | cons c l ih =>
    obtain ⟨hc, hl⟩ := forall_mem_cons.mp h
    rw [foldl_cons, ← ih hl, cons_append, admitLoop, Greedy.add]
    simp only [hc, Bool.false_eq_true, if_false]
    cases hfd : A.find? (overlaps ·.2 c.2) with
    | none =>
      rw [if_neg]
      simpa [clash] using hfd
    | some w =>
      have hw : clash w c := find?_some (p := fun a : Owner => overlaps a.2 c.2) hfd
      rw [if_pos (any_eq_true.mpr ⟨w, mem_of_find?_eq_some hfd, hw⟩)]

theorem mem_ordered {o : Owner} : o ∈ ordered fleet ↔ o.1 ∈ fleet ∧ o.1.key = some o.2 := by
  rw [ordered, mem_insertionSort, mem_filterMap]
  grind [map_eq_some_iff]

theorem ordered_sorted (h : fleet.Pairwise fun a b => a.age ≠ b.age) :
    (ordered fleet).Pairwise fun a b => a.1.age < b.1.age := by
  have hle := pairwise_insertionSort (fun a b : Owner => a.1.age ≤ b.1.age)
    (fleet.filterMap fun c => c.key.map (c, ·))
  have hne : (fleet.filterMap fun c => c.key.map (c, ·)).Pairwise
      fun a b : Owner => a.1.age ≠ b.1.age := by
    refine pairwise_filterMap.mpr (h.imp fun hab a ha b hb => ?_)
    grind [map_eq_some_iff]
  have hne' := ((perm_insertionSort (fun a b : Owner => a.1.age ≤ b.1.age) _).pairwise_iff
    Ne.symm).mpr hne
  exact hle.imp₂ (fun a b => lt_of_le_of_ne) hne'

theorem admitMe_eq (hkey : me.key = some mine) :
    admitMe fleet me = admitLoop me mine [] (ordered fleet) := by
  rw [admitMe, hkey]

theorem admitMe_found {l m : List Owner} {o : Owner} (hkey : me.key = some mine)
    (ho : ordered fleet = l ++ o :: m) (hl : ∀ x ∈ l, isMe me x.1 = false) (hme : isMe me o.1) :
    admitMe fleet me = judge (olderOwns mine) ((pick clash l).find? (overlaps ·.2 o.2)) := by
  rw [admitMe_eq hkey, ho, admitLoop_append hl, admitLoop, ← pick]
  simp only [hme, if_true]
  cases (pick clash l).find? (overlaps ·.2 o.2) <;> rfl

theorem admitMe_absent (hkey : me.key = some mine) (h : ∀ x ∈ ordered fleet, isMe me x.1 = false) :
    admitMe fleet me = judge (fun winner _ => alreadyOwned mine winner)
      ((admittedOf (ordered fleet)).find? (overlaps ·.2 mine)) := by
  rw [admitMe_eq hkey, ← append_nil (ordered fleet), admitLoop_append h, admitLoop,
    ← pick, append_nil, admittedOf]
  cases (pick clash (ordered fleet)).find? (overlaps ·.2 mine) <;> rfl

theorem exists_place (hsrt : (ordered fleet).Pairwise fun a b => a.1.age < b.1.age)
    (hone : ∀ a ∈ fleet, ∀ b ∈ fleet, isMe me a → isMe me b → a = b) {o : Owner}
    (ho : o ∈ ordered fleet) (hme : isMe me o.1) :
    ∃ l m, ordered fleet = l ++ o :: m ∧ (∀ x ∈ l, isMe me x.1 = false) ∧
      ∀ x ∈ m, isMe me x.1 = false := by
  obtain ⟨l, m, heq⟩ := append_of_mem ho
  have hoths : ∀ x ∈ ordered fleet, x.1.age ≠ o.1.age → isMe me x.1 = false := by
    intro x hx hage
    refine Bool.eq_false_iff.mpr fun hx' => hage ?_
    rw [hone x.1 (mem_ordered.mp hx).1 o.1 (mem_ordered.mp ho).1 hx' hme]
  rw [heq] at hsrt hoths
  obtain ⟨-, hm, hl⟩ := pairwise_append.mp hsrt
  refine ⟨l, m, heq, fun x hx => ?_, fun x hx => ?_⟩
  · exact hoths x (mem_append_left _ hx) (hl x hx o (.head _)).ne
  · exact hoths x (mem_append_right _ (.tail _ hx)) ((pairwise_cons.mp hm).1 x hx).ne'

theorem nodup_of_sorted {l : List Owner} (h : l.Pairwise fun a b => a.1.age < b.1.age) : l.Nodup :=
  h.imp fun hab heq => absurd (congrArg (·.1.age) heq) hab.ne

theorem isMe_self (c : Candidate) : isMe c c := by
  unfold isMe
  split <;> simp

section Verdicts

variable (hsrt : (ordered fleet).Pairwise fun a b => a.1.age < b.1.age) (hme : me ∈ fleet)
  (hone : ∀ b ∈ fleet, isMe me b → b = me) (hkey : me.key = some mine)

include hsrt hme hone hkey

theorem admitMe_place : ∃ l m, ordered fleet = l ++ (me, mine) :: m ∧
    admitMe fleet me = judge (olderOwns mine)
      ((pick clash l).find? (overlaps ·.2 mine)) := by
  obtain ⟨l, m, heq, hl, -⟩ := exists_place hsrt
    (fun a ha b hb hma hmb => (hone a ha hma).trans (hone b hb hmb).symm)
    (mem_ordered (o := (me, mine)).mpr ⟨hme, hkey⟩) (isMe_self me)
  exact ⟨l, m, heq, admitMe_found hkey heq hl (isMe_self me)⟩

theorem admitMe_eq_admitted : admitMe fleet me = .admitted ↔
    (me, mine) ∈ admittedOf (ordered fleet) := by
  obtain ⟨l, m, heq, hadm⟩ := admitMe_place hsrt hme hone hkey
  have hnd := nodup_of_sorted hsrt
  rw [heq] at hnd
  rw [admittedOf, heq, mem_pick_iff hnd, hadm, any_eq_false]
  cases hfd : (pick clash l).find? (overlaps ·.2 mine) with
  | none => exact iff_of_true rfl (find?_eq_none.mp hfd)
  | some w =>
    have hw := find?_some (p := fun a : Owner => overlaps a.2 mine) hfd
    exact iff_of_false (by simp [judge]) fun hnot => hnot w (mem_of_find?_eq_some hfd) hw

omit hme hone hkey in
theorem admitMe_apart (hone : ∀ c ∈ fleet, ∀ b ∈ fleet, isMe c b → b = c) :
    Apart fleet (admitMe fleet) := by
  intro c hc d hd hne hadm hadm'
  cases hk : c.key with
  | none => simp [Candidate.overlaps, hk]
  | some k =>
    cases hk' : d.key with
    | none => simp [Candidate.overlaps, hk']
    | some k' =>
      rw [admitMe_eq_admitted hsrt hc (hone c hc) hk] at hadm
      rw [admitMe_eq_admitted hsrt hd (hone d hd) hk'] at hadm'
      rw [Candidate.overlaps, hk, hk']
      exact not_clash_of_mem clash_comm hadm hadm' fun heq => hne (congrArg Prod.fst heq)

theorem exists_winner {winner message : Str} (h : admitMe fleet me = .rejected winner message) :
    ∃ w ∈ admittedOf (ordered fleet), w.1.ref = winner ∧ overlaps w.2 mine ∧ w.1.age < me.age := by
  obtain ⟨l, m, heq, hadm⟩ := admitMe_place hsrt hme hone hkey
  rw [h] at hadm
  cases hfd : (pick clash l).find? (overlaps ·.2 mine) with
  | none => simp [hfd, judge] at hadm
  | some w =>
    rw [hfd] at hadm
    have hw := mem_of_find?_eq_some hfd
    rw [heq] at hsrt
    refine ⟨w, ?_, (Admission.rejected.inj hadm).1.symm,
      find?_some (p := fun a : Owner => overlaps a.2 mine) hfd,
      (pairwise_append.mp hsrt).2.2 w (mem_of_mem_pick hw) _ (.head _)⟩
    rw [heq]
    exact (pick_isPrefix ..).subset hw

end Verdicts

end Reference

def Distinct (fleet : List Candidate) : Prop :=
  fleet.Pairwise fun a b => a.ref ≠ b.ref ∧ (a.uid = b.uid → a.uid.isEmpty)

instance (fleet : List Candidate) : Decidable (Distinct fleet) :=
  inferInstanceAs (Decidable (Pairwise _ _))

theorem Distinct.eq_of_isMe {fleet : List Candidate} {me a b : Candidate} (h : Distinct fleet)
    (ha : a ∈ fleet) (hb : b ∈ fleet) (hma : isMe me a) (hmb : isMe me b) : a = b := by
  by_contra hne
  have hsymm : Std.Symm fun a b : Candidate => a.ref ≠ b.ref ∧
      (a.uid = b.uid → a.uid.isEmpty) :=
    ⟨fun a b h => ⟨h.1.symm, fun heq => heq ▸ h.2 heq.symm⟩⟩
  have hab := Pairwise.forall h ha hb hne
  unfold isMe at hma hmb
  grind

theorem Distinct.sorted {fleet : List Candidate} (h : Distinct fleet) :
    (ordered fleet).Pairwise fun a b => a.1.age < b.1.age := by
  refine ordered_sorted (h.imp fun hab hage => hab.1 ?_)
  exact congrArg (fun x => (ofLex (ofLex x).2).2) hage

theorem AdmitTable.Holds.elim_rejectedBy {t : AdmitTable} {A B : List Owner} (h : t.Holds B)
    (hAB : A <+: B) (p : Owner → Bool) (message : Str → ShareKey → Str) :
    (A.findIdx? p).elim .admitted (t.rejectedBy · message) = judge message (A.find? p) := by
  rw [find?_eq_bind_findIdx?_getElem?]
  cases hfd : A.findIdx? p with
  | none => rfl
  | some i =>
    obtain ⟨hlt, -⟩ := findIdx?_eq_some_iff_getElem.mp hfd
    have hi := getElem?_eq_getElem hlt
    obtain ⟨C, rfl⟩ := hAB
    rw [bind_some, hi]
    exact h.rejectedBy_eq (getElem?_append_left hlt ▸ hi) message

theorem verdict_build {fleet : List Candidate} (h : Distinct fleet) (me : Candidate) :
    (AdmitTable.build fleet).verdict me = admitMe fleet me := by
  cases hkey : me.key with
  | none => rw [AdmitTable.verdict, admitMe, hkey]
  | some mine =>
    have hblt := AdmitTable.holds_build (ordered fleet)
    rw [AdmitTable.verdict, hkey]
    by_cases hfnd : ∃ o ∈ ordered fleet, isMe me o.1
    · obtain ⟨o, ho, hme⟩ := hfnd
      obtain ⟨l, m, heq, hl, hm⟩ := exists_place h.sorted
        (fun a ha b hb => h.eq_of_isMe ha hb) ho hme
      rw [heq] at hblt
      rw [admitMe_found hkey heq hl hme, ← hblt.elim_rejectedBy (pick_isPrefix ..),
        AdmitTable.build, heq]
      simp only [AdmitTable.lookedUp_build hme hm]
      cases (pick clash l).findIdx? (overlaps ·.2 o.2) <;> rfl
    · have habs : ∀ x ∈ ordered fleet, isMe me x.1 = false := fun x hx =>
        Bool.eq_false_iff.mpr fun hme => hfnd ⟨x, hx, hme⟩
      rw [admitMe_absent hkey habs, admittedOf, ← hblt.elim_rejectedBy prefix_rfl, AdmitTable.build]
      simp only [AdmitTable.lookedUp_foldl habs, AdmitTable.lookedUp_empty, hblt.oldestOverlap_eq]
      cases (pick clash (ordered fleet)).findIdx? (overlaps ·.2 mine) <;> rfl

/-- **The table gives the verdicts of `admitMe`.** The shares that are admitted do not overlap, and
one that is rejected overlaps an older one that is admitted. -/
theorem verdict_eq_admitMe {fleet : List Candidate} (h : Distinct fleet) :
    (∀ me, (AdmitTable.build fleet).verdict me = admitMe fleet me) ∧ Apart fleet (admitMe fleet) ∧
      ∀ c ∈ fleet, ∀ winner message, admitMe fleet c = .rejected winner message →
        ∃ w ∈ fleet, w.ref = winner ∧ admitMe fleet w = .admitted ∧ w.overlaps c ∧
          w.age < c.age := by
  have hone : ∀ c ∈ fleet, ∀ b ∈ fleet, isMe c b → b = c := fun c hc b hb hme =>
    h.eq_of_isMe hb hc hme (isMe_self c)
  refine ⟨verdict_build h, admitMe_apart h.sorted hone, fun c hc winner message hrej => ?_⟩
  cases hk : c.key with
  | none => simp [admitMe, hk] at hrej
  | some k =>
    obtain ⟨w, hw, href, hov, hage⟩ := exists_winner h.sorted hc (hone c hc) hk hrej
    obtain ⟨hmem, hkey⟩ := mem_ordered.mp (mem_of_mem_pick hw)
    refine ⟨w.1, hmem, href, ?_, ?_, hage⟩
    · exact (admitMe_eq_admitted h.sorted hmem (hone w.1 hmem) hkey).mpr hw
    · rw [Candidate.overlaps, hkey, hk]
      exact hov

def shareAt (name keyPrefix : String) (created : ℤ) : Candidate :=
  ⟨['n'], name.toList, name.toList, created, some ⟨[], ['b'], keyPrefix.toList⟩⟩

def meShare : Candidate := shareAt "me" "a/b/" 1

def yShare : Candidate := shareAt "y" "a/c/" 3

/-- `me` keeps out `x`, and `x` would keep out `y`, which `me` does not overlap. -/
def displaced : List Candidate := [meShare, shareAt "x" "a/" 2, yShare]

theorem displaced_verdicts : Distinct displaced ∧
    (AdmitTable.build displaced).verdict yShare = admitMe displaced yShare :=
  ⟨by decide +kernel, (verdict_eq_admitMe (by decide +kernel)).1 _⟩

theorem admitMe_older {fleet : List Candidate} {me : Candidate} {mine : ShareKey}
    (h : Distinct fleet) (hme : me ∈ fleet) (hkey : me.key = some mine) :
    ∃ l m, ordered fleet = l ++ (me, mine) :: m ∧
      (∀ x, x ∈ l ↔ x ∈ ordered fleet ∧ x.1.age < me.age) ∧ admitMe fleet me =
        judge (olderOwns mine) ((pick clash l).find? (overlaps ·.2 mine)) := by
  obtain ⟨l, m, heq, hv⟩ := admitMe_place h.sorted hme
    (fun b hb hb' => h.eq_of_isMe hb hme hb' (isMe_self me)) hkey
  refine ⟨l, m, heq, fun x => ?_, hv⟩
  have hsrt := h.sorted
  rw [heq, pairwise_append, pairwise_cons] at hsrt
  obtain ⟨-, ⟨hm, -⟩, hl⟩ := hsrt
  rw [heq, mem_append, mem_cons]
  refine ⟨fun hx => ⟨.inl hx, hl x hx _ (.head _)⟩, ?_⟩
  rintro ⟨hx | rfl | hx, hlt⟩
  · exact hx
  · exact absurd hlt (lt_irrefl _)
  · exact absurd hlt (hm x hx).not_gt

/-- **The verdict of a share depends on the older shares only.** -/
theorem verdict_of_older {fleet fleet' : List Candidate} {me : Candidate} (h : Distinct fleet)
    (h' : Distinct fleet') (hme : me ∈ fleet) (hme' : me ∈ fleet')
    (holder : ∀ c : Candidate, c.age < me.age → (c ∈ fleet ↔ c ∈ fleet')) :
    (AdmitTable.build fleet).verdict me = (AdmitTable.build fleet').verdict me := by
  rw [verdict_build h, verdict_build h']
  cases hkey : me.key with
  | none => simp [admitMe, hkey]
  | some mine =>
    obtain ⟨l, m, heq, hmem, hv⟩ := admitMe_older h hme hkey
    obtain ⟨l', m', heq', hmem', hv'⟩ := admitMe_older h' hme' hkey
    have hll : l = l' := by
      have hs := (pairwise_append.mp (heq ▸ h.sorted)).1
      have hs' := (pairwise_append.mp (heq' ▸ h'.sorted)).1
      refine eq_of_mem_iff hs hs' fun x => ?_
      rw [hmem, hmem', mem_ordered, mem_ordered]
      exact and_congr_left fun hlt => and_congr_left fun _ => holder x.1 hlt
    rw [hv, hv', hll]

/-- A share that comes later, or another order of the listing, leaves the verdict of `y`. -/
theorem newcomer_leaves_verdict : (AdmitTable.build displaced).verdict yShare =
    (AdmitTable.build (shareAt "z" "" 4 :: displaced.reverse)).verdict yShare :=
  verdict_of_older (by decide +kernel) (by decide +kernel) (by decide) (by decide) fun c hc => by
    rw [mem_cons, mem_reverse]
    exact ⟨.inr, fun h => h.resolve_left (by rintro rfl; exact absurd hc (by decide +kernel))⟩

/-! ### Who is woken -/

def without (fleet : List Candidate) (me : Candidate) : List Candidate := fleet.filter (· ≠ me)

/-- The verdicts by which the shares run when the fleet has changed and some are reconciled. -/
def reconciled (old new woken : List Candidate) (c : Candidate) : Admission :=
  if c ∈ woken then admitMe new c else admitMe old c

/-- Every share whose verdict changes is reconciled, and then no two shares run that overlap. -/
structure AllWoken (fleet : List Candidate) (me : Candidate) : Prop where
  changed : ∀ c ∈ fleet, c ≠ me →
    ¬(admitMe fleet c = .admitted ↔ admitMe (without fleet me) c = .admitted) →
      c ∈ overlapSet fleet me
  gone : Apart (without fleet me) (reconciled fleet (without fleet me) (overlapSet fleet me))
  come : Apart fleet (reconciled (without fleet me) fleet (me :: overlapSet fleet me))

/-- No share that overlaps `me`, and is taken by age if `me` is not there, overlaps one that is
taken if `me` is there and does not overlap it. -/
def Undisturbed (fleet : List Candidate) (me : Owner) : Prop :=
  ∀ c ∈ admittedOf (ordered (without fleet me.1)), ∀ d ∈ admittedOf (ordered fleet),
    clash c me → clash c d → clash d me ∨ d = me

instance (fleet : List Candidate) (me : Owner) : Decidable (Undisturbed fleet me) := by
  unfold Undisturbed
  infer_instance

section Woken

variable {fleet : List Candidate} {me c : Candidate} {mine : ShareKey}

theorem mem_without : c ∈ without fleet me ↔ c ∈ fleet ∧ c ≠ me := by
  simp [without]

theorem admitted_of_reconciled {old new woken : List Candidate}
    (h : c ∉ woken → (admitMe new c = .admitted ↔ admitMe old c = .admitted))
    (hrun : reconciled old new woken c = .admitted) : admitMe new c = .admitted := by
  unfold reconciled at hrun
  split at hrun
  · exact hrun
  · next hnot => exact (h hnot).mpr hrun

theorem sorted_of_uids (h : (fleet.map Candidate.uid).Nodup) :
    (ordered fleet).Pairwise fun a b => a.1.age < b.1.age := by
  refine ordered_sorted ((pairwise_map.mp h).imp fun hab hage => hab ?_)
  exact congrArg (fun x => (ofLex (ofLex x).2).1) hage

variable (hkey : me.key = some mine)

include hkey

theorem mem_overlapSet : c ∈ overlapSet fleet me ↔ c ∈ fleet ∧ c.uid ≠ me.uid ∧ c.overlaps me := by
  unfold overlapSet Candidate.overlaps
  simp only [hkey, mem_filter, decide_eq_true_eq, and_assoc, any_some]

theorem ordered_without (h : (fleet.map Candidate.uid).Nodup) :
    ordered (without fleet me) = (ordered fleet).filter (· ≠ (me, mine)) := by
  refine eq_of_mem_iff (sorted_of_uids (h.sublist (filter_sublist.map _)))
    ((sorted_of_uids h).sublist filter_sublist) fun o => ?_
  rw [mem_ordered, mem_without, mem_filter, mem_ordered, decide_eq_true_eq]
  grind

/-- **Every share whose verdict changes is woken** exactly when no share that `me` keeps out would
keep out another that does not overlap `me`. -/
theorem allWoken_iff (hmem : me ∈ fleet) (huids : (fleet.map Candidate.uid).Nodup)
    (hone : ∀ c ∈ fleet, ∀ b ∈ fleet, isMe c b → b = c) :
    AllWoken fleet me ↔ Undisturbed fleet (me, mine) := by
  have hsub : ((without fleet me).map Candidate.uid).Nodup :=
    huids.sublist (filter_sublist.map _)
  have hone' : ∀ c ∈ without fleet me, ∀ b ∈ without fleet me, isMe c b → b = c :=
    fun c hc b hb => hone c (mem_without.mp hc).1 b (mem_without.mp hb).1
  have hwith := fun {c k} (hc : c ∈ fleet) (hk : c.key = some k) =>
    admitMe_eq_admitted (sorted_of_uids huids) hc (hone c hc) hk
  have hlf := fun {c k} (hc : c ∈ without fleet me) (hk : c.key = some k) =>
    admitMe_eq_admitted (sorted_of_uids hsub) hc (hone' c hc) hk
  constructor
  · -- a share that another displaces in the place of `me` has a verdict that changes
    intro hall c hc d hd hov hcla
    by_contra! hd'
    obtain ⟨hmemd, hkd⟩ := mem_ordered.mp (mem_of_mem_pick hd)
    have hne : d.1 ≠ me := fun heq =>
      hd'.2 (Prod.ext heq (some.inj (hkd.symm.trans (heq ▸ hkey))))
    have hkp : admitMe (without fleet me) d.1 ≠ .admitted := by
      rw [ne_eq, hlf (mem_without.mpr ⟨hmemd, hne⟩) hkd]
      intro hd₂
      have hcd : c ≠ d := fun heq => hd'.1 (heq ▸ hov)
      exact Bool.eq_false_iff.mp (not_clash_of_mem clash_comm hc hd₂ hcd) hcla
    have hwoken := hall.changed d.1 hmemd hne fun hiff => hkp (hiff.mp ((hwith hmemd hkd).mpr hd))
    have hov' := ((mem_overlapSet hkey).mp hwoken).2.2
    rw [Candidate.overlaps, hkd, hkey] at hov'
    exact hd'.1 hov'
  · intro hund
    rw [Undisturbed, ordered_without hkey huids] at hund
    have hpick := pick_without clash_comm (nodup_of_sorted (sorted_of_uids huids)) hund
    rw [← ordered_without hkey huids] at hpick
    have hsm : ∀ c ∈ fleet, c ≠ me → c ∉ overlapSet fleet me →
        (admitMe fleet c = .admitted ↔ admitMe (without fleet me) c = .admitted) := by
      intro c hc hne hnot
      cases hk : c.key with
      | none => simp [admitMe, hk]
      | some k =>
        rw [hwith hc hk, hlf (mem_without.mpr ⟨hc, hne⟩) hk]
        refine (hpick.2 (c, k) fun heq => hne (congrArg Prod.fst heq)).resolve_right fun hcla => ?_
        refine hnot ((mem_overlapSet hkey).mpr ⟨hc, fun huid => hne ?_, ?_⟩)
        · exact inj_on_of_nodup_map huids hc hmem huid
        · rw [Candidate.overlaps, hk, hkey]
          exact hcla
    refine ⟨fun c hc hne hdiff => by_contra fun hnot => hdiff (hsm c hc hne hnot),
      fun c hc d hd hne hc' hd' => ?_, fun c hc d hd hne hc' hd' => ?_⟩
    · have hruns := fun {c} (hc : c ∈ without fleet me) => admitted_of_reconciled fun hnot =>
        (hsm c (mem_without.mp hc).1 (mem_without.mp hc).2 hnot).symm
      exact admitMe_apart (sorted_of_uids hsub) hone' c hc d hd hne (hruns hc hc') (hruns hd hd')
    · have hruns := fun {c} (hc : c ∈ fleet) => admitted_of_reconciled
        fun hnot : c ∉ me :: overlapSet fleet me =>
          hsm c hc (ne_of_not_mem_cons hnot) (not_mem_of_not_mem_cons hnot)
      exact admitMe_apart (sorted_of_uids huids) hone c hc d hd hne (hruns hc hc') (hruns hd hd')

end Woken

/-- Without `y` the others are woken. -/
theorem two_woken : AllWoken [meShare, shareAt "x" "a/" 2] meShare :=
  (allWoken_iff rfl (by decide) (by decide) (by decide)).mpr (by decide +kernel)

/-- When `me` goes, `x` is admitted and `y` is not told: both run, and they overlap. -/
theorem not_woken : (displaced.map Candidate.uid).Nodup ∧ meShare ∈ displaced ∧
    yShare ∈ displaced ∧ admitMe displaced yShare = .admitted ∧
    admitMe (without displaced meShare) yShare ≠ .admitted ∧ yShare ∉ overlapSet displaced meShare ∧
    ¬Apart (without displaced meShare)
      (reconciled displaced (without displaced meShare) (overlapSet displaced meShare)) := by
  decide +kernel

end Flint.Fleet
