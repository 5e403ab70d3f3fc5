import Mathlib.Data.List.Basic

/-!
# Replay of a lineage

The snapshots of a leg form a chain by their parent links, and each holds only the clusters written
since the one before it. The image of the leg at a snapshot is the chain below it laid one over the
other.

A destination is brought to an epoch of a source by copying the elements from the base to that epoch
onto its head, oldest first. A cluster that one of them holds ends up as the newest of them has it,
which is the image; every other cluster has to be right before.
-/

namespace Flint.Replica

open List

structure Bdev (ν : Type) where
  baseSnapshot : Option ν

inductive BdevName (υ ν : Type)
  | uuid (uuid : υ)
  | alias (name : ν)

inductive ReplayError (ν : Type)
  | rpc | headNotFound
  | notCovered (name : ν)
  | broken (name : ν)
  | tooLong
  | copy (name : ν)
  | align (name : ν)

/-- The source: its bdevs, the lookups that fail, and the clusters allocated in each snapshot. -/
structure Source (υ ν κ δ : Type) where
  bdevs : BdevName υ ν → Option (Bdev ν)
  fails : BdevName υ ν → Bool
  clusters : ν → κ → Option δ

structure Dest (ν κ δ : Type) where
  head : κ → δ
  snapshots : List (ν × (κ → δ))

/-- How the calls that change the destination end. A copy that fails has written some clusters, a
snapshot call that fails was carried out or not. -/
structure Calls (ν κ : Type) where
  copy : ν → Option (κ → Bool)
  align : ν → Option Bool
  alignTarget : Option Bool

variable {υ ν κ δ : Type} [DecidableEq ν]

namespace Source

variable (src : Source υ ν κ δ)

omit [DecidableEq ν] in
def getBdev (name : BdevName υ ν) : Except (ReplayError ν) (Option (Bdev ν)) :=
  if src.fails name then .error .rpc else .ok (src.bdevs name)

omit [DecidableEq ν] in
def sourceHeadBdev (liveUuid : Option υ) (lvolName : ν) : Except (ReplayError ν) (Bdev ν) := do
  let live ← match liveUuid with
    | some uuid => src.getBdev (.uuid uuid)
    | none => pure none
  match live with
  | some bdev => pure bdev
  | none =>
    match ← src.getBdev (.alias lvolName) with
    | some bdev => pure bdev
    | none => throw .headNotFound

def walk (target : ν) (base : Option ν) :
    ℕ → Bdev ν → List ν → Bool → Except (ReplayError ν) (List ν)
  | 0, _, _, _ => .error .tooLong
  | fuel + 1, cursor, chain, collecting =>
    match cursor.baseSnapshot with
    | none =>
      match base with
      | none => if collecting then .ok chain else .error (.notCovered target)
      | some b => .error (.notCovered (if collecting then b else target))
    | some parent =>
      let collecting := collecting || parent = target
      let chain := if collecting then parent :: chain else chain
      if collecting && base = some parent then .ok chain
      else
        match src.getBdev (.alias parent) with
        | .error e => .error e
        | .ok none => .error (.broken parent)
        | .ok (some bdev) => walk target base fuel bdev chain collecting

def maxDepth : ℕ := 4096

def lineageChain (liveUuid : Option υ) (lvolName target : ν) (base : Option ν) :
    Except (ReplayError ν) (List ν) := do
  let head ← src.sourceHeadBdev liveUuid lvolName
  src.walk target base maxDepth head [] false

omit [DecidableEq ν] in
def shallowCopy (calls : Calls ν κ) (element : ν) (d : Dest ν κ δ) :
    Dest ν κ δ × Except (ReplayError ν) Unit :=
  let copied := fun k => (src.clusters element k).getD (d.head k)
  match calls.copy element with
  | none => ({ d with head := copied }, .ok ())
  | some part =>
    ({ d with head := fun k => if part k then copied k else d.head k }, .error (.copy element))

end Source

def alignHead (answer : Option Bool) (name : ν) (d : Dest ν κ δ) :
    Dest ν κ δ × Except (ReplayError ν) Unit :=
  let made := if d.snapshots.any fun s => s.1 = name then d
    else { d with snapshots := d.snapshots ++ [(name, d.head)] }
  match answer with
  | none => (made, .ok ())
  | some took => (if took then made else d, .error (.align name))

namespace Source

variable (src : Source υ ν κ δ)

def copyElements (user : ν → Bool) (deleted : List ν) (calls : Calls ν κ) :
    List ν → Dest ν κ δ → Dest ν κ δ × Except (ReplayError ν) Unit
  | [], d => (d, .ok ())
  | element :: chain, d =>
    match src.shallowCopy calls element d with
    | (d, .error e) => (d, .error e)
    | (d, .ok ()) =>
      if user element && element ∉ deleted then
        match alignHead (calls.align element) element d with
        | (d, .error e) => (d, .error e)
        | (d, .ok ()) => copyElements user deleted calls chain d
      else copyElements user deleted calls chain d

def copyChainTo (user : ν → Bool) (deleted : List ν) (calls : Calls ν κ) (liveUuid : Option υ)
    (lvolName target : ν) (base : Option ν) (d : Dest ν κ δ) :
    Dest ν κ δ × Except (ReplayError ν) ν :=
  match src.lineageChain liveUuid lvolName target base with
  | .error e => (d, .error e)
  | .ok chain =>
    match src.copyElements user deleted calls chain d with
    | (d, .error e) => (d, .error e)
    | (d, .ok ()) =>
      if base = some target then (d, .ok target)
      else
        match alignHead calls.alignTarget target d with
        | (d, .error e) => (d, .error e)
        | (d, .ok ()) => (d, .ok target)

/-! ### The images of the source -/

omit [DecidableEq ν] in
/-- The snapshots below a parent link, newest first. -/
def IsChain : Option ν → List ν → Prop
  | none, [] => True
  | some p, q :: names =>
    p = q ∧ ∃ bdev, src.bdevs (.alias p) = some bdev ∧ IsChain bdev.baseSnapshot names
  | _, _ => False

omit [DecidableEq ν] in
def imageOver (below : κ → δ) : List ν → κ → δ
  | [] => below
  | p :: names => fun k => (src.clusters p k).getD (imageOver below names k)

/-- The image of an element of the chain `names`. A cluster that nobody wrote is `zero`. -/
def image (zero : δ) (names : List ν) (e : ν) : κ → δ :=
  src.imageOver (fun _ => zero) (names.dropWhile (· ≠ e))

def throughBase (base : Option ν) : List ν → List ν
  | [] => []
  | p :: names => if base = some p then [p] else p :: throughBase base names

def stretch (names : List ν) (target : ν) (base : Option ν) : List ν :=
  throughBase base (names.dropWhile (· ≠ target))

def Ready (zero : δ) (names : List ν) (target : ν) (base : Option ν) (head : κ → δ) : Prop :=
  match base with
  | none => head = fun _ => zero
  | some _ => ∀ k, (∀ e ∈ stretch names target base, src.clusters e k = none) →
      head k = src.image zero names target k

section Images

variable {src} {names older newer : List ν} {parent : Option ν} {e : ν} {zero : δ}
  {below below' : κ → δ}

omit [DecidableEq ν] in
theorem IsChain.unique {others : List ν} (h : src.IsChain parent names)
    (h' : src.IsChain parent others) : names = others := by
  induction names generalizing parent others with
  | nil =>
    cases parent with
    | none => cases others with | nil => rfl | cons _ _ => exact h'.elim
    | some p => exact h.elim
  | cons p names ih =>
    cases parent with
    | none => exact h.elim
    | some q =>
      cases others with
      | nil => exact h'.elim
      | cons r others =>
        obtain ⟨rfl, bdev, hbdev, h⟩ := h
        obtain ⟨rfl, bdev', hbdev', h'⟩ := h'
        obtain rfl := Option.mem_unique hbdev hbdev'
        rw [ih h h']

omit [DecidableEq ν] in
theorem IsChain.suffix (h : src.IsChain parent (newer ++ e :: older)) :
    src.IsChain (some e) (e :: older) := by
  induction newer generalizing parent with
  | nil =>
    cases parent with
    | none => exact h.elim
    | some p => obtain ⟨rfl, h⟩ := h; exact ⟨rfl, h⟩
  | cons q newer ih =>
    cases parent with
    | none => exact h.elim
    | some p =>
      obtain ⟨-, bdev, -, h⟩ := h
      exact ih h

theorem IsChain.dropWhile (h : src.IsChain parent names) (he : e ∈ names) :
    src.IsChain (some e) (names.dropWhile (· ≠ e)) := by
  obtain ⟨newer, older, rfl⟩ := append_of_mem he
  induction newer generalizing parent with
  | nil =>
    rw [nil_append, dropWhile_cons_of_neg (by simp)]
    exact h.suffix
  | cons q newer ih =>
    by_cases hq : q = e
    · subst hq
      rw [cons_append, dropWhile_cons_of_neg (by simp)]
      have hsf : src.IsChain parent ([] ++ q :: (newer ++ q :: older)) := h
      exact hsf.suffix
    · cases parent with
      | none => exact h.elim
      | some p =>
        obtain ⟨-, bdev, -, h⟩ := h
        rw [cons_append, dropWhile_cons_of_pos (by simpa using hq)]
        exact ih h (by simp)

theorem IsChain.image_eq (h : src.IsChain parent (newer ++ e :: older)) (zero : δ) :
    src.image zero (newer ++ e :: older) e = src.imageOver (fun _ => zero) (e :: older) := by
  rw [image, (h.dropWhile (by simp)).unique h.suffix]

omit [DecidableEq ν] in
theorem imageOver_append (below : κ → δ) (newer older : List ν) :
    src.imageOver below (newer ++ older) = src.imageOver (src.imageOver below older) newer := by
  induction newer with
  | nil => rfl
  | cons p newer ih =>
    funext k
    rw [cons_append, imageOver, imageOver, ih]

omit [DecidableEq ν] in
theorem imageOver_of_unwritten {k : κ} (h : ∀ e ∈ names, src.clusters e k = none) :
    src.imageOver below names k = below k := by
  induction names with
  | nil => rfl
  | cons p names ih =>
    obtain ⟨hp, h⟩ := forall_mem_cons.mp h
    simp only [imageOver, hp, Option.getD_none]
    exact ih h

omit [DecidableEq ν] in
theorem imageOver_congr {k : κ} (h : (∀ e ∈ names, src.clusters e k = none) → below k = below' k) :
    src.imageOver below names k = src.imageOver below' names k := by
  induction names with
  | nil => exact h (forall_mem_nil _)
  | cons p names ih =>
    simp only [imageOver]
    cases hp : src.clusters p k with
    | some x => rfl
    | none => exact ih fun hno => h (forall_mem_cons.mpr ⟨hp, hno⟩)

theorem exists_throughBase (base : Option ν) (names : List ν) :
    ∃ rest, names = throughBase base names ++ rest ∧ (base = none → rest = []) ∧
      ∀ b, base = some b → b ∈ names → ∃ newer, throughBase base names = newer ++ [b] := by
  induction names with
  | nil => exact ⟨[], rfl, fun _ => rfl, fun b _ hb => absurd hb not_mem_nil⟩
  | cons p names ih =>
    obtain ⟨rest, hrs, hno, hla⟩ := ih
    rw [throughBase]
    split
    · next hbs =>
      refine ⟨names, rfl, fun h => ?_, fun b hb _ => ⟨[], ?_⟩⟩
      · simp [h] at hbs
      · simpa [hb] using hbs.symm
    · next hbs =>
      refine ⟨rest, congrArg (p :: ·) hrs, hno, fun b hb hmem => ?_⟩
      have hmem' := (mem_cons.mp hmem).resolve_left fun h => hbs (h ▸ hb)
      obtain ⟨newer, hnewer⟩ := hla b hb hmem'
      exact ⟨p :: newer, congrArg (p :: ·) hnewer⟩

end Images

/-! ### What the walk collects -/

section Walk

variable {src} {target : ν} {base : Option ν} {names chain result : List ν} {cursor : Bdev ν}

def fromTarget (target : ν) (collecting : Bool) (names : List ν) : List ν :=
  if collecting then names else names.dropWhile (· ≠ target)

theorem fromTarget_cons (target p : ν) (collecting : Bool) (names : List ν) :
    fromTarget target collecting (p :: names) =
      if collecting || p = target then p :: names else fromTarget target collecting names := by
  rw [fromTarget, fromTarget]
  by_cases hp : p = target <;> cases collecting <;> simp [hp]

theorem walk_spec {fuel : ℕ} {collecting : Bool}
    (h : src.walk target base fuel cursor chain collecting = .ok result)
    (hchn : src.IsChain cursor.baseSnapshot names) :
    result = (throughBase base (fromTarget target collecting names)).reverse ++ chain ∧
      (collecting = false → target ∈ names) ∧
      ∀ b, base = some b → b ∈ fromTarget target collecting names := by
  induction fuel generalizing cursor chain names collecting with
  | zero => cases h
  | succ fuel ih =>
    unfold walk at h
    split at h
    · next hparent =>
      -- the root: a full build ends here
      rw [hparent] at hchn
      cases names with
      | cons _ _ => exact hchn.elim
      | nil => grind [fromTarget, throughBase]
    · next parent hparent =>
      rw [hparent] at hchn
      cases names with
      | nil => exact hchn.elim
      | cons p names =>
        obtain ⟨rfl, bdev, hbdev, hchn⟩ := hchn
        rw [fromTarget_cons]
        dsimp only at h
        split at h
        · next hbs => grind [throughBase]
        · next hbs =>
          rw [getBdev, hbdev] at h
          by_cases hfails : src.fails (.alias parent)
          · rw [if_pos hfails] at h
            cases h
          · rw [if_neg hfails] at h
            have hnx := ih h hchn
            by_cases hc : (collecting || decide (parent = target))
            · simp only [hc, if_true, Bool.true_and, decide_eq_true_eq] at hbs hnx ⊢
              grind [fromTarget, throughBase]
            · grind [fromTarget]

end Walk

/-! ### What the replay leaves -/

section Replay

variable {src} {names older newer chain : List ν} {user : ν → Bool} {deleted : List ν}
  {calls : Calls ν κ} {d : Dest ν κ δ} {below : κ → δ}

theorem alignHead_spec (answer : Option Bool) (name : ν) (d : Dest ν κ δ) :
    (alignHead answer name d).1.head = d.head ∧
      ∀ s ∈ (alignHead answer name d).1.snapshots, s ∈ d.snapshots ∨ s = (name, d.head) := by
  cases answer with
  | none => simp only [alignHead]; grind
  | some took => cases took <;> simp only [alignHead] <;> grind

def TakenFrom (src : Source υ ν κ δ) (below : κ → δ) (older chain : List ν) (s : ν × (κ → δ)) :
    Prop :=
  ∃ before after, chain = before ++ s.1 :: after ∧
    s.2 = src.imageOver below (s.1 :: before.reverse ++ older)

omit [DecidableEq ν] in
theorem TakenFrom.cons {element : ν} {s : ν × (κ → δ)}
    (h : TakenFrom src below (element :: older) chain s) :
    TakenFrom src below older (element :: chain) s := by
  obtain ⟨before, after, rfl, himage⟩ := h
  exact ⟨element :: before, after, rfl, by simpa using himage⟩

theorem copyElements_spec (user : ν → Bool) (deleted : List ν) (calls : Calls ν κ) (chain : List ν)
    (hhd : d.head = src.imageOver below older) :
    ((src.copyElements user deleted calls chain d).2 = .ok () →
      (src.copyElements user deleted calls chain d).1.head =
        src.imageOver below (chain.reverse ++ older)) ∧
    ∀ s ∈ (src.copyElements user deleted calls chain d).1.snapshots,
      s ∈ d.snapshots ∨ s.1 ∉ deleted ∧ TakenFrom src below older chain s := by
  induction chain generalizing d older with
  | nil => exact ⟨fun _ => hhd, fun s hs => .inl hs⟩
  | cons element chain ih =>
    have hcopied : (fun k => (src.clusters element k).getD (d.head k)) =
        src.imageOver below (element :: older) := by
      rw [hhd]
      rfl
    rw [copyElements, shallowCopy, reverse_cons, append_assoc, singleton_append]
    cases calls.copy element with
    | some part => exact ⟨nofun, fun s hs => .inl hs⟩
    | none =>
      simp only [hcopied]
      split
      · next huser =>
        rw [Bool.and_eq_true, decide_eq_true_eq] at huser
        obtain ⟨hsm, hmd⟩ := alignHead_spec (calls.align element) element
          ⟨src.imageOver below (element :: older), d.snapshots⟩
        have htaken : ∀ s : ν × (κ → δ), s = (element, src.imageOver below (element :: older)) →
            s.1 ∉ deleted ∧ TakenFrom src below older (element :: chain) s := by
          rintro s rfl
          exact ⟨huser.2, [], chain, rfl, rfl⟩
        split
        · next heq =>
          rw [heq] at hmd
          exact ⟨nofun, fun s hs => (hmd s hs).imp_right (htaken s)⟩
        · next d₁ heq =>
          rw [heq] at hsm hmd
          obtain ⟨hdn, hsns⟩ := ih hsm
          refine ⟨hdn, fun s hs => ?_⟩
          rcases hsns s hs with hs | ⟨hlv, hs⟩
          · exact (hmd s hs).imp_right (htaken s)
          · exact .inr ⟨hlv, hs.cons⟩
      · obtain ⟨hdn, hsns⟩ := ih (d := ⟨_, d.snapshots⟩) rfl
        exact ⟨hdn, fun s hs => (hsns s hs).imp_right fun h => ⟨h.1, h.2.cons⟩⟩

variable {target : ν} {base : Option ν} {zero : δ}

variable (src) in
theorem image_eq_stretch (zero : δ) (names : List ν) (target : ν) (base : Option ν) :
    ∃ rest, names.dropWhile (· ≠ target) = stretch names target base ++ rest ∧
      (base = none → rest = []) ∧ src.image zero names target =
        src.imageOver (src.imageOver (fun _ => zero) rest) (stretch names target base) := by
  obtain ⟨rest, hrs, hno, -⟩ := exists_throughBase base (names.dropWhile (· ≠ target))
  exact ⟨rest, hrs, hno, by rw [← imageOver_append, image, stretch, ← hrs]⟩

theorem imageOver_stretch (hrdy : src.Ready zero names target base d.head) :
    src.imageOver d.head (stretch names target base) = src.image zero names target := by
  obtain ⟨rest, -, hno, himage⟩ := src.image_eq_stretch zero names target base
  funext k
  rw [himage]
  refine imageOver_congr fun hunwritten => ?_
  cases base with
  | none => rw [hno rfl, show d.head = _ from hrdy]; rfl
  | some b =>
    rw [show d.head k = _ from hrdy k hunwritten, himage, imageOver_of_unwritten hunwritten]

theorem imageOver_element {parent : Option ν} {e : ν} (hchn : src.IsChain parent names)
    (hrdy : src.Ready zero names target base d.head) (hbs : ∀ b, base = some b →
      b ∈ names.dropWhile (· ≠ target) ∧ d.head = src.image zero names b)
    (he : stretch names target base = newer ++ e :: older) :
    src.imageOver d.head (e :: older) = src.image zero names e := by
  obtain ⟨rest, hrs, hno, hla⟩ := exists_throughBase base (names.dropWhile (· ≠ target))
  obtain ⟨front, rfl⟩ : ∃ front, names = front ++ e :: (older ++ rest) := by
    refine ⟨names.takeWhile (· ≠ target) ++ newer, ?_⟩
    conv_lhs => rw [← takeWhile_append_dropWhile (p := (· ≠ target)) (l := names), hrs]
    rw [← stretch, he]
    simp
  rw [hchn.image_eq zero, ← cons_append, imageOver_append]
  cases base with
  | none => rw [hno rfl, show d.head = _ from hrdy]; rfl
  | some b =>
    obtain ⟨hmem, hhd⟩ := hbs b rfl
    obtain ⟨newer', hnewer'⟩ := hla b rfl hmem
    -- the stretch ends with the base, which is laid over its own image
    have hend : (e :: older).getLast? = some b := by
      have hsm : (newer ++ e :: older).getLast? = (newer' ++ [b]).getLast? := by
        rw [← he, stretch, hnewer']
      simpa [getLast?_append] using hsm
    obtain ⟨ys, hys⟩ := getLast?_eq_some_iff.mp hend
    have hfront : front ++ e :: (older ++ rest) = (front ++ ys) ++ b :: rest := by
      rw [← cons_append, hys]
      simp
    rw [hfront] at hchn hhd
    rw [hys, imageOver_append, imageOver_append _ ys, hhd, hchn.image_eq zero]
    congr 1
    funext k
    simp only [imageOver]
    cases src.clusters b k <;> rfl

/-- The head is the image of the target when the call completes, and each snapshot made is an image,
if the head was the image of the base, and of no deleted element but the target. -/
theorem copyChainTo_images (src : Source υ ν κ δ) (user : ν → Bool) (deleted : List ν)
    (calls : Calls ν κ) (liveUuid : Option υ) (lvolName target : ν) (base : Option ν)
    (d : Dest ν κ δ) (zero : δ) (names : List ν) (bdev : Bdev ν)
    (hhd : src.sourceHeadBdev liveUuid lvolName = .ok bdev)
    (hchn : src.IsChain bdev.baseSnapshot names) (hrdy : src.Ready zero names target base d.head) :
    let r := src.copyChainTo user deleted calls liveUuid lvolName target base d
    (∀ name, r.2 = .ok name → r.1.head = src.image zero names target) ∧
      ∀ s ∈ r.1.snapshots, s ∈ d.snapshots ∨
        ((∀ b, base = some b → d.head = src.image zero names b) → s.2 = src.image zero names s.1) ∧
          (s.1 ∈ deleted → s.1 = target) := by
  intro r
  cases hlin : src.lineageChain liveUuid lvolName target base with
  | error e =>
    have hr : r = (d, .error e) := by simp only [r, copyChainTo, hlin]
    rw [hr]
    exact ⟨nofun, fun s hs => .inl hs⟩
  | ok chain =>
    have hwalk := hlin
    rw [lineageChain, hhd] at hwalk
    obtain ⟨hcoll, -, hmem⟩ := walk_spec hwalk hchn
    obtain rfl : chain = (stretch names target base).reverse := hcoll.trans (append_nil _)
    obtain ⟨hdn, htaken⟩ := copyElements_spec user deleted calls (stretch names target base).reverse
      (show d.head = src.imageOver d.head [] from rfl)
    rw [reverse_reverse, append_nil, imageOver_stretch hrdy] at hdn
    have hsns := fun s hs => (htaken s hs).imp_right fun ⟨hlv, before, after, hspl, himage⟩ =>
      show ((∀ b, base = some b → d.head = src.image zero names b) →
        s.2 = src.image zero names s.1) ∧ (s.1 ∈ deleted → s.1 = target) by
        refine ⟨fun hbs => ?_, fun hdeleted => absurd hdeleted hlv⟩
        have hstretch : stretch names target base = after.reverse ++ s.1 :: before.reverse := by
          rw [← reverse_reverse (stretch names target base), hspl]
          simp
        rw [himage, append_nil]
        exact imageOver_element hchn hrdy (fun b hb => ⟨hmem b hb, hbs b hb⟩) hstretch
    rcases hcopy : src.copyElements user deleted calls (stretch names target base).reverse d with
      ⟨d₁, res⟩
    rw [hcopy] at hdn hsns
    cases res with
    | error e =>
      have hr : r = (d₁, .error e) := by simp only [r, copyChainTo, hlin, hcopy]
      rw [hr]
      exact ⟨nofun, hsns⟩
    | ok u =>
      have hdn := hdn rfl
      by_cases htgt : base = some target
      · have hr : r = (d₁, .ok target) := by
          simp only [r, copyChainTo, hlin, hcopy, if_pos htgt]
        rw [hr]
        exact ⟨fun _ _ => hdn, hsns⟩
      · obtain ⟨hsm, hmd⟩ := alignHead_spec calls.alignTarget target d₁
        have hr : r.1 = (alignHead calls.alignTarget target d₁).1 := by
          simp only [r, copyChainTo, hlin, hcopy, if_neg htgt]
          split <;> simp_all
        rw [hr, hsm]
        refine ⟨fun _ _ => hdn, fun s hs => ?_⟩
        rcases hmd s hs with hs | rfl
        · exact hsns s hs
        · exact .inr ⟨fun _ => hdn, fun _ => rfl⟩

def twoSnapshots : Source ℕ ℕ ℕ ℕ where
  bdevs
    | .alias 0 => some ⟨some 2⟩
    | .alias 2 => some ⟨some 1⟩
    | .alias 1 => some ⟨none⟩
    | _ => none
  fails _ := false
  clusters e k := if e = k + 1 then some (k + 5) else none

/-- A full build that also takes the user snapshot 1. -/
theorem full_build_images :
    let r := twoSnapshots.copyChainTo (· = 1) [] ⟨fun _ => none, fun _ => none, none⟩ none 0 2 none
      ⟨fun _ => 0, []⟩
    (r.2 = .ok 2 ∧ r.1.snapshots.map Prod.fst = [1, 2]) ∧ r.1.head = twoSnapshots.image 0 [2, 1] 2 ∧
      ∀ s ∈ r.1.snapshots, s.2 = twoSnapshots.image 0 [2, 1] s.1 := by
  obtain ⟨hhd, hsns⟩ := copyChainTo_images twoSnapshots (· = 1) []
    ⟨fun _ => none, fun _ => none, none⟩ none 0 2 none ⟨fun _ => 0, []⟩ 0 [2, 1] ⟨some 2⟩ rfl
    ⟨rfl, _, rfl, rfl, _, rfl, trivial⟩ rfl
  exact ⟨⟨rfl, rfl⟩, hhd 2 rfl, fun s hs =>
    ((hsns s hs).resolve_left not_mem_nil).1 (fun b hb => nomatch hb)⟩

/-- The target 2 is itself a deleted user snapshot, and it is made again. -/
theorem deleted_target_made :
    let r := twoSnapshots.copyChainTo (fun _ => true) [2] ⟨fun _ => none, fun _ => none, none⟩
      none 0 2 none ⟨fun _ => 0, []⟩
    r.2 = .ok 2 ∧ r.1.snapshots.map Prod.fst = [1, 2] :=
  ⟨rfl, rfl⟩

end Replay

end Source

end Flint.Replica
