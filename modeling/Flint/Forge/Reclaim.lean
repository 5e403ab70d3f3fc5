import Flint.Forge.Restorable

/-!
# What a reclaim keeps

The loop of a reclaim drops a named pack whose reachable objects are all in other kept packs, until
there is none. It reads this from counts, which are made once and lowered as packs go. The counts
are right at every step (`Tally.Right`), so the loop is the one that counts anew each time.
-/

namespace Flint.Forge.Packs

open Function List

variable {ν : Type}

structure Tally (ν : Type) where
  kept : List ν
  drop : List ν
  count : Str → ℕ

namespace Tally

variable (O : Objects ν) (reach : List Str)

def touch (f : ℕ → ℕ) (count : Str → ℕ) (p : ν) : Str → ℕ :=
  (live O reach p).foldl (fun h o => update h o (f (h o))) count

def start (named : List ν) : Tally ν := ⟨named, [], named.foldl (touch O reach (· + 1)) fun _ => 0⟩

variable {O reach}

theorem touch_apply (f : ℕ → ℕ) (count : Str → ℕ) (p : ν) (o : Str) :
    touch O reach f count p o = if o ∈ live O reach p then f (count o) else count o := by
  have h : ∀ l : List Str, l.Nodup → ∀ count : Str → ℕ,
      l.foldl (fun h o => update h o (f (h o))) count o =
        if o ∈ l then f (count o) else count o := by
    intro l hl
    induction l with
    | nil => exact fun _ => rfl
    | cons a l ih =>
      intro count
      obtain ⟨ha, hl⟩ := nodup_cons.mp hl
      rw [foldl_cons, ih hl]
      by_cases heq : o = a
      · subst heq
        rw [if_neg ha, if_pos (.head _), update_self]
      · simp only [update_of_ne heq, mem_cons, heq, false_or]
  exact h _ (nodup_dedup _) count

theorem holders_cons (p : ν) (kept : List ν) (o : Str) :
    holders O reach (p :: kept) o =
      holders O reach kept o + if o ∈ live O reach p then 1 else 0 := by
  unfold holders
  by_cases ho : o ∈ live O reach p <;> simp [ho]

theorem count_start (named : List ν) (count : Str → ℕ) (o : Str) :
    named.foldl (touch O reach (· + 1)) count o = count o + holders O reach named o := by
  induction named generalizing count with
  | nil => rfl
  | cons p named ih =>
    rw [foldl_cons, ih, touch_apply, holders_cons]
    split <;> omega

/-- The counts are those of the kept packs, which cover all that the named ones do. -/
structure Right (O : Objects ν) (reach : List Str) (named : List ν) (t : Tally ν) : Prop where
  nodup : t.kept.Nodup
  count : ∀ o, t.count o = holders O reach t.kept o
  cover : ∀ p ∈ named, ∀ o ∈ live O reach p, ∃ q ∈ t.kept, o ∈ live O reach q
  kept : ∀ p ∈ t.kept, p ∈ named
  drop : ∀ p ∈ t.drop, p ∈ named

variable {named : List ν}

theorem right_start (hnm : named.Nodup) : (start O reach named).Right O reach named where
  nodup := hnm
  count o := (count_start named _ o).trans (Nat.zero_add _)
  cover p hp o ho := ⟨p, hp, ho⟩
  kept _ hp := hp
  drop _ hp := by cases hp

/-! ### The loop -/

variable [LinearOrder ν]

section Loop

variable (O reach)

def victim (order : List ν) (t : Tally ν) : Option ν :=
  order.find? fun p => t.kept.contains p && (live O reach p).all fun o => decide (1 < t.count o)

def without (t : Tally ν) (v : ν) : Tally ν :=
  ⟨t.kept.filter (· ≠ v), t.drop ++ [v], touch O reach (· - 1) t.count v⟩

def run (order : List ν) : ℕ → Tally ν → Tally ν
  | 0, t => t
  | n + 1, t =>
    match t.victim O reach order with
    | none => t
    | some v => run order n (t.without O reach v)

end Loop

theorem holders_filter {kept : List ν} (hkp : kept.Nodup) {v : ν} (hv : v ∈ kept) (o : Str) :
    holders O reach kept o =
      holders O reach (kept.filter (· ≠ v)) o + if o ∈ live O reach v then 1 else 0 := by
  have herase : kept.erase v = kept.filter (· ≠ v) := by
    rw [hkp.erase_eq_filter]
    exact filter_congr fun q _ => by by_cases hq : q = v <;> simp [hq]
  rw [← herase, ← holders_cons]
  exact ((perm_cons_erase hv).filter _).length_eq

theorem one_lt_holders {kept : List ν} (hkp : kept.Nodup) {p : ν} (hp : p ∈ kept) {o : Str}
    (ho : o ∈ live O reach p) :
    1 < holders O reach kept o ↔ ∃ q ∈ kept, q ≠ p ∧ o ∈ live O reach q := by
  rw [holders_filter hkp hp, if_pos ho, Nat.lt_add_left_iff_pos, holders, length_pos_iff_exists_mem]
  simp [and_comm]

variable {order : List ν} {t : Tally ν} {v : ν}

theorem victim_spec (h : t.victim O reach order = some v) :
    v ∈ t.kept ∧ ∀ o ∈ live O reach v, 1 < t.count o := by
  simpa using find?_some h

theorem Right.without (ht : t.Right O reach named) (hv : t.victim O reach order = some v) :
    (t.without O reach v).Right O reach named := by
  obtain ⟨hmem, hmany⟩ := victim_spec hv
  refine ⟨ht.nodup.filter _, ?_, ?_, fun p hp => ht.kept p (mem_of_mem_filter hp), ?_⟩
  · intro o
    have hcnt : touch O reach (· - 1) t.count v o = holders O reach (t.kept.filter (· ≠ v)) o := by
      rw [touch_apply, ht.count, holders_filter ht.nodup hmem]
      split <;> simp
    exact hcnt
  · intro p hp o ho
    obtain ⟨q, hq, hoq⟩ := ht.cover p hp o ho
    by_cases hqv : q = v
    · subst hqv
      obtain ⟨q', hq', hne, ho'⟩ :=
        (one_lt_holders ht.nodup hq hoq).mp (ht.count o ▸ hmany o hoq)
      exact ⟨q', mem_filter.mpr ⟨hq', decide_eq_true hne⟩, ho'⟩
    · exact ⟨q, mem_filter.mpr ⟨hq, decide_eq_true hqv⟩, hoq⟩
  · intro p hp
    rcases mem_append.mp hp with hp | hp
    · exact ht.drop p hp
    · exact mem_singleton.mp hp ▸ ht.kept v hmem

theorem Right.run (ht : t.Right O reach named) (n : ℕ) :
    (run O reach order n t).Right O reach named := by
  fun_induction Tally.run O reach order n t with
  | case1 | case2 => exact ht
  | case3 n t v hv ih => exact ih (ht.without hv)

theorem victim_run {n : ℕ} (hn : t.kept.length ≤ n) :
    (run O reach order n t).victim O reach order = none := by
  fun_induction run O reach order n t with
  | case1 t =>
    rw [victim, length_eq_zero_iff.mp (Nat.le_zero.mp hn)]
    simp
  | case2 n t hv => exact hv
  | case3 n t v hv ih =>
    have hlt : (t.kept.filter (· ≠ v)).length < t.kept.length :=
      length_filter_lt_length_iff_exists.mpr ⟨v, (victim_spec hv).1, by simp⟩
    exact ih (Nat.le_of_lt_succ (hlt.trans_le hn))

theorem Right.own (ht : t.Right O reach named) (horder : named ⊆ order)
    (hend : t.victim O reach order = none) {p : ν} (hp : p ∈ t.kept) :
    ∃ o ∈ live O reach p, ∀ q ∈ t.kept, o ∈ live O reach q → q = p := by
  have hnot := find?_eq_none.mp hend p (horder (ht.kept p hp))
  rw [contains_iff_mem.mpr hp] at hnot
  simp only [Bool.true_and, all_eq_true, decide_eq_true_eq, not_forall] at hnot
  obtain ⟨o, ho, hfew⟩ := hnot
  rw [ht.count, one_lt_holders ht.nodup hp ho] at hfew
  exact ⟨o, ho, fun q hq hoq => by_contra fun hne => hfew ⟨q, hq, hne, hoq⟩⟩

theorem Right.reclaimLoop_eq (ht : t.Right O reach named) (n : ℕ) :
    reclaimLoop O reach order n t.kept t.drop =
      ((Tally.run O reach order n t).kept, (Tally.run O reach order n t).drop) := by
  induction n generalizing t with
  | zero => rfl
  | succ n ih =>
    have hsm : (order.find? fun p => decide (p ∈ t.kept) &&
        (live O reach p).all fun o => decide (1 < holders O reach t.kept o)) =
          t.victim O reach order := by
      simp only [victim, ht.count, contains_eq_mem]
    rw [reclaimLoop, hsm, Tally.run]
    cases hv : t.victim O reach order with
    | none => rfl
    | some v => exact ih (ht.without hv)

end Tally

/-- **A reclaim keeps a cover with nothing to spare.** The loop ends, after no more rounds than
there are packs. What it keeps covers what the named packs held of the reachable objects, and each
pack kept has a reachable object that no other has. -/
theorem reclaim_keeps_irredundant_cover [LinearOrder ν] (O : Objects ν) (reach : List Str)
    (named : List ν) (hnm : named.Nodup) :
    let run := fun n => Tally.run O reach (scanOrder O reach named) n (.start O reach named)
    let last := run (named.length + 1)
    (∀ n o, (run n).count o = holders O reach (run n).kept o) ∧
    (∀ n, named.length ≤ n → (run n).victim O reach (scanOrder O reach named) = none) ∧
    (∀ p ∈ named, ∀ o ∈ live O reach p, ∃ q ∈ last.kept, o ∈ live O reach q) ∧
    (∀ p ∈ last.kept, ∃ o ∈ live O reach p, ∀ q ∈ last.kept, o ∈ live O reach q → q = p) ∧
    ∀ (s : Repo ν) (snap : Snapshot ν), snap.packs = named →
      O.reachableFrom (tipsOf snap.refs) = reach → 2 ≤ named.length →
      (∀ p ∈ named, ⟨p, .idx⟩ ∈ s.disk ∧ ⟨p, .pack⟩ ∈ s.disk) →
      reclaimDrops O s snap = some last.drop := by
  intro run last
  have hst : (Tally.start O reach named).Right O reach named := Tally.right_start hnm
  have hrun : ∀ n, (run n).Right O reach named := fun n => hst.run n
  have hend : ∀ n, named.length ≤ n → (run n).victim O reach (scanOrder O reach named) = none :=
    fun n hn => Tally.victim_run hn
  have hla := hrun (named.length + 1)
  refine ⟨fun n => (hrun n).count, hend, hla.cover, fun p => hla.own ?_ (hend _ (by omega)), ?_⟩
  · exact (perm_insertionSort _ _).symm.subset
  · rintro s snap rfl rfl htwo hdisk
    have hloop : reclaimLoop O _ (scanOrder O _ snap.packs) (snap.packs.length + 1) snap.packs [] =
        (last.kept, last.drop) := hst.reclaimLoop_eq _
    unfold reclaimDrops
    rw [if_neg htwo.not_gt, if_pos (by simpa using hdisk)]
    dsimp only
    rw [hloop]
    refine if_pos ?_
    simp only [all_eq_true, any_eq_true, decide_eq_true_eq]
    exact fun p hp => hla.cover p (hla.drop p hp)

/-- A pack is kept for the two that were folded into it. -/
theorem folded_packs_dropped :
    let O := words packed
    let reach := O.reachableFrom [third]
    let last := Tally.run O reach (scanOrder O reach [1, 5, 6]) 4 (.start O reach [1, 5, 6])
    last.kept = [1] ∧ ∀ p ∈ [1, 5, 6], ∀ o ∈ live O reach p, o ∈ live O reach 1 := by
  intro O reach last
  have hkp : last.kept = [1] := by decide
  refine ⟨hkp, fun p hp o ho => ?_⟩
  obtain ⟨-, -, hcvr, -⟩ := reclaim_keeps_irredundant_cover O reach [1, 5, 6] (by decide)
  obtain ⟨q, hq, hoq⟩ := hcvr p hp o ho
  have hone : q ∈ [1] := hkp ▸ hq
  exact mem_singleton.mp hone ▸ hoq

end Flint.Forge.Packs
