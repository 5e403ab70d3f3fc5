import Mathlib.Data.List.Induction
import Mathlib.Data.List.Pairwise

/-!
# Greedy selection

`pick` takes each item of a list that clashes with none taken before it. When one item is left out,
another may be taken in its place and keep out items that did not clash with the first. If that does
not happen, only items that clash with the one left out change (`pick_without`).
-/

namespace Greedy

open List Bool

variable {α : Type} {clash : α → α → Bool} {A l : List α} {c x : α}

def add (clash : α → α → Bool) (A : List α) (c : α) : List α :=
  if A.any (clash · c) then A else A ++ [c]

def pick (clash : α → α → Bool) (l : List α) : List α := l.foldl (add clash) []

theorem pick_snoc : pick clash (l ++ [c]) = add clash (pick clash l) c := foldl_append

theorem mem_add : x ∈ add clash A c ↔ x ∈ A ∨ x = c ∧ A.any (clash · c) = false := by
  unfold add
  split <;> simp [*]

theorem pick_isPrefix (l m : List α) : pick clash l <+: pick clash (l ++ m) := by
  induction m using reverseRecOn with
  | nil => simp
  | append_singleton m d ih =>
    rw [← append_assoc, pick_snoc, add]
    split
    · exact ih
    · exact ih.trans (prefix_append ..)

theorem mem_of_mem_pick (h : x ∈ pick clash l) : x ∈ l := by
  induction l using reverseRecOn with
  | nil => exact h
  | append_singleton l d ih =>
    rw [pick_snoc, mem_add] at h
    exact mem_append.mpr (h.imp ih fun h => mem_singleton.mpr h.1)

theorem pick_apart : (pick clash l).Pairwise fun a b => clash a b = false := by
  induction l using reverseRecOn with
  | nil => exact .nil
  | append_singleton l d ih =>
    rw [pick_snoc, add]
    split
    · exact ih
    · next h =>
      rw [not_eq_true, any_eq_false] at h
      refine pairwise_append.mpr ⟨ih, pairwise_singleton .., fun a ha b hb => ?_⟩
      rw [mem_singleton.mp hb]
      exact eq_false_iff.mpr (h a ha)

theorem mem_pick_iff {m : List α} (hnd : (l ++ c :: m).Nodup) :
    c ∈ pick clash (l ++ c :: m) ↔ (pick clash l).any (clash · c) = false := by
  induction m using reverseRecOn with
  | nil =>
    rw [pick_snoc, mem_add]
    refine ⟨fun h => (h.resolve_left fun hc => ?_).2, fun h => .inr ⟨rfl, h⟩⟩
    exact (nodup_append.mp hnd).2.2 c (mem_of_mem_pick hc) c (.head _) rfl
  | append_singleton m d ih =>
    rw [← cons_append, ← append_assoc] at hnd ⊢
    obtain ⟨hnd, -, hd⟩ := nodup_append.mp hnd
    rw [pick_snoc, mem_add, ← ih hnd]
    refine or_iff_left fun h => hd c ?_ d (.head _) h.1
    exact mem_append_right _ (.head _)

section Without

variable {me : α} (hsymm : ∀ a b, clash a b = clash b a)

include hsymm

theorem not_clash_of_mem {a b : α} (ha : a ∈ pick clash l) (hb : b ∈ pick clash l) (hne : a ≠ b) :
    clash a b = false :=
  have : Std.Symm fun a b => clash a b = false := ⟨fun a b h => (hsymm b a).trans h⟩
  pick_apart.forall ha hb hne

variable [DecidableEq α]

theorem pick_without (hnd : l.Nodup)
    (h : ∀ a ∈ pick clash (l.filter (· ≠ me)), ∀ d ∈ pick clash l, clash a me → clash a d →
      clash d me ∨ d = me) :
    (me ∉ pick clash l → pick clash l = pick clash (l.filter (· ≠ me))) ∧
      ∀ x ≠ me, (x ∈ pick clash l ↔ x ∈ pick clash (l.filter (· ≠ me))) ∨ clash x me := by
  induction l using reverseRecOn with
  | nil => exact ⟨fun _ => rfl, fun x _ => .inl Iff.rfl⟩
  | append_singleton l d ih =>
    obtain ⟨hnd, -, hd⟩ := nodup_append.mp hnd
    have hd : d ∉ l := fun hm => hd d hm d (.head _) rfl
    rw [filter_append] at h ⊢
    obtain ⟨hsm, hoths⟩ := ih hnd fun a ha b hb =>
      h a ((pick_isPrefix ..).subset ha) b ((pick_isPrefix ..).subset hb)
    by_cases hme : d = me
    · subst hme
      have hl : l.filter (· ≠ d) = l :=
        filter_eq_self.mpr fun x hx => decide_eq_true fun heq => hd (heq ▸ hx)
      have hnil : [d].filter (· ≠ d) = [] := by simp
      rw [hl, hnil, append_nil, pick_snoc]
      simp only [mem_add]
      refine ⟨fun hnot => if_pos ?_, fun x hx => .inl (or_iff_left fun h => hx h.1)⟩
      exact of_not_eq_false fun hany => hnot (.inr ⟨trivial, hany⟩)
    · have hsingle : [d].filter (· ≠ me) = [d] := filter_eq_self.mpr (by simpa using hme)
      rw [hsingle, pick_snoc, pick_snoc] at h ⊢
      refine ⟨fun hnot => by rw [hsm fun hm => hnot (mem_add.mpr (.inl hm))], fun x hx => ?_⟩
      rw [mem_add, mem_add]
      by_cases hxd : x = d
      · subst hxd
        by_cases hcla : clash x me
        · exact .inr hcla
        refine .inl (or_congr (iff_of_false (fun hm => hd (mem_of_mem_pick hm))
          fun hm => hd (mem_filter.mp (mem_of_mem_pick hm)).1) (and_congr_right fun _ => ?_))
        rw [any_eq_false, any_eq_false]
        constructor
        · intro hA b hb hbx
          have hne : b ≠ me := by simpa using (mem_filter.mp (mem_of_mem_pick hb)).2
          rcases hoths b hne with hiff | hcla'
          · exact hA b (hiff.mpr hb) hbx
          · have hx' := mem_add.mpr (.inr ⟨rfl, any_eq_false.mpr hA⟩)
            exact (h b (mem_add.mpr (.inl hb)) x hx' hcla' hbx).elim hcla hx
        · intro hB a ha hax
          have hne : a ≠ me := by
            rintro rfl
            exact hcla (hsymm x a ▸ hax)
          rcases hoths a hne with hiff | hcla'
          · exact hB a (hiff.mp ha) hax
          · by_cases hmem : me ∈ pick clash l
            · exact eq_false_iff.mp (not_clash_of_mem hsymm ha hmem hne) hcla'
            · exact hB a (hsm hmem ▸ ha) hax
      · exact (hoths x hx).imp_left fun hiff => by simp [hiff, hxd]

end Without

end Greedy
