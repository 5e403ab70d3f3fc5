import Mathlib.Logic.Basic

/-!
# Computations that keep a state and never fail

`Ensures I x P`: from every state of the invariant `I`, the fallible computation `x` succeeds with a
result of `P` and keeps `I`. So a cache is proved correct: the answers do not depend on what it
holds.
-/

variable {σ ε α β : Type} {I : σ → Prop}

/-- From every state of the invariant, the computation succeeds with a result of `P` and keeps the
invariant. -/
def Ensures (I : σ → Prop) (x : StateT σ (Except ε) α) (P : α → Prop) : Prop :=
  ∀ s, I s → ∃ a s', x s = .ok (a, s') ∧ P a ∧ I s'

/-- The computation has one answer, whatever state of the invariant it starts from. -/
def Answers (I : σ → Prop) (x : StateT σ (Except ε) α) (a : α) : Prop := Ensures I x (· = a)

variable {x : StateT σ (Except ε) α} {Q : β → Prop}

namespace Ensures

variable {P : α → Prop}

theorem pure {a : α} (h : P a) : Ensures I (Pure.pure a : StateT σ (Except ε) α) P :=
  fun s hs => ⟨a, s, rfl, h, hs⟩

theorem bind {f : α → StateT σ (Except ε) β} (hx : Ensures I x P)
    (hf : ∀ a, P a → Ensures I (f a) Q) : Ensures I (x >>= f) Q := by
  intro s hs
  obtain ⟨a, s₁, hrun, ha, hs₁⟩ := hx s hs
  obtain ⟨b, s₂, hrun₂, hb, hs₂⟩ := hf a ha s₁ hs₁
  refine ⟨b, s₂, ?_, hb, hs₂⟩
  change (x s >>= fun r => f r.1 r.2) = _
  rw [hrun]
  exact hrun₂

theorem get_bind {f : σ → StateT σ (Except ε) β}
    (hf : ∀ s, I s → ∃ b s', f s s = .ok (b, s') ∧ Q b ∧ I s') : Ensures I (get >>= f) Q :=
  fun s hs => hf s hs

end Ensures

namespace Answers

theorem pure (a : α) : Answers I (Pure.pure a : StateT σ (Except ε) α) a := Ensures.pure rfl

theorem bind {f : α → StateT σ (Except ε) β} {a : α} (hx : Answers I x a) (hf : Ensures I (f a) Q) :
    Ensures I (x >>= f) Q := by
  refine Ensures.bind hx ?_
  intro a' ha'
  rwa [ha']

theorem foldlM {f : β → α → StateT σ (Except ε) β} {g : β → α → β} {l : List α} {b : β}
    (h : ∀ b, ∀ a ∈ l, Answers I (f b a) (g b a)) : Answers I (l.foldlM f b) (l.foldl g b) := by
  induction l generalizing b with
  | nil => exact Answers.pure b
  | cons a l ih =>
    rw [List.foldlM_cons, List.foldl_cons]
    refine Answers.bind (h b a (.head _)) ?_
    exact ih fun b a ha => h b a (.tail _ ha)

end Answers
