import Mathlib.Logic.Relation

/-!
# Fallible computations and runs of a step function

`bind_ok` takes a successful sequence apart, and `foldlM_ok` is the loop rule.

A run is a fold of a step function over a list of requests. `Steps` says that every request of a run
meets a condition on the state it arrives in.
-/

namespace Outcome

open List

variable {ε α β σ : Type}

theorem bind_ok {x : Except ε α} {f : α → Except ε β} {b : β} :
    (x >>= f) = .ok b ↔ ∃ a, x = .ok a ∧ f a = .ok b := by
  cases x with
  | error e | ok a => simp [bind, Except.bind]

@[simp] theorem ok_bind {a : α} {f : α → Except ε β} : (Except.ok a >>= f) = f a := rfl

@[simp] theorem error_bind {e : ε} {f : α → Except ε β} : (Except.error e >>= f) = .error e := rfl

variable {a : α}

theorem pure_ok {b : α} : (pure a : Except ε α) = .ok b ↔ a = b := by
  simp [pure, Except.pure]

def refuse (bad : Prop) [Decidable bad] (e : ε) : Except ε Unit :=
  if bad then .error e else .ok ()

@[simp] theorem refuse_ok {bad : Prop} [Decidable bad] {e : ε} {u : Unit} :
    refuse bad e = .ok u ↔ ¬bad := by
  unfold refuse
  split
  · next h => simp [h]
  · next h => simp [h]

variable {l : List α}

theorem forM_ok {f : α → Except ε Unit} : l.forM f = .ok () ↔ ∀ a ∈ l, f a = .ok () := by
  induction l with
  | nil => exact ⟨nofun, fun _ => rfl⟩
  | cons a l ih =>
    change (f a >>= fun _ => l.forM f) = .ok () ↔ _
    rw [bind_ok]
    constructor
    · rintro ⟨_, ha, hl⟩ x hx
      rcases mem_cons.mp hx with rfl | hx
      · exact ha
      · exact ih.mp hl x hx
    · intro h
      exact ⟨(), h a (.head _), ih.mpr fun x hx => h x (.tail a hx)⟩

/-- The loop rule: every successful iteration hands `P` on to the rest of the list. -/
theorem foldlM_ok {f : σ → α → Except ε σ} {P : List α → σ → Prop}
    (hs : ∀ a l s s', P (a :: l) s → f s a = .ok s' → P l s') :
    ∀ {l : List α} {s s' : σ}, P l s → l.foldlM f s = .ok s' → P [] s' := by
  intro l
  induction l with
  | nil =>
    intro s s' hP hf
    obtain rfl := pure_ok.mp hf
    exact hP
  | cons a l ih =>
    intro s s' hP hf
    rw [foldlM_cons] at hf
    obtain ⟨s₁, h₁, h₂⟩ := bind_ok.mp hf
    exact ih (hs a l s s₁ hP h₁) h₂

/-! ### Runs -/

def run (step : σ → α → σ) (s : σ) (l : List α) : σ := l.foldl step s

@[simp] theorem run_nil (step : σ → α → σ) (s : σ) : run step s [] = s := rfl

@[simp] theorem run_cons (step : σ → α → σ) (s : σ) (a : α) (l : List α) :
    run step s (a :: l) = run step (step s a) l := rfl

theorem run_append (step : σ → α → σ) (s : σ) (l m : List α) :
    run step s (l ++ m) = run step (run step s l) m := foldl_append

variable {step : σ → α → σ} {s : σ}

theorem run_invariant {P : σ → Prop} (hs : ∀ s a, P s → P (step s a)) (h : P s) (l : List α) :
    P (run step s l) := by
  induction l generalizing s with
  | nil => exact h
  | cons a l ih => exact ih (hs s a h)

/-- Every request of the run meets `C` in the state it arrives in. -/
def Steps (step : σ → α → σ) (C : σ → α → Prop) : σ → List α → Prop
  | _, [] => True
  | s, a :: l => C s a ∧ Steps step C (step s a) l

instance decidableSteps (step : σ → α → σ) (C : σ → α → Prop) [∀ s a, Decidable (C s a)] :
    ∀ (s : σ) (l : List α), Decidable (Steps step C s l)
  | _, [] => inferInstanceAs (Decidable True)
  | s, a :: l =>
    have := decidableSteps step C (step s a) l
    inferInstanceAs (Decidable (C s a ∧ Steps step C (step s a) l))

variable {C : σ → α → Prop}

theorem steps_append {m : List α} :
    Steps step C s (l ++ m) ↔ Steps step C s l ∧ Steps step C (run step s l) m := by
  induction l generalizing s with
  | nil => simp [Steps]
  | cons a l ih => rw [cons_append, Steps, Steps, ih, run_cons, and_assoc]

theorem Steps.imp {D E : σ → α → Prop} (h : ∀ s a, C s a → D s a → E s a) (hC : Steps step C s l)
    (hD : Steps step D s l) : Steps step E s l := by
  induction l generalizing s with
  | nil => exact trivial
  | cons a l ih => exact ⟨h s a hC.1 hD.1, ih hC.2 hD.2⟩

theorem run_invariant_of_steps {P : σ → Prop} (hs : ∀ s a, P s → C s a → P (step s a)) (h : P s)
    (hl : Steps step C s l) : P (run step s l) := by
  induction l generalizing s with
  | nil => exact h
  | cons a l ih => exact ih (hs s a h hl.1) hl.2

/-! ### Histories -/

/-- After the run `l`: some request of it succeeded and `gains`, and every later one that succeeded
`keeps`. -/
inductive Since {ρ : Type} (exec : σ → α → Except ε (σ × ρ)) (state : List α → σ)
    (gains keeps : σ → σ → α → ρ → Prop) : List α → Prop
  | gained {l : List α} {a : α} {s' : σ} {r : ρ} (hxc : exec (state l) a = .ok (s', r))
      (hgains : gains (state l) s' a r) : Since exec state gains keeps (l ++ [a])
  | kept {l : List α} {a : α} (h : Since exec state gains keeps l)
      (hkps : ∀ s' r, exec (state l) a = .ok (s', r) → keeps (state l) s' a r) :
      Since exec state gains keeps (l ++ [a])

section Since

variable {ρ : Type} {exec : σ → α → Except ε (σ × ρ)} {state : List α → σ}
  {gains keeps : σ → σ → α → ρ → Prop}

theorem not_since_nil : ¬Since exec state gains keeps [] := by
  generalize hnil : ([] : List α) = l
  rintro (_ | _)
  all_goals exact absurd hnil.symm (append_ne_nil_of_right_ne_nil _ (cons_ne_nil _ _))

theorem since_snoc (h : Since exec state gains keeps (l ++ [a])) :
    (∃ s' r, exec (state l) a = .ok (s', r) ∧ gains (state l) s' a r) ∨
      Since exec state gains keeps l ∧
        ∀ s' r, exec (state l) a = .ok (s', r) → keeps (state l) s' a r := by
  generalize hl : l ++ [a] = m at h
  cases h with
  | gained hxc hgains =>
    obtain ⟨rfl, ha⟩ := append_inj' hl rfl
    obtain rfl := singleton_inj.mp ha
    exact .inl ⟨_, _, hxc, hgains⟩
  | kept h hkps =>
    obtain ⟨rfl, ha⟩ := append_inj' hl rfl
    obtain rfl := singleton_inj.mp ha
    exact .inr ⟨h, hkps⟩

theorem Since.of_ok {s' : σ} {r : ρ} (hxc : exec (state l) a = .ok (s', r))
    (h : Since exec state gains keeps (l ++ [a])) :
    gains (state l) s' a r ∨ Since exec state gains keeps l ∧ keeps (state l) s' a r := by
  rcases since_snoc h with ⟨s₁, r₁, hxc₁, hgains⟩ | ⟨h, hkps⟩
  · obtain ⟨rfl, rfl⟩ := Prod.mk.inj (Except.ok.inj (hxc.symm.trans hxc₁))
    exact .inl hgains
  · exact .inr ⟨h, hkps _ _ hxc⟩

theorem Since.of_error {e : ε} (hxc : exec (state l) a = .error e)
    (h : Since exec state gains keeps (l ++ [a])) : Since exec state gains keeps l := by
  rcases since_snoc h with ⟨s₁, r₁, hxc₁, -⟩ | ⟨h, -⟩
  · rw [hxc] at hxc₁
    cases hxc₁
  · exact h

end Since

end Outcome
