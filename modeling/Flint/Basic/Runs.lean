import Mathlib.Data.List.Basic

/-!
# Cutting a stream into runs

A run ends after an item when the rule `cut` says so, from the length of the run and the item, and
the last run ends with the stream. The only state is the run since the last cut, so what comes after
a cut is cut as if the stream began there.
-/

namespace Runs

open List

variable {α : Type} (cut : ℕ → α → Bool)

/-- The runs of a stream, with `run` the items since the last cut. -/
def runsFrom (run : List α) : List α → List (List α)
  | [] => if run.isEmpty then [] else [run]
  | x :: l =>
    if cut (run.length + 1) x then (run ++ [x]) :: runsFrom [] l else runsFrom (run ++ [x]) l

def runs (l : List α) : List (List α) := runsFrom cut [] l

def openRun (run : List α) : List α → List α
  | [] => run
  | x :: l => if cut (run.length + 1) x then openRun [] l else openRun (run ++ [x]) l

def closedRuns (run : List α) : List α → List (List α)
  | [] => []
  | x :: l =>
    if cut (run.length + 1) x then (run ++ [x]) :: closedRuns [] l else closedRuns (run ++ [x]) l

variable {cut}

theorem runsFrom_append (run l₁ l₂ : List α) :
    runsFrom cut run (l₁ ++ l₂) =
      closedRuns cut run l₁ ++ runsFrom cut (openRun cut run l₁) l₂ := by
  induction l₁ generalizing run with
  | nil => rfl
  | cons x l₁ ih =>
    rw [cons_append, runsFrom, closedRuns, openRun]
    split
    · rw [ih, cons_append]
    · rw [ih]

theorem flatten_runsFrom (run l : List α) : (runsFrom cut run l).flatten = run ++ l := by
  induction l generalizing run with
  | nil =>
    rw [runsFrom]
    split
    · next h => simpa using h
    · simp
  | cons x l ih =>
    rw [runsFrom]
    split
    · simp [ih]
    · simp [ih]

@[simp] theorem flatten_runs (l : List α) : (runs cut l).flatten = l := flatten_runsFrom [] l

theorem ne_nil_of_mem_runsFrom {run l c : List α} (h : c ∈ runsFrom cut run l) : c ≠ [] := by
  induction l generalizing run with
  | nil =>
    rw [runsFrom] at h
    split at h
    · cases h
    · next hrun =>
      rw [mem_singleton.mp h]
      simpa using hrun
  | cons x l ih =>
    rw [runsFrom] at h
    split at h
    · rcases mem_cons.mp h with rfl | h
      · simp
      · exact ih h
    · exact ih h

theorem ne_nil_of_mem_runs {l c : List α} (h : c ∈ runs cut l) : c ≠ [] := ne_nil_of_mem_runsFrom h

theorem runsFrom_cons {run l c : List α} {cs : List (List α)} (h : runsFrom cut run l = c :: cs) :
    (cs = [] ∨ ∃ x, c = run ++ x ∧ closedRuns cut run x = [c] ∧ openRun cut run x = []) ∧
      runs cut cs.flatten = cs := by
  induction l generalizing run with
  | nil =>
    rw [runsFrom] at h
    split at h
    · cases h
    · obtain ⟨-, rfl⟩ := cons.inj h
      exact ⟨.inl rfl, rfl⟩
  | cons x l ih =>
    rw [runsFrom] at h
    split at h
    · next hcut =>
      obtain ⟨rfl, rfl⟩ := cons.inj h
      refine ⟨.inr ⟨[x], rfl, ?_, ?_⟩, ?_⟩
      · simp [closedRuns, hcut]
      · simp [openRun, hcut]
      · rw [flatten_runsFrom, nil_append]
        rfl
    · next hcut =>
      obtain ⟨hcls, hrs⟩ := ih h
      refine ⟨hcls.imp_right ?_, hrs⟩
      rintro ⟨y, rfl, hy, hop⟩
      refine ⟨x :: y, by simp, ?_, ?_⟩
      · rw [closedRuns, if_neg hcut, hy]
      · rw [openRun, if_neg hcut, hop]

theorem runs_flatten_drop (l : List α) (i : ℕ) :
    runs cut ((runs cut l).drop i).flatten = (runs cut l).drop i := by
  generalize hcs : runs cut l = cs
  have h : runs cut cs.flatten = cs := by rw [← hcs, flatten_runs, hcs]
  clear hcs
  induction i generalizing cs with
  | zero => exact h
  | succ i ih =>
    cases cs with
    | nil => rfl
    | cons c cs => exact ih cs (runsFrom_cons h).2

theorem runs_append_of_runs {cs ds : List (List α)} (h : runs cut (cs ++ ds).flatten = cs ++ ds)
    (hds : ds ≠ []) (l : List α) : runs cut (cs.flatten ++ l) = cs ++ runs cut l := by
  induction cs with
  | nil => rfl
  | cons c cs ih =>
    have hcons : runsFrom cut [] (c :: (cs ++ ds)).flatten = c :: (cs ++ ds) := h
    obtain ⟨hcls, hrs⟩ := runsFrom_cons hcons
    rcases hcls with hnil | ⟨x, hx, hruns, hop⟩
    · exact absurd (append_eq_nil_iff.mp hnil).2 hds
    · obtain rfl : c = x := hx
      rw [flatten_cons, append_assoc]
      change runsFrom cut [] (c ++ _) = _
      rw [runsFrom_append, hruns, hop]
      exact congrArg (c :: ·) (ih hrs)

end Runs
