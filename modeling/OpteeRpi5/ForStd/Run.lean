/-!
# Runs of a transition function

A system takes a step for an action, or refuses it. `Run.exec` performs a list of
actions and fails when one is refused; `Run.guard` refuses actions on top of that. An
interleaving of several parties is a list of the actions of all of them, and what holds
after every list holds at every moment.

Candidates for upstreaming to Lean's standard library.
-/

namespace Run

variable {σ α : Type}

/-- Perform the actions in order. -/
def exec (step : σ → α → Option σ) : σ → List α → Option σ
  | s, [] => some s
  | s, a :: as => (step s a).bind fun s' => exec step s' as

/-- Steps that `ok` allows. -/
def guard (ok : σ → α → Bool) (step : σ → α → Option σ) (s : σ) (a : α) : Option σ :=
  if ok s a then step s a else none

theorem guard_eq_some {ok : σ → α → Bool} {step : σ → α → Option σ} {s s' : σ} {a : α}
    (h : guard ok step s a = some s') : ok s a = true ∧ step s a = some s' := by
  unfold guard at h
  split at h
  · next hok => exact ⟨hok, h⟩
  · cases h

/-- A run in two parts. -/
theorem exec_append {step : σ → α → Option σ} (s : σ) (as bs : List α) :
    exec step s (as ++ bs) = (exec step s as).bind fun s' => exec step s' bs := by
  induction as generalizing s with
  | nil => rfl
  | cons a as ih =>
    rw [List.cons_append, exec, exec, Option.bind_assoc]
    exact congrArg _ (funext fun s₁ => ih s₁)

/-- What holds at the start and is kept by every step holds after every run. -/
theorem exec_inv (P : σ → Prop) {step : σ → α → Option σ}
    (hstep : ∀ s a s', P s → step s a = some s' → P s') {s s' : σ} {as : List α}
    (h0 : P s) (h : exec step s as = some s') : P s' := by
  induction as generalizing s with
  | nil =>
    cases h
    exact h0
  | cons a as ih =>
    rw [exec, Option.bind_eq_some_iff] at h
    obtain ⟨s₁, h₁, hrest⟩ := h
    exact ih (hstep s a s₁ h0 h₁) hrest

/-- A block of actions that can be performed over and over, with a count of the rounds. -/
theorem exec_rounds (P : Nat → σ → Prop) {step : σ → α → Option σ} {block : List α}
    (hround : ∀ k s, P k s → ∃ s', exec step s block = some s' ∧ P (k + 1) s') (n : Nat) {k : Nat}
    {s : σ} (h : P k s) :
    ∃ s', exec step s (List.replicate n block).flatten = some s' ∧ P (k + n) s' := by
  induction n generalizing k s with
  | zero => exact ⟨s, rfl, h⟩
  | succ n ih =>
    obtain ⟨s₁, h₁, hP₁⟩ := hround k s h
    obtain ⟨s', hrest, hP'⟩ := ih hP₁
    refine ⟨s', ?_, ?_⟩
    · rw [List.replicate_succ, List.flatten_cons, exec_append, h₁]
      exact hrest
    · rw [show k + (n + 1) = k + 1 + n by omega]
      exact hP'

end Run
