/-!
# Counted loops

`Loop.fold` is the pure loop `for (i = 0; i < n; i++) a = f(i, a)` and `Loop.foldDown`
the one that counts down. `Loop.up` and `Loop.down` run a body of a state monad for
`i = 0, .., n - 1` and for `i = n - 1, .., 0`.

The loops that count up come with an invariant rule, and the pure one with a relational
rule for two loops of the same length. The two loops may run over different types, so
the relational rule covers a program and its abstraction.

Candidates for upstreaming to Lean's standard library.
-/

namespace Loop

variable {σ α β : Type}

/-- `for (i = 0; i < n; i++) a = f(i, a)`. -/
def fold (n : Nat) (f : Nat → α → α) (a : α) : α :=
  match n with
  | 0 => a
  | n + 1 => f n (fold n f a)

/-- `for (i = n - 1; i >= 0; i--) a = f(i, a)`. -/
def foldDown (n : Nat) (f : Nat → α → α) (a : α) : α :=
  match n with
  | 0 => a
  | n + 1 => foldDown n f (f n a)

/-- The body for `i = 0, .., n - 1`, with a loop-carried value. -/
def up (n : Nat) (body : Nat → α → StateM σ α) (a : α) : StateM σ α :=
  match n with
  | 0 => pure a
  | n + 1 => do
    let a ← up n body a
    body n a

/-- The body for `i = n - 1, .., 0`, with a loop-carried value. -/
def down (n : Nat) (body : Nat → α → StateM σ α) (a : α) : StateM σ α :=
  match n with
  | 0 => pure a
  | n + 1 => do
    let a ← body n a
    down n body a

/-! ## Unrolling -/

@[simp] theorem fold_zero (f : Nat → α → α) (a : α) : fold 0 f a = a := rfl

theorem fold_succ (n : Nat) (f : Nat → α → α) (a : α) :
    fold (n + 1) f a = f n (fold n f a) := rfl

theorem foldDown_succ (n : Nat) (f : Nat → α → α) (a : α) :
    foldDown (n + 1) f a = foldDown n f (f n a) := rfl

theorem up_succ (n : Nat) (body : Nat → α → StateM σ α) (a : α) (s : σ) :
    (up (n + 1) body a).run s =
      (body n ((up n body a).run s).1).run ((up n body a).run s).2 := rfl

/-- A loop depends on the iterations it runs only. -/
theorem fold_congr {n : Nat} {f g : Nat → α → α} (h : ∀ i < n, f i = g i) (a : α) :
    fold n f a = fold n g a := by
  induction n with
  | zero => rfl
  | succ n ih => rw [fold_succ, fold_succ, ih (fun i hi => h i (by omega)), h n (by omega)]

theorem foldDown_congr {n : Nat} {f g : Nat → α → α} (h : ∀ i < n, f i = g i) (a : α) :
    foldDown n f a = foldDown n g a := by
  induction n generalizing a with
  | zero => rfl
  | succ n ih =>
    rw [foldDown_succ, foldDown_succ, h n (by omega)]
    exact ih (fun i hi => h i (by omega)) _

/-- Equal iterations can be peeled off at either end. -/
theorem fold_const_succ (n : Nat) (f : α → α) (a : α) :
    fold (n + 1) (fun _ => f) a = fold n (fun _ => f) (f a) := by
  induction n with
  | zero => rfl
  | succ n ih => rw [fold_succ, ih, fold_succ]

/-- With equal iterations the direction of a loop does not matter. -/
theorem foldDown_const (n : Nat) (f : α → α) (a : α) :
    foldDown n (fun _ => f) a = fold n (fun _ => f) a := by
  induction n generalizing a with
  | zero => rfl
  | succ n ih => rw [foldDown_succ, ih, fold_const_succ]

/-! ## Invariant rules -/

/-- Invariant rule for `fold`: `P i` holds before iteration `i`. -/
theorem fold_inv (P : Nat → α → Prop) {n : Nat} {f : Nat → α → α} {a : α}
    (h0 : P 0 a) (hstep : ∀ i a, i < n → P i a → P (i + 1) (f i a)) :
    P n (fold n f a) := by
  induction n with
  | zero => exact h0
  | succ n ih =>
    have hn := ih (fun i a hi => hstep i a (by omega))
    exact hstep n _ (by omega) hn

/-- Invariant rule for `up`: `P i` holds before iteration `i`. -/
theorem up_inv (P : Nat → α → σ → Prop) {n : Nat} {body : Nat → α → StateM σ α}
    {a : α} {s : σ} (h0 : P 0 a s)
    (hstep : ∀ i a s, i < n → P i a s →
      P (i + 1) ((body i a).run s).1 ((body i a).run s).2) :
    P n ((up n body a).run s).1 ((up n body a).run s).2 := by
  induction n with
  | zero => exact h0
  | succ n ih =>
    have hn := ih (fun i a s hi => hstep i a s (by omega))
    rw [up_succ]
    exact hstep n _ _ (by omega) hn

/-! ## Relational rule -/

/-- Two `fold` loops of one length keep a relation that every iteration keeps. -/
theorem fold_rel (R : Nat → α → β → Prop) {n : Nat} {f : Nat → α → α}
    {g : Nat → β → β} {a : α} {b : β} (h0 : R 0 a b)
    (hstep : ∀ i a b, i < n → R i a b → R (i + 1) (f i a) (g i b)) :
    R n (fold n f a) (fold n g b) := by
  induction n with
  | zero => exact h0
  | succ n ih =>
    have hn := ih (fun i a b hi => hstep i a b (by omega))
    exact hstep n _ _ (by omega) hn

end Loop
