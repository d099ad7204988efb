/-!
# Running a state monad

`StateM σ` runs to a pair. The lemmas of core state the run of a bind through the
bind of `Id`; these state it as the run of the continuation, so that `simp` executes a
program statement by statement. They are proved by `(rfl)` so that `simp` keeps each
step in the proof term; as definitional equations they would leave the kernel to find
the run of a whole program at once.

Candidates for upstreaming to Lean's standard library.
-/

namespace StateM

variable {σ α β : Type}

theorem run_bind (x : StateM σ α) (f : α → StateM σ β) (s : σ) :
    (x >>= f).run s = (f (x.run s).1).run (x.run s).2 := (rfl)

theorem run_pure (a : α) (s : σ) : (pure a : StateM σ α).run s = (a, s) := (rfl)

theorem run_get (s : σ) : (get : StateM σ σ).run s = (s, s) := (rfl)

theorem run_modify (f : σ → σ) (s : σ) :
    (modify f : StateM σ PUnit).run s = (⟨⟩, f s) := (rfl)

theorem run_ite (c : Prop) [Decidable c] (x y : StateM σ α) (s : σ) :
    (if c then x else y).run s = if c then x.run s else y.run s := by
  split <;> rfl

end StateM
