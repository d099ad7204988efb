import Mathlib.Logic.Function.Basic

/-!
# Spin locks

A lock is one bit that a party sets by test-and-set when it finds it clear, and clears when
it leaves. Each party has a local state, and `inside` says in which of them it is between
the two. `SpinLock.Held` is what such a lock guarantees: one party at most is inside, its
owner, and the lock is set exactly while there is one.

The rules say how the guarantee survives a step of one party, by what the step does to the
lock. They ask for nothing else of the step, so they apply to any number of locks in one
system.

Candidates for upstreaming to Lean's standard library.
-/

namespace SpinLock

variable {ι τ : Type}

/-- The party inside is the owner, and the lock is set while there is one. -/
structure Held (inside : τ → Prop) (locked : Bool) (party : ι → τ) (owner : Option ι) :
    Prop where
  inside_iff : ∀ i, inside (party i) ↔ owner = some i
  locked_eq : locked = owner.isSome

namespace Held

variable {inside : τ → Prop} {locked : Bool} {party : ι → τ} {owner : Option ι}

/-- Nobody is inside. -/
theorem free (h : ∀ i, ¬ inside (party i)) : Held inside false party none where
  inside_iff i :=
    ⟨fun hi => absurd hi (h i), fun hnone => absurd hnone.symm (Option.some_ne_none i)⟩
  locked_eq := rfl

theorem unique (h : Held inside locked party owner) {i j : ι} (hi : inside (party i))
    (hj : inside (party j)) : i = j :=
  Option.some.inj (((h.inside_iff i).mp hi).symm.trans ((h.inside_iff j).mp hj))

/-- A clear lock has no owner. -/
theorem owner_eq_none (h : Held inside locked party owner) (hclear : locked = false) :
    owner = none :=
  Option.not_isSome_iff_eq_none.mp (by rw [← h.locked_eq, hclear]; exact Bool.false_ne_true)

/-- The lock is clear when nobody is inside. -/
theorem locked_eq_false (h : Held inside locked party owner) (hout : ∀ i, ¬ inside (party i)) :
    locked = false := by
  rw [h.locked_eq]
  cases howner : owner with
  | none => rfl
  | some i => exact absurd ((h.inside_iff i).mpr howner) (hout i)

variable [DecidableEq ι]

/-- The owner is not touched by a step of a party outside. -/
theorem map_update (h : Held inside locked party owner) {i : ι} (hout : ¬ inside (party i))
    (t : τ) :
    owner.map (Function.update party i t) = owner.map party := by
  cases howner : owner with
  | none => rfl
  | some j =>
    have hji : j ≠ i := fun hji => hout ((h.inside_iff i).mpr (howner.trans (congrArg some hji)))
    simp [hji]

/-- A step of a party that neither enters nor leaves. -/
theorem move (h : Held inside locked party owner) {i : ι} {t : τ}
    (ht : inside t ↔ inside (party i)) :
    Held inside locked (Function.update party i t) owner where
  inside_iff j := by
    by_cases hj : j = i
    · rw [hj, Function.update_self, ht]
      exact h.inside_iff i
    · rw [Function.update_of_ne hj]
      exact h.inside_iff j
  locked_eq := h.locked_eq

/-- A party that finds the lock clear enters. -/
theorem acquire (h : Held inside locked party owner) (hclear : locked = false) {i : ι} {t : τ}
    (ht : inside t) : Held inside true (Function.update party i t) (some i) where
  inside_iff j := by
    by_cases hj : j = i
    · rw [hj, Function.update_self]
      exact iff_of_true ht rfl
    · rw [Function.update_of_ne hj, h.inside_iff j, h.owner_eq_none hclear]
      exact iff_of_false (Option.some_ne_none j).symm (fun hsome => hj (Option.some.inj hsome).symm)
  locked_eq := rfl

/-- The owner leaves, and clears the lock. -/
theorem release (h : Held inside locked party owner) {i : ι} {t : τ} (hi : inside (party i))
    (ht : ¬ inside t) : Held inside false (Function.update party i t) none := by
  apply free
  intro j hj
  by_cases hne : j = i
  · rw [hne, Function.update_self] at hj
    exact ht hj
  · rw [Function.update_of_ne hne] at hj
    exact hne (h.unique hj hi)

end Held

end SpinLock
