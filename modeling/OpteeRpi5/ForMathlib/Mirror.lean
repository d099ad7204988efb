import Mathlib.LinearAlgebra.Matrix.ConjTranspose
import OpteeRpi5.ForStd.Loop

/-!
# Mirror images of operations on vectors

The states of a program are seen as vectors through a map `v`. Two operations on states
are mirror images of each other when they are adjoint and the second undoes the first
up to a factor. No linearity is asked for: it follows from the adjoint.

Mirror images compose in the opposite order, so a loop that counts up has the loop that
counts down over the mirror images of its iterations as its mirror image.

Candidates for upstreaming to Mathlib.
-/

open Matrix

/-- `G` is the adjoint of `F` and undoes it up to the factor `c`. -/
structure Mirror {S ι R : Type*} [Fintype ι] [CommSemiring R] [StarRing R] (v : S → ι → R)
    (F G : S → S) (c : R) : Prop where
  adjoint : ∀ s t, star (v (F s)) ⬝ᵥ v t = star (v s) ⬝ᵥ v (G t)
  cancel : ∀ s, v (G (F s)) = c • v s

namespace Mirror

variable {S : Type} {ι R : Type*} [Fintype ι] [CommSemiring R] [StarRing R] {v : S → ι → R}
  {F G F' G' : S → S} {c c' : R}

theorem refl (v : S → ι → R) : Mirror v (fun s => s) (fun s => s) 1 where
  adjoint _ _ := rfl
  cancel s := (one_smul R (v s)).symm

/-- Only the vector of a state matters to `G`, and factors pass through it. -/
theorem map_smul [DecidableEq ι] (hv : Function.Surjective v) (h : Mirror v F G c) {s t : S}
    {a : R} (ha : v s = a • v t) : v (G s) = a • v (G t) := by
  ext i
  -- entry `i` is the product with a basis vector, which is the vector of some state
  obtain ⟨e, he⟩ := hv (Pi.single i 1)
  have hentry : ∀ u, v (G u) i = star (v (F e)) ⬝ᵥ v u := by
    intro u
    rw [h.adjoint, he, Pi.star_single, star_one, single_one_dotProduct]
  rw [hentry, ha, dotProduct_smul, ← hentry, Pi.smul_apply]

/-- Mirror images compose in the opposite order. -/
theorem comp [DecidableEq ι] (hv : Function.Surjective v) (h : Mirror v F G c)
    (h' : Mirror v F' G' c') :
    Mirror v (fun s => F' (F s)) (fun s => G (G' s)) (c * c') where
  adjoint s t := by rw [h'.adjoint, h.adjoint]
  cancel s := by
    have hinner := h.map_smul hv (h'.cancel (F s))
    rw [hinner, h.cancel, smul_smul, mul_comm]

/-- The mirror image of a loop that counts up is a loop that counts down. -/
theorem fold [DecidableEq ι] (hv : Function.Surjective v) {n : Nat} {F G : Nat → S → S}
    {c : Nat → R} (h : ∀ q < n, Mirror v (F q) (G q) (c q)) :
    Mirror v (Loop.fold n F) (Loop.foldDown n G) (∏ q ∈ Finset.range n, c q) := by
  induction n with
  | zero =>
    rw [Finset.prod_range_zero]
    exact refl v
  | succ n ih =>
    rw [Finset.prod_range_succ]
    have hstep := (ih (fun q hq => h q (by omega))).comp hv (h n (by omega))
    exact hstep

/-- The mirror image of a repetition is a repetition. -/
theorem iterate [DecidableEq ι] (hv : Function.Surjective v) (h : Mirror v F G c) (n : Nat) :
    Mirror v (Loop.fold n (fun _ => F)) (Loop.fold n (fun _ => G)) (c ^ n) := by
  have hloop := fold hv (n := n) (fun _ _ => h)
  rw [Finset.prod_const, Finset.card_range] at hloop
  have hdown : Loop.foldDown n (fun _ => G) = Loop.fold n (fun _ => G) := by
    ext s
    exact Loop.foldDown_const n G s
  rw [hdown] at hloop
  exact hloop

end Mirror
