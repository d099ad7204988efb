import Mathlib.LinearAlgebra.Matrix.ConjTranspose

/-!
# Matrices acting on one site of an index

A site of an index type `ι` is a component of type `κ` that can be read and replaced on
its own, such as one bit of a binary number. A matrix over `κ` acts on the vectors over
`ι` by mixing the entries that differ in that component only. The action takes products
to compositions and the conjugate transpose to the adjoint.

Candidates for upstreaming to Mathlib.
-/

open Matrix

/-- A component of type `κ` of the indices in `ι`. -/
structure Site (ι κ : Type*) where
  get : ι → κ
  set : κ → ι → ι
  get_set : ∀ k x, get (set k x) = k
  set_get : ∀ x, set (get x) x = x
  set_set : ∀ k l x, set k (set l x) = set k x

namespace Site

variable {ι κ R : Type*} [Fintype κ] [CommSemiring R] (s : Site ι κ)

/-- The action of a matrix on a vector through a site. -/
def act (g : Matrix κ κ R) (f : ι → R) : ι → R :=
  fun x => ∑ k, g (s.get x) k * f (s.set k x)

theorem act_apply (g : Matrix κ κ R) (f : ι → R) (x : ι) :
    s.act g f x = ∑ k, g (s.get x) k * f (s.set k x) := rfl

/-- Products act as compositions. -/
theorem act_mul (g h : Matrix κ κ R) (f : ι → R) : s.act (g * h) f = s.act g (s.act h f) := by
  ext x
  simp only [act_apply, mul_apply, Finset.sum_mul, Finset.mul_sum, s.get_set, s.set_set]
  rw [Finset.sum_comm]
  simp only [mul_assoc]

/-- A multiple of the unit matrix scales. -/
theorem act_smul_one [DecidableEq κ] (c : R) (f : ι → R) :
    s.act (c • (1 : Matrix κ κ R)) f = c • f := by
  ext x
  rw [act_apply, Finset.sum_eq_single (s.get x)]
  · simp [s.set_get]
  · intro k _ hk
    simp [one_apply_ne' hk]
  · intro hx
    exact absurd (Finset.mem_univ _) hx

/-- Exchange of a component with one kept outside. -/
def swap : ι × κ ≃ ι × κ where
  toFun p := (s.set p.2 p.1, s.get p.1)
  invFun p := (s.set p.2 p.1, s.get p.1)
  left_inv p := by simp only [s.set_set, s.set_get, s.get_set]
  right_inv p := by simp only [s.set_set, s.set_get, s.get_set]

/-- The conjugate transpose acts as the adjoint. -/
theorem act_adjoint [Fintype ι] [StarRing R] (g : Matrix κ κ R) (f h : ι → R) :
    star (s.act g f) ⬝ᵥ h = star f ⬝ᵥ s.act gᴴ h := by
  have hleft : star (s.act g f) ⬝ᵥ h = ∑ p : ι × κ,
      star (f (s.set p.2 p.1)) * star (g (s.get p.1) p.2) * h p.1 := by
    rw [Fintype.sum_prod_type]
    simp only [dotProduct, Pi.star_apply, act_apply, star_sum, star_mul', Finset.sum_mul]
    simp only [mul_comm (star (g _ _))]
  have hright : star f ⬝ᵥ s.act gᴴ h = ∑ p : ι × κ,
      star (f p.1) * star (g p.2 (s.get p.1)) * h (s.set p.2 p.1) := by
    rw [Fintype.sum_prod_type]
    simp only [dotProduct, Pi.star_apply, act_apply, conjTranspose_apply, Finset.mul_sum,
      mul_assoc]
  -- exchanging the component turns one sum into the other
  rw [hleft, hright, ← s.swap.sum_comp]
  simp only [swap, Equiv.coe_fn_mk, s.set_set, s.set_get, s.get_set]

end Site
