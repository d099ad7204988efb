import Mathlib.Analysis.SpecialFunctions.Trigonometric.Basic
import OpteeRpi5.ForMathlib.OverlapKernel
import OpteeRpi5.Spec.KernelSymmetric

/-!
# The kernel is positive semidefinite

With the true sine and cosine every gate is unitary, so the first amplitude of the circuit
is the overlap of two unit vectors. Its squared modulus is a positive semidefinite kernel
with values in the unit interval, which the clamps leave alone, and `k_exp_unit` is a
polynomial with nonnegative coefficients.

## Key results

- `kExpUnit_eq`: `k_exp_unit` is the partial sum of the exponential series
- `kernel_posSemidef`: the matrix of kernel values is symmetric positive semidefinite
-/

namespace OpteeRpi5.Spec

open OpteeRpi5.Native Matrix

/-! ## The exponential -/

/-- The next term is the last one times `p / (i + 1)`. -/
private theorem expTerm_succ (p : ℝ) (i : Nat) :
    (1 / (i.factorial : ℝ)) * p ^ i * (p / lit (i + 1 : ℕ)) =
      (1 / ((i + 1).factorial : ℝ)) * p ^ (i + 1) := by
  have hfac : (i.factorial : ℝ) ≠ 0 := Nat.cast_ne_zero.mpr i.factorial_ne_zero
  have hsucc : (i : ℝ) + 1 ≠ 0 := Nat.cast_add_one_ne_zero i
  rw [lit_real, Nat.factorial_succ, pow_succ]
  push_cast
  field_simp

/-- `k_exp_unit` adds the terms of the exponential series up to degree 16. -/
theorem kExpUnit_eq (p : ℝ) :
    kExpUnit p = ∑ k ∈ Finset.range 17, (1 / (k.factorial : ℝ)) * p ^ k := by
  -- before iteration `i` the sum has its first `i + 1` terms and `term` is the last one
  have h := Loop.fold_inv (fun i (st : ℝ × ℝ) =>
      st.1 = ∑ k ∈ Finset.range (i + 1), (1 / (k.factorial : ℝ)) * p ^ k ∧
      st.2 = (1 / (i.factorial : ℝ)) * p ^ i) (n := 16)
    (f := fun i st => (st.1 + st.2 * (p / lit (i + 1 : ℕ)), st.2 * (p / lit (i + 1 : ℕ))))
    (a := (lit 1, lit 1)) (by simp) (by
      intro i st _ hst
      show st.1 + st.2 * (p / lit (i + 1 : ℕ)) = _ ∧ st.2 * (p / lit (i + 1 : ℕ)) = _
      rw [hst.1, hst.2, expTerm_succ, Finset.sum_range_succ _ (i + 1)]
      exact ⟨rfl, rfl⟩)
  exact h.1

/-! ## Unitary circuits -/

/-- The true sine and cosine. -/
noncomputable def realTrig : ParityTrig where
  sin := Real.sin
  cos := Real.cos
  sin_neg := Real.sin_neg
  cos_neg := Real.cos_neg

/-- With the true sine and cosine the circuit is unitary. -/
theorem circuitNorm_realTrig (n : Nat) (x : Nat → ℝ) (reps : Nat) :
    circuitNorm realTrig n x reps = 1 := by
  have hone : ∀ a, realTrig.normSq a = 1 := Real.cos_sq_add_sin_sq
  simp only [circuitNorm, rotNorm, hone, mul_one, one_pow, Finset.prod_const_one]

/-- The argument of the clamps. -/
def fidelity (n : Nat) (t : Trig ℝ) (x y : Nat → ℝ) (reps : Nat) : ℝ :=
  let a := circuitAct n t x y reps 0
  a.1 * a.1 + a.2 * a.2

section Unitary

variable {n : Nat} (hn : 2 ≤ n) (reps : Nat)
include hn

/-- Feature states have norm one. -/
theorem featureState_unit (x : Nat → ℝ) :
    star (featureState realTrig n reps x) ⬝ᵥ featureState realTrig n reps x = 1 := by
  rw [← circuitAct_overlap realTrig hn, circuitAct_self realTrig hn, circuitNorm_realTrig,
    Complex.ofReal_one, one_smul, vec_basisZero, Pi.single_eq_same]

/-- The fidelity is the squared overlap of the feature states. -/
theorem fidelity_eq (x y : Nat → ℝ) : fidelity n realTrig.toTrig x y reps =
    Complex.normSq (star (featureState realTrig n reps y) ⬝ᵥ featureState realTrig n reps x) := by
  rw [← circuitAct_overlap realTrig hn, Complex.normSq_apply]
  rfl

/-- The clamps change nothing. -/
theorem clampUnit_fidelity (x y : Nat → ℝ) :
    clampUnit (fidelity n realTrig.toTrig x y reps) = fidelity n realTrig.toTrig x y reps := by
  have hle : fidelity n realTrig.toTrig x y reps ≤ 1 := by
    rw [fidelity_eq hn]
    exact Complex.normSq_dotProduct_le_one (featureState_unit hn reps y)
      (featureState_unit hn reps x)
  have hnonneg : 0 ≤ fidelity n realTrig.toTrig x y reps := by
    rw [fidelity_eq hn]
    exact Complex.normSq_nonneg _
  rw [clampUnit_eq, max_eq_right hnonneg, min_eq_right hle]

/-- The kernel values of a family of vectors form a positive semidefinite matrix. -/
theorem fidelityValue_posSemidef {m : Nat} (v : Fin m → Nat → ℝ) :
    (of fun i j => fidelityValue n realTrig.toTrig (v i) (v j) reps).PosSemidef := by
  have hoverlap := posSemidef_normSq_overlap (fun i => featureState realTrig n reps (v i))
  have hexp := hoverlap.map_sum_pow (c := fun k => 1 / (k.factorial : ℝ))
    (fun k => by positivity) 17
  have heq : (of fun i j => fidelityValue n realTrig.toTrig (v i) (v j) reps) =
      (of fun i j => Complex.normSq (star (featureState realTrig n reps (v j)) ⬝ᵥ
        featureState realTrig n reps (v i))).map
        (fun p => ∑ k ∈ Finset.range 17, (1 / (k.factorial : ℝ)) * p ^ k) := by
    ext i j
    rw [map_apply, of_apply, of_apply, ← kExpUnit_eq, ← fidelity_eq hn,
      ← clampUnit_fidelity hn reps (v i) (v j)]
    rfl
  rw [heq]
  exact hexp

/-- The kernel value of a vector with itself. -/
theorem fidelityValue_diag (x : Nat → ℝ) :
    fidelityValue n realTrig.toTrig x x reps = kExpUnit 1 := by
  rw [fidelityValue_self realTrig hn, circuitNorm_realTrig, one_pow, max_eq_right zero_le_one,
    min_self]

end Unitary

/-! ## The matrix of the code -/

/-- The state in which `fidelity_exp_reps` is called on the vectors `x` and `y`. -/
def withVectors (w : Width) (s : Kern ℝ) (x y : Nat → ℝ) : Kern ℝ :=
  select w { s with loc := Function.update (Function.update s.loc .qv x) .rv y }

/-- The matrix of the values that `fidelity_exp_reps` returns for the vectors `v`, each
    call from a state of its own. -/
noncomputable def kernelMatrix (w : Width) (reps : UInt32) {m : Nat} (v : Fin m → Nat → ℝ)
    (s : Fin m → Fin m → Kern ℝ) : Matrix (Fin m) (Fin m) ℝ :=
  of fun i j => ((fidelityExpReps realTrig.toTrig .qv .rv reps).run
    (withVectors w (s i j) (v i) (v j))).1

/-- The matrix does not depend on the states that its entries are computed from. -/
theorem kernelMatrix_eq (w : Width) (reps : UInt32) {m : Nat} (v : Fin m → Nat → ℝ)
    (s : Fin m → Fin m → Kern ℝ) : kernelMatrix w reps v s =
      of fun i j => fidelityValue w.n realTrig.toTrig (v i) (v j) reps.toNat := by
  ext i j
  rw [kernelMatrix, of_apply, of_apply, withVectors,
    (fidelityExpReps_run w.two_le_n realTrig.toTrig .qv .rv reps _ (select_width w _)).1]
  rfl

/-- With the true sine and cosine the kernel values of any list of vectors form a
    symmetric positive semidefinite matrix with `k_exp_unit(1)` on the diagonal, and
    the clamps never change the squared modulus of `psi[0]`. -/
theorem kernel_posSemidef (w : Width) (reps : UInt32) {m : Nat} (v : Fin m → Nat → ℝ)
    (s : Fin m → Fin m → Kern ℝ) :
    (kernelMatrix w reps v s).IsSymm ∧
    (kernelMatrix w reps v s).PosSemidef ∧
    (∀ i, kernelMatrix w reps v s i i = kExpUnit 1) ∧
    ∀ i j,
      let psi := amp ((fidelityCircuit realTrig.toTrig .qv .rv reps).run
        (withVectors w (s i j) (v i) (v j))).2 0
      clampUnit (psi.1 * psi.1 + psi.2 * psi.2) = psi.1 * psi.1 + psi.2 * psi.2 := by
  rw [kernelMatrix_eq]
  refine ⟨?_, fidelityValue_posSemidef w.two_le_n _ v, ?_, ?_⟩
  · ext i j
    exact fidelityValue_comm realTrig w.two_le_n (v j) (v i) reps.toNat
  · intro i
    exact fidelityValue_diag w.two_le_n reps.toNat (v i)
  · intro i j psi
    have hpsi : psi = circuitAct w.n realTrig.toTrig (v i) (v j) reps.toNat 0 :=
      fidelityCircuit_amp w.two_le_n realTrig.toTrig .qv .rv reps _ (select_width w _)
        (Nat.two_pow_pos _)
    rw [hpsi]
    exact clampUnit_fidelity w.two_le_n reps.toNat (v i) (v j)

end OpteeRpi5.Spec
