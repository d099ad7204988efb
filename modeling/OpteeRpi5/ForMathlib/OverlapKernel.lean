import Mathlib.Algebra.Order.Chebyshev
import Mathlib.Analysis.InnerProductSpace.PiL2
import Mathlib.Analysis.Matrix.Order

/-!
# Kernels of squared overlaps

The squared overlap of two complex vectors is a positive semidefinite kernel: the matrix
of overlaps is a Gram matrix, and the squared moduli are its entrywise product with its
transpose. Power series with nonnegative coefficients keep a kernel positive
semidefinite, one entrywise power at a time. A matrix close to a positive semidefinite one
is so up to an error.

Candidates for upstreaming to Mathlib.
-/

open Matrix
open scoped ComplexOrder

variable {m ι : Type*} [Fintype ι]

/-- Overlaps of unit vectors have modulus at most one. -/
theorem Complex.normSq_dotProduct_le_one {a b : ι → ℂ} (ha : star a ⬝ᵥ a = 1)
    (hb : star b ⬝ᵥ b = 1) : Complex.normSq (star a ⬝ᵥ b) ≤ 1 := by
  have hunit : ∀ v : ι → ℂ, star v ⬝ᵥ v = 1 → ‖WithLp.toLp 2 v‖ = 1 := by
    intro v hv
    have hinner : inner ℂ (WithLp.toLp 2 v) (WithLp.toLp 2 v) = (1 : ℂ) := by
      rw [EuclideanSpace.inner_toLp_toLp, dotProduct_comm, hv]
    have hsq : ‖WithLp.toLp 2 v‖ ^ 2 = 1 := by
      rw [← @inner_self_eq_norm_sq ℂ, hinner]
      exact RCLike.one_re
    exact (pow_eq_one_iff_of_nonneg (norm_nonneg _) two_ne_zero).mp hsq
  have hcs := @norm_inner_le_norm ℂ _ _ _ _ (WithLp.toLp 2 a) (WithLp.toLp 2 b)
  rw [hunit a ha, hunit b hb, EuclideanSpace.inner_toLp_toLp, dotProduct_comm, one_mul] at hcs
  rw [Complex.normSq_eq_norm_sq]
  exact pow_le_one₀ (norm_nonneg _) hcs

namespace Matrix

/-- A real matrix that is positive semidefinite as a complex matrix is so. -/
theorem PosSemidef.of_map_ofReal [Fintype m] {A : Matrix m m ℝ}
    (h : (A.map (fun r => (r : ℂ))).PosSemidef) : A.PosSemidef := by
  rw [posSemidef_iff_dotProduct_mulVec] at h ⊢
  refine ⟨?_, ?_⟩
  · ext i j
    have hij := congrFun (congrFun h.1 i) j
    simp only [conjTranspose_apply, map_apply, Complex.star_def, Complex.conj_ofReal] at hij
    exact_mod_cast hij
  · intro x
    have hx := h.2 (fun i => (x i : ℂ))
    have hcast : star (fun i => (x i : ℂ)) ⬝ᵥ (A.map (fun r => (r : ℂ)) *ᵥ fun i => (x i : ℂ)) =
        ((star x ⬝ᵥ (A *ᵥ x) : ℝ) : ℂ) := by
      simp [dotProduct, mulVec]
    rw [hcast] at hx
    exact_mod_cast hx

/-- Squared overlaps form a positive semidefinite matrix. -/
theorem posSemidef_normSq_overlap [Fintype m] (φ : m → ι → ℂ) :
    (of fun i j => Complex.normSq (star (φ j) ⬝ᵥ φ i)).PosSemidef := by
  -- the Gram matrix of the vectors
  let A : Matrix ι m ℂ := of fun k i => φ i k
  have hgram : ∀ i j, (Aᴴ * A) i j = star (φ i) ⬝ᵥ φ j := fun i j => rfl
  have hG := posSemidef_conjTranspose_mul_self A
  have hH := hG.transpose.hadamard hG
  apply PosSemidef.of_map_ofReal
  have heq : (of fun i j => Complex.normSq (star (φ j) ⬝ᵥ φ i)).map (fun r => (r : ℂ)) =
      (Aᴴ * A)ᵀ ⊙ (Aᴴ * A) := by
    ext i j
    rw [hadamard_apply, transpose_apply, hgram, hgram, star_dotProduct (φ i) (φ j)]
    exact (Complex.mul_conj _).symm
  rw [heq]
  exact hH

/-- Entrywise powers of a positive semidefinite matrix. -/
theorem PosSemidef.map_pow [Fintype m] {A : Matrix m m ℝ} (h : A.PosSemidef) (k : ℕ) :
    (A.map (· ^ k)).PosSemidef := by
  induction k with
  | zero =>
    have hones : A.map (· ^ 0) = vecMulVec 1 (star 1) := by
      ext i j
      simp [vecMulVec_apply]
    rw [hones]
    exact posSemidef_vecMulVec_self_star 1
  | succ k ih =>
    have hmul : A.map (· ^ (k + 1)) = A.map (· ^ k) ⊙ A := by
      ext i j
      simp [pow_succ]
    rw [hmul]
    exact ih.hadamard h

/-- A polynomial with nonnegative coefficients, taken entrywise. -/
theorem PosSemidef.map_sum_pow [Fintype m] {A : Matrix m m ℝ} (h : A.PosSemidef) {c : ℕ → ℝ}
    (hc : ∀ k, 0 ≤ c k) (n : ℕ) :
    (A.map (fun p => ∑ k ∈ Finset.range n, c k * p ^ k)).PosSemidef := by
  have hsum : A.map (fun p => ∑ k ∈ Finset.range n, c k * p ^ k) =
      ∑ k ∈ Finset.range n, c k • A.map (· ^ k) := by
    ext i j
    simp [sum_apply]
  rw [hsum]
  exact posSemidef_sum _ (fun k _ => (h.map_pow k).smul (hc k))

/-- The quadratic form of a matrix whose entries are close to those of a positive
    semidefinite one. -/
theorem PosSemidef.le_of_near [Fintype m] {A M : Matrix m m ℝ} (h : A.PosSemidef) {e : ℝ}
    (hnear : ∀ i j, |M i j - A i j| ≤ e) (z : m → ℝ) :
    -(Fintype.card m * e * (z ⬝ᵥ z)) ≤ z ⬝ᵥ M *ᵥ z := by
  have hpos : 0 ≤ z ⬝ᵥ A *ᵥ z := by simpa using h.dotProduct_mulVec_nonneg z
  have hsplit : z ⬝ᵥ M *ᵥ z = z ⬝ᵥ A *ᵥ z + z ⬝ᵥ (M - A) *ᵥ z := by
    rw [sub_mulVec, dotProduct_sub]
    ring
  -- the form of the difference, term by term
  have hterm : ∀ i j, -(e * (|z i| * |z j|)) ≤ z i * ((M - A) i j * z j) := by
    intro i j
    refine neg_le_of_abs_le ?_
    rw [abs_mul, abs_mul, sub_apply]
    calc |z i| * (|M i j - A i j| * |z j|) ≤ |z i| * (e * |z j|) := by
          gcongr
          exact hnear i j
      _ = e * (|z i| * |z j|) := by ring
  have herr : -(e * (∑ i, |z i|) ^ 2) ≤ z ⬝ᵥ (M - A) *ᵥ z := by
    have hsum : -(e * (∑ i, |z i|) ^ 2) = ∑ i, ∑ j, -(e * (|z i| * |z j|)) := by
      rw [sq, Finset.sum_mul_sum, Finset.mul_sum, ← Finset.sum_neg_distrib]
      simp only [Finset.mul_sum, Finset.sum_neg_distrib]
    rw [hsum]
    simp only [dotProduct, mulVec, Finset.mul_sum]
    exact Finset.sum_le_sum fun i _ => Finset.sum_le_sum fun j _ => hterm i j
  by_cases hm : Nonempty m
  · obtain ⟨i⟩ := hm
    have he : 0 ≤ e := (abs_nonneg _).trans (hnear i i)
    -- the squared sum of the sizes against the sum of the squares
    have hcheb := sq_sum_le_card_mul_sum_sq (s := Finset.univ) (f := fun i => |z i|)
    have hsq : ∑ i, |z i| ^ 2 = z ⬝ᵥ z := by
      simp only [sq_abs, dotProduct, ← sq]
    rw [hsq, Finset.card_univ] at hcheb
    nlinarith [mul_le_mul_of_nonneg_left hcheb he]
  · have hempty := not_nonempty_iff.mp hm
    simp [dotProduct]

end Matrix
