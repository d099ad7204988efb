import Mathlib.Analysis.Complex.Basic
import Mathlib.Analysis.Complex.Exponential
import Mathlib.Analysis.Complex.Trigonometric

/-!
# Taylor polynomials of sine and cosine

The polynomials with `n` terms, and how far they are from the functions. The bounds come
from the exponential series: the first `2 * n` terms at `y * I` have the polynomials as
their imaginary and real part.

Candidates for upstreaming to Mathlib.
-/

namespace TrigTaylor

/-- The first `n` terms of the sine series. -/
noncomputable def sinPoly (n : ℕ) (y : ℝ) : ℝ :=
  ∑ k ∈ Finset.range n, (-1) ^ k * y ^ (2 * k + 1) / (2 * k + 1).factorial

/-- The first `n` terms of the cosine series. -/
noncomputable def cosPoly (n : ℕ) (y : ℝ) : ℝ :=
  ∑ k ∈ Finset.range n, (-1) ^ k * y ^ (2 * k) / (2 * k).factorial

/-- The powers of `I` alternate between the real and the imaginary axis. -/
private theorem mul_I_pow_even (y : ℝ) (k : ℕ) :
    ((y : ℂ) * Complex.I) ^ (2 * k) = ((-1) ^ k * y ^ (2 * k) : ℝ) := by
  rw [mul_pow, pow_mul Complex.I, Complex.I_sq]
  push_cast
  ring

theorem exp_series (n : ℕ) (y : ℝ) :
    ∑ m ∈ Finset.range (2 * n), ((y : ℂ) * Complex.I) ^ m / m.factorial =
      (cosPoly n y : ℂ) + (sinPoly n y : ℂ) * Complex.I := by
  induction n with
  | zero => simp [cosPoly, sinPoly]
  | succ n ih =>
    rw [show 2 * (n + 1) = 2 * n + 1 + 1 by ring, Finset.sum_range_succ, Finset.sum_range_succ, ih,
      pow_succ, mul_I_pow_even, cosPoly, cosPoly, sinPoly, sinPoly, Finset.sum_range_succ,
      Finset.sum_range_succ]
    push_cast
    ring

section Error

variable {n : ℕ} {y : ℝ}

private theorem norm_exp_sub_le (h : |y| / (2 * n + 1 : ℕ) ≤ 1 / 2) :
    ‖Complex.exp (y * Complex.I) - ((cosPoly n y : ℂ) + (sinPoly n y : ℂ) * Complex.I)‖ ≤
      |y| ^ (2 * n) / (2 * n).factorial * 2 := by
  have hnorm : ‖(y : ℂ) * Complex.I‖ = |y| := by
    rw [norm_mul, Complex.norm_I, mul_one, Complex.norm_real, Real.norm_eq_abs]
  have hbound := Complex.exp_bound' (x := (y : ℂ) * Complex.I) (n := 2 * n) (by rwa [hnorm])
  rwa [hnorm, exp_series] at hbound

/-- The real part is the error of the cosine, the imaginary part that of the sine. -/
private theorem exp_sub_eq (n : ℕ) (y : ℝ) :
    Complex.exp (y * Complex.I) - ((cosPoly n y : ℂ) + (sinPoly n y : ℂ) * Complex.I) =
      ⟨Real.cos y - cosPoly n y, Real.sin y - sinPoly n y⟩ := by
  rw [Complex.exp_mul_I]
  apply Complex.ext
  · simp [Complex.cos_ofReal_re]
  · simp [Complex.sin_ofReal_re]

theorem abs_sin_sub_le (h : |y| / (2 * n + 1 : ℕ) ≤ 1 / 2) :
    |Real.sin y - sinPoly n y| ≤ |y| ^ (2 * n) / (2 * n).factorial * 2 := by
  have hnorm := norm_exp_sub_le h
  rw [exp_sub_eq] at hnorm
  exact (Complex.abs_im_le_norm _).trans hnorm

theorem abs_cos_sub_le (h : |y| / (2 * n + 1 : ℕ) ≤ 1 / 2) :
    |Real.cos y - cosPoly n y| ≤ |y| ^ (2 * n) / (2 * n).factorial * 2 := by
  have hnorm := norm_exp_sub_le h
  rw [exp_sub_eq] at hnorm
  exact (Complex.abs_re_le_norm _).trans hnorm

end Error

end TrigTaylor
