import Mathlib.Analysis.Real.Pi.Bounds
import Mathlib.Analysis.SpecialFunctions.Trigonometric.Bounds
import OpteeRpi5.ForMathlib.TrigTaylor
import OpteeRpi5.Spec.CircuitMirror

/-!
# Accuracy of the local trigonometry

`k_sin` folds its argument into the first quadrant and evaluates a Taylor polynomial
there; `k_cos` has a polynomial of its own there and calls `k_sin` beyond. Over the reals
the polynomials and the literal for `π` are good to ten digits. The fold of the second
half turn is `sin (2 π - x) = - sin x`, and the code has no sign for it: there `k_sin`
returns the sine with the opposite sign, and so does `k_cos` from three quarters of a
turn on.

## Key results

- `trig_accuracy`: on which arguments the functions are accurate, and what they return on
  the others
- `kSin_three_quarters`: at three quarters of a turn `k_sin` is wrong by almost `2`
-/

namespace OpteeRpi5.Spec

open OpteeRpi5.Native TrigTaylor
open scoped Numerals

/-! ## The literal for `π` -/

theorem qaiPi_eq : (qaiPi : ℝ) = 3.14159265358979323846 := by
  rw [qaiPi, lit_real]
  norm_num

theorem qaiPi_pos : (0 : ℝ) < qaiPi := by
  rw [qaiPi_eq]
  norm_num

/-- The constant has twenty digits. -/
theorem abs_qaiPi_sub_le : |(qaiPi : ℝ) - Real.pi| ≤ 1e-19 := by
  have hlo := Real.pi_gt_d20
  have hhi := Real.pi_lt_d20
  rw [qaiPi_eq, abs_le]
  norm_num at hlo hhi ⊢
  constructor
  · linarith
  · linarith

/-! ## The polynomials -/

/-- The argument that `k_sin` evaluates its polynomial at. -/
noncomputable def foldHalf (x : ℝ) : ℝ :=
  if qaiPi / 2 < x then qaiPi - x else x

/-- `k_sin` of an argument that is not negative. -/
theorem kSin_of_nonneg {x : ℝ} (hx : 0 ≤ x) :
    kSin x = sinPoly 8 (foldHalf (if qaiPi < x then 2 * qaiPi - x else x)) := by
  have htwo : (lit 2 : ℝ) = 2 := by
    rw [lit_real]
    norm_num
  simp only [kSin, lit_zero_real, if_neg hx.not_gt, mul_lit_half, htwo]
  generalize (if qaiPi < x then 2 * qaiPi - x else x) = u
  rw [← foldHalf]
  generalize foldHalf u = y
  simp only [sinPoly, Finset.sum_range_succ, Finset.sum_range_zero, Nat.factorial, lit_real]
  push_cast
  ring

/-- `k_cos` in the first quadrant. -/
theorem kCos_of_le {x : ℝ} (hx : 0 ≤ x) (hle : x ≤ qaiPi / 2) : kCos x = cosPoly 8 x := by
  simp only [kCos, lit_zero_real, if_neg hx.not_gt, mul_lit_half, if_neg hle.not_gt]
  simp only [cosPoly, Finset.sum_range_succ, Finset.sum_range_zero, Nat.factorial, lit_real]
  push_cast
  ring

/-- `k_cos` beyond the first quadrant. -/
theorem kCos_of_gt {x : ℝ} (hx : 0 ≤ x) (hgt : qaiPi / 2 < x) :
    kCos x = -kSin (x - qaiPi / 2) := by
  simp only [kCos, lit_zero_real, if_neg hx.not_gt, mul_lit_half, if_pos hgt]

/-- The remainder of both polynomials in the first quadrant. -/
private theorem remainder_le {y : ℝ} (h0 : 0 ≤ y) (hy : y ≤ qaiPi / 2) :
    |y| ^ (2 * 8) / (2 * 8).factorial * 2 ≤ 5e-10 := by
  have hbound : |y| ≤ 1.6 := by
    rw [abs_of_nonneg h0]
    rw [qaiPi_eq] at hy
    norm_num at hy ⊢
    linarith
  have hpow : |y| ^ (2 * 8) ≤ 1.6 ^ 16 := pow_le_pow_left₀ (abs_nonneg y) hbound 16
  calc |y| ^ (2 * 8) / (2 * 8).factorial * 2 ≤ 1.6 ^ 16 / (2 * 8).factorial * 2 := by gcongr
    _ ≤ 5e-10 := by norm_num [Nat.factorial]

/-- The series is used in the first quadrant, where its terms decrease fast. -/
private theorem remainder_hyp {y : ℝ} (h0 : 0 ≤ y) (hy : y ≤ qaiPi / 2) :
    |y| / (2 * 8 + 1 : ℕ) ≤ 1 / 2 := by
  rw [abs_of_nonneg h0]
  rw [qaiPi_eq] at hy
  norm_num at hy ⊢
  linarith

/-! ## Folding -/

/-- A sine at a multiple of the literal is the one at that multiple of `π`, but for the
    digits that the literal does not have. -/
private theorem abs_sin_fold_le {k a u s : ℝ} (hk : |k| ≤ 2) (hu : u = k * qaiPi + a)
    (hs : Real.sin (k * Real.pi + a) = s) : |Real.sin u - s| ≤ 1e-18 := by
  have hdiff : u - (k * Real.pi + a) = k * (qaiPi - Real.pi) := by
    rw [hu]
    ring
  rw [← hs]
  calc |Real.sin u - Real.sin (k * Real.pi + a)|
      ≤ |u - (k * Real.pi + a)| := Real.abs_sin_sub_sin_le _ _
    _ = |k| * |qaiPi - Real.pi| := by rw [hdiff, abs_mul]
    _ ≤ 2 * 1e-19 := mul_le_mul hk abs_qaiPi_sub_le (abs_nonneg _) (by norm_num)
    _ ≤ 1e-18 := by norm_num

/-- The fold at a quarter of a turn. -/
private theorem abs_sinPoly_foldHalf_sub_le {x : ℝ} (h0 : 0 ≤ x) (hx : x ≤ qaiPi) :
    |sinPoly 8 (foldHalf x) - Real.sin x| ≤ 6e-10 := by
  by_cases hhalf : qaiPi / 2 < x
  · have hy0 : 0 ≤ qaiPi - x := by linarith
    have hy : qaiPi - x ≤ qaiPi / 2 := by linarith
    have hpoly := (abs_sin_sub_le (remainder_hyp hy0 hy)).trans (remainder_le hy0 hy)
    -- the fold subtracts from the decimal `pi` of the code
    have hfold : |Real.sin (qaiPi - x) - Real.sin x| ≤ 1e-18 :=
      abs_sin_fold_le (k := 1) (a := -x) (by norm_num) (by ring)
        (by rw [one_mul, ← sub_eq_add_neg, Real.sin_pi_sub])
    rw [foldHalf, if_pos hhalf]
    calc |sinPoly 8 (qaiPi - x) - Real.sin x|
        ≤ |sinPoly 8 (qaiPi - x) - Real.sin (qaiPi - x)| +
            |Real.sin (qaiPi - x) - Real.sin x| := abs_sub_le _ _ _
      _ ≤ 5e-10 + 1e-18 := add_le_add (by rwa [abs_sub_comm]) hfold
      _ ≤ 6e-10 := by norm_num
  · have hy : x ≤ qaiPi / 2 := not_lt.mp hhalf
    have hpoly := (abs_sin_sub_le (remainder_hyp h0 hy)).trans (remainder_le h0 hy)
    rw [foldHalf, if_neg hhalf, abs_sub_comm]
    exact hpoly.trans (by norm_num)

/-- In the first half turn `k_sin` is the sine. -/
theorem kSin_first {x : ℝ} (h0 : 0 ≤ x) (hx : x ≤ qaiPi) :
    |kSin x - Real.sin x| ≤ 7e-10 := by
  rw [kSin_of_nonneg h0, if_neg hx.not_gt]
  exact (abs_sinPoly_foldHalf_sub_le h0 hx).trans (by norm_num)

/-- In the second half turn it is the sine of the first one, which has the opposite sign. -/
private theorem kSin_second {x : ℝ} (h0 : qaiPi < x) (hx : x ≤ 2 * qaiPi) :
    |kSin x + Real.sin x| ≤ 7e-10 := by
  have hpos := qaiPi_pos
  have hpoly := abs_sinPoly_foldHalf_sub_le (x := 2 * qaiPi - x) (by linarith) (by linarith)
  have hfold : |Real.sin (2 * qaiPi - x) - -Real.sin x| ≤ 1e-18 :=
    abs_sin_fold_le (k := 2) (a := -x) (by norm_num) (by ring)
      (by rw [← sub_eq_add_neg, Real.sin_two_pi_sub])
  rw [kSin_of_nonneg (by linarith), if_pos h0, ← sub_neg_eq_add]
  calc |sinPoly 8 (foldHalf (2 * qaiPi - x)) - -Real.sin x|
      ≤ |sinPoly 8 (foldHalf (2 * qaiPi - x)) - Real.sin (2 * qaiPi - x)| +
          |Real.sin (2 * qaiPi - x) - -Real.sin x| := abs_sub_le _ _ _
    _ ≤ 6e-10 + 1e-18 := add_le_add hpoly hfold
    _ ≤ 7e-10 := by norm_num

/-- A quarter of a turn takes the sine to the cosine. -/
private theorem abs_sin_quarter_le (x : ℝ) :
    |Real.sin (x - qaiPi / 2) - -Real.cos x| ≤ 1e-18 :=
  abs_sin_fold_le (k := -1 / 2) (a := x) (by norm_num [abs_div]) (by ring)
    (by rw [show -1 / 2 * Real.pi + x = x - Real.pi / 2 by ring, Real.sin_sub_pi_div_two])

/-- In the first three quarters of a turn `k_cos` is the cosine. -/
theorem kCos_first {x : ℝ} (h0 : 0 ≤ x) (hx : x ≤ 3 / 2 * qaiPi) :
    |kCos x - Real.cos x| ≤ 1e-9 := by
  by_cases hhalf : qaiPi / 2 < x
  · have hsin := kSin_first (x := x - qaiPi / 2) (by linarith) (by linarith)
    rw [kCos_of_gt h0 hhalf, ← abs_neg, show -(-kSin (x - qaiPi / 2) - Real.cos x) =
      kSin (x - qaiPi / 2) - -Real.cos x by ring]
    calc |kSin (x - qaiPi / 2) - -Real.cos x|
        ≤ |kSin (x - qaiPi / 2) - Real.sin (x - qaiPi / 2)| +
            |Real.sin (x - qaiPi / 2) - -Real.cos x| := abs_sub_le _ _ _
      _ ≤ 7e-10 + 1e-18 := add_le_add hsin (abs_sin_quarter_le x)
      _ ≤ 1e-9 := by norm_num
  · have hle : x ≤ qaiPi / 2 := not_lt.mp hhalf
    have hpoly := (abs_cos_sub_le (remainder_hyp h0 hle)).trans (remainder_le h0 hle)
    rw [kCos_of_le h0 hle, abs_sub_comm]
    exact hpoly.trans (by norm_num)

/-- In the last quarter it calls `k_sin` in its second half turn. -/
private theorem kCos_second {x : ℝ} (h0 : 3 / 2 * qaiPi < x) (hx : x ≤ 2 * qaiPi) :
    |kCos x + Real.cos x| ≤ 1e-9 := by
  have hpos := qaiPi_pos
  have hsin := kSin_second (x := x - qaiPi / 2) (by linarith) (by linarith)
  rw [kCos_of_gt (by linarith) (by linarith), ← abs_neg,
    show -(-kSin (x - qaiPi / 2) + Real.cos x) =
      (kSin (x - qaiPi / 2) + Real.sin (x - qaiPi / 2)) -
        (Real.sin (x - qaiPi / 2) - -Real.cos x) by ring]
  calc _ ≤ |kSin (x - qaiPi / 2) + Real.sin (x - qaiPi / 2)| +
          |Real.sin (x - qaiPi / 2) - -Real.cos x| := abs_sub _ _
    _ ≤ 7e-10 + 1e-18 := add_le_add hsin (abs_sin_quarter_le x)
    _ ≤ 1e-9 := by norm_num

/-! ## All arguments -/

/-- The error of the sine does not depend on the sign. -/
theorem kSin_sub_abs (x : ℝ) :
    |kSin (|x|) - Real.sin (|x|)| = |kSin x - Real.sin x| := by
  rcases abs_cases x with ⟨habs, -⟩ | ⟨habs, -⟩
  · rw [habs]
  · rw [habs, kSin_neg, Real.sin_neg, neg_sub_neg, abs_sub_comm]

private theorem kSin_add_abs (x : ℝ) :
    |kSin (|x|) + Real.sin (|x|)| = |kSin x + Real.sin x| := by
  rcases abs_cases x with ⟨habs, -⟩ | ⟨habs, -⟩
  · rw [habs]
  · rw [habs, kSin_neg, Real.sin_neg, ← neg_add, abs_neg]

/-- The cosine is even. -/
theorem kCos_abs (x : ℝ) : kCos (|x|) = kCos x := by
  rcases abs_cases x with ⟨habs, -⟩ | ⟨habs, -⟩
  · rw [habs]
  · rw [habs, kCos_neg]

/-- What the two functions return at an argument of at most one turn. -/
structure TrigAt (x : ℝ) : Prop where
  sin_first : |x| ≤ qaiPi → |kSin x - Real.sin x| ≤ 1e-9
  sin_second : qaiPi < |x| → |kSin x + Real.sin x| ≤ 1e-9
  cos_first : |x| ≤ 3 / 2 * qaiPi → |kCos x - Real.cos x| ≤ 1e-9
  cos_second : 3 / 2 * qaiPi < |x| → |kCos x + Real.cos x| ≤ 1e-9

/-- For every argument of at most one turn: `k_sin` is accurate in the first half turn and
    `k_cos` in the first three quarters, on either side of zero, and beyond they are as
    close to the function with the opposite sign. -/
theorem trig_accuracy (x : ℝ) (hx : |x| ≤ 2 * qaiPi) : TrigAt x := by
  have h0 := abs_nonneg x
  constructor
  · intro hle
    rw [← kSin_sub_abs]
    exact (kSin_first h0 hle).trans (by norm_num)
  · intro hgt
    rw [← kSin_add_abs]
    exact (kSin_second hgt hx).trans (by norm_num)
  · intro hle
    rw [← kCos_abs, ← Real.cos_abs]
    exact kCos_first h0 hle
  · intro hgt
    rw [← kCos_abs, ← Real.cos_abs]
    exact kCos_second hgt hx

/-- In the first quadrant. -/
theorem trig_accuracy_one : |(kSin 1 : ℝ) - Real.sin 1| ≤ 1e-9 := by
  have hle : |(1 : ℝ)| ≤ qaiPi := by
    rw [qaiPi_eq, abs_one]
    norm_num
  exact (trig_accuracy 1 (by linarith [abs_nonneg (1 : ℝ)])).sin_first hle

/-- At three quarters of a turn the sine is `-1`, and `k_sin` returns almost `1`. -/
theorem kSin_three_quarters :
    |3 / 2 * (qaiPi : ℝ)| ≤ 2 * qaiPi ∧
    1.999 < |kSin (3 / 2 * (qaiPi : ℝ)) - Real.sin (3 / 2 * qaiPi)| := by
  have hpos := qaiPi_pos
  have hsum := abs_le.mp (kSin_second (x := 3 / 2 * qaiPi) (by linarith) (by linarith))
  have hsin : |Real.sin (3 / 2 * qaiPi) - -1| ≤ 1e-18 :=
    abs_sin_fold_le (k := 3 / 2) (a := 0) (by norm_num [abs_div]) (by ring)
      (by rw [show 3 / 2 * Real.pi + 0 = Real.pi / 2 + Real.pi by ring, Real.sin_add_pi,
        Real.sin_pi_div_two])
  have hsin := abs_le.mp hsin
  refine ⟨?_, ?_⟩
  · rw [abs_of_pos (by linarith)]
    linarith
  · refine lt_of_lt_of_le ?_ (le_abs_self _)
    norm_num at hsum hsin ⊢
    linarith

end OpteeRpi5.Spec
