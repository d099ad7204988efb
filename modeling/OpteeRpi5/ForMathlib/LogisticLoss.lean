import Mathlib.Analysis.Calculus.Deriv.MeanValue
import Mathlib.Analysis.Calculus.Gradient.Basic
import Mathlib.Analysis.InnerProductSpace.Calculus
import Mathlib.Analysis.SpecialFunctions.Log.Deriv
import Mathlib.Analysis.SpecialFunctions.Sigmoid

/-!
# Logistic regression

A linear classifier gives a sample `v` the probability `sigmoid ⟪v, p⟫`, and its loss on a
list of labelled samples is the mean cross entropy. The gradient of the loss is the mean of
the samples, each weighted by the error of its probability. The second derivative of the
cross entropy is at most `1 / 4`, so a gradient step that is not too long for the samples
does not increase the loss.

## Key results

- `hasGradientAt_meanLoss`: the gradient
- `meanLoss_step_le`: the loss after a step of gradient descent
- `meanLoss_iterate_antitone`: the loss over a whole run
- `abs_inner_iterate_le`: the size of the parameters after a run

Candidates for upstreaming to Mathlib.
-/

namespace Logistic

open Real

/-- The cross entropy of the label `y` and the probability `q`. -/
noncomputable def crossEntropy (y q : ℝ) : ℝ :=
  -(y * log q + (1 - y) * log (1 - q))

/-! ## One sample -/

theorem hasDerivAt_crossEntropy (y z : ℝ) :
    HasDerivAt (fun z => crossEntropy y (sigmoid z)) (sigmoid z - y) z := by
  have hpos : 0 < sigmoid z := sigmoid_pos z
  have hlt : 0 < 1 - sigmoid z := by linarith [sigmoid_lt_one z]
  have hsig := hasDerivAt_sigmoid z
  have hlog : HasDerivAt (fun z => log (sigmoid z)) (1 - sigmoid z) z := by
    convert hsig.log hpos.ne' using 1
    field_simp
  have hlog' : HasDerivAt (fun z => log (1 - sigmoid z)) (-sigmoid z) z := by
    convert (hsig.const_sub 1).log hlt.ne' using 1
    field_simp
  exact ((hlog.const_mul y).add (hlog'.const_mul (1 - y))).neg.congr_deriv (by ring)

/-- The sigmoid has slope at most `1 / 4`. -/
theorem sigmoid_sub_le {a b : ℝ} (h : a ≤ b) : sigmoid b - sigmoid a ≤ (b - a) / 4 := by
  have hmono : Monotone fun z => z / 4 - sigmoid z := by
    apply monotone_of_deriv_nonneg
    · exact (differentiable_id.div_const 4).sub differentiable_sigmoid
    · intro z
      have hderiv : deriv (fun z => z / 4 - sigmoid z) z = 1 / 4 - sigmoid z * (1 - sigmoid z) :=
        (((hasDerivAt_id z).div_const 4).sub (hasDerivAt_sigmoid z)).deriv
      rw [hderiv]
      nlinarith [sq_nonneg (sigmoid z - 1 / 2)]
  have := hmono h
  simp only at this
  linarith

/-- The distance of the cross entropy from its tangent parabola at `z`. -/
noncomputable def gap (y z t : ℝ) : ℝ :=
  crossEntropy y (sigmoid z) + (sigmoid z - y) * (t - z) + (t - z) ^ 2 / 8 -
    crossEntropy y (sigmoid t)

theorem hasDerivAt_gap (y z t : ℝ) :
    HasDerivAt (gap y z) ((t - z) / 4 - (sigmoid t - sigmoid z)) t := by
  have hid : HasDerivAt (fun t => t - z) 1 t := (hasDerivAt_id t).sub_const z
  have hline := (hid.const_mul (sigmoid z - y)).const_add (crossEntropy y (sigmoid z))
  have hparabola := hline.add ((hid.pow 2).div_const 8)
  refine (hparabola.sub (hasDerivAt_crossEntropy y t)).congr_deriv ?_
  push_cast
  ring

/-- The cross entropy lies below its tangent parabola. -/
theorem gap_nonneg (y z t : ℝ) : 0 ≤ gap y z t := by
  have hzero : gap y z z = 0 := by simp [gap]
  have hcont : Continuous (gap y z) :=
    continuous_iff_continuousAt.mpr fun t => (hasDerivAt_gap y z t).continuousAt
  rcases le_total z t with h | h
  · -- it grows to the right of `z`
    have hmono : MonotoneOn (gap y z) (Set.Ici z) := by
      apply monotoneOn_of_deriv_nonneg (convex_Ici z) hcont.continuousOn
      · exact fun t _ => (hasDerivAt_gap y z t).differentiableAt.differentiableWithinAt
      · intro t ht
        rw [interior_Ici] at ht
        rw [(hasDerivAt_gap y z t).deriv]
        linarith [sigmoid_sub_le (Set.mem_Ioi.mp ht).le]
    linarith [hmono Set.self_mem_Ici (Set.mem_Ici.mpr h) h]
  · -- and to the left
    have hanti : AntitoneOn (gap y z) (Set.Iic z) := by
      apply antitoneOn_of_deriv_nonpos (convex_Iic z) hcont.continuousOn
      · exact fun t _ => (hasDerivAt_gap y z t).differentiableAt.differentiableWithinAt
      · intro t ht
        rw [interior_Iic] at ht
        rw [(hasDerivAt_gap y z t).deriv]
        linarith [sigmoid_sub_le (Set.mem_Iio.mp ht).le]
    linarith [hanti (Set.mem_Iic.mpr h) Set.self_mem_Iic h]

/-! ## Many samples -/

section Mean

variable {E : Type} [NormedAddCommGroup E] [InnerProductSpace ℝ E]

open scoped RealInnerProductSpace

/-- The mean cross entropy of the classifier `p` on labelled samples. -/
noncomputable def meanLoss (data : List (E × ℝ)) (p : E) : ℝ :=
  (data.map fun s => crossEntropy s.2 (sigmoid ⟪s.1, p⟫)).sum / data.length

/-- The samples, each weighted by the error of its probability. -/
noncomputable def errorSum (data : List (E × ℝ)) (p : E) : E :=
  (data.map fun s => (sigmoid ⟪s.1, p⟫ - s.2) • s.1).sum

/-- The mean of the weighted samples. -/
noncomputable def lossGradient (data : List (E × ℝ)) (p : E) : E :=
  (data.length : ℝ)⁻¹ • errorSum data p

/-- A step of gradient descent with step size `lr`. -/
noncomputable def descentStep (data : List (E × ℝ)) (lr : ℝ) (p : E) : E :=
  p - lr • lossGradient data p

theorem errorSum_cons (s : E × ℝ) (data : List (E × ℝ)) (p : E) :
    errorSum (s :: data) p = (sigmoid ⟪s.1, p⟫ - s.2) • s.1 + errorSum data p := by
  rw [errorSum, List.map_cons, List.sum_cons, ← errorSum]

/-- A loop over the samples that adds up the weighted samples, in any representation of
    the vectors. -/
theorem foldl_errorSum {S P : Type} {vec : P → E} {row : P → S → P} {enc : S → E × ℝ} {p : E}
    (hrow : ∀ g s, vec (row g s) = vec g + (sigmoid ⟪(enc s).1, p⟫ - (enc s).2) • (enc s).1)
    (data : List S) (g : P) : vec (data.foldl row g) = vec g + errorSum (data.map enc) p := by
  induction data generalizing g with
  | nil => simp [errorSum]
  | cons s data ih => rw [List.foldl_cons, ih, hrow, List.map_cons, errorSum_cons, add_assoc]

/-! ## The gradient -/

section Gradient

variable [CompleteSpace E]

theorem hasGradientAt_sample (v : E) (y : ℝ) (p : E) :
    HasGradientAt (fun p => crossEntropy y (sigmoid ⟪v, p⟫)) ((sigmoid ⟪v, p⟫ - y) • v) p := by
  rw [hasGradientAt_iff_hasFDerivAt, map_smul]
  exact (hasDerivAt_crossEntropy y ⟪v, p⟫).comp_hasFDerivAt p (innerSL ℝ v).hasFDerivAt

theorem hasGradientAt_sum (data : List (E × ℝ)) (p : E) :
    HasGradientAt (fun p => (data.map fun s => crossEntropy s.2 (sigmoid ⟪s.1, p⟫)).sum)
      (errorSum data p) p := by
  induction data with
  | nil => exact hasGradientAt_const p 0
  | cons s data ih =>
    simp only [List.map_cons, List.sum_cons, errorSum_cons]
    rw [hasGradientAt_iff_hasFDerivAt, map_add]
    exact (hasGradientAt_sample s.1 s.2 p).hasFDerivAt.add ih.hasFDerivAt

/-- The gradient of the mean loss. -/
theorem hasGradientAt_meanLoss (data : List (E × ℝ)) (p : E) :
    HasGradientAt (meanLoss data) (lossGradient data p) p := by
  have hmean : meanLoss data = fun p =>
      (data.length : ℝ)⁻¹ * (data.map fun s => crossEntropy s.2 (sigmoid ⟪s.1, p⟫)).sum :=
    funext fun p => div_eq_inv_mul _ _
  rw [hmean, lossGradient, hasGradientAt_iff_hasFDerivAt, map_smul]
  exact (hasGradientAt_sum data p).hasFDerivAt.const_mul _

theorem descentStep_eq (data : List (E × ℝ)) (lr : ℝ) :
    descentStep data lr = fun p => p - lr • gradient (meanLoss data) p := by
  rw [gradient_eq (hasGradientAt_meanLoss data)]
  rfl

end Gradient

/-! ## Descent -/

section Descent

variable {data : List (E × ℝ)} {R : ℝ}

theorem sample_add_le {v : E} (hv : ‖v‖ ^ 2 ≤ R) (y : ℝ) (p d : E) :
    crossEntropy y (sigmoid ⟪v, p + d⟫) ≤
      crossEntropy y (sigmoid ⟪v, p⟫) + ⟪(sigmoid ⟪v, p⟫ - y) • v, d⟫ + R * ‖d‖ ^ 2 / 8 := by
  have hgap := gap_nonneg y ⟪v, p⟫ ⟪v, p + d⟫
  have hdiff : ⟪v, p + d⟫ - ⟪v, p⟫ = ⟪v, d⟫ := by rw [inner_add_right, add_sub_cancel_left]
  rw [gap, hdiff] at hgap
  have hsq : ⟪v, d⟫ ^ 2 ≤ R * ‖d‖ ^ 2 := by
    calc ⟪v, d⟫ ^ 2 = |⟪v, d⟫| ^ 2 := (sq_abs _).symm
      _ ≤ (‖v‖ * ‖d‖) ^ 2 := by gcongr; exact abs_real_inner_le_norm v d
      _ = ‖v‖ ^ 2 * ‖d‖ ^ 2 := mul_pow _ _ _
      _ ≤ R * ‖d‖ ^ 2 := by gcongr
  rw [real_inner_smul_left]
  linarith

/-- The bound for a sum of samples. -/
theorem sum_add_le (hR : ∀ s ∈ data, ‖s.1‖ ^ 2 ≤ R) (p d : E) :
    (data.map fun s => crossEntropy s.2 (sigmoid ⟪s.1, p + d⟫)).sum ≤
      (data.map fun s => crossEntropy s.2 (sigmoid ⟪s.1, p⟫)).sum + ⟪errorSum data p, d⟫ +
        data.length * (R * ‖d‖ ^ 2 / 8) := by
  induction data with
  | nil => simp [errorSum]
  | cons s data ih =>
    have hs := sample_add_le (hR s (by simp)) s.2 p d
    have hrest := ih fun s hs => hR s (List.mem_cons_of_mem _ hs)
    simp only [List.map_cons, List.sum_cons, List.length_cons, errorSum_cons, inner_add_left]
    push_cast
    linarith

/-- A step of gradient descent does not increase the loss, if it is short enough for the
    samples. -/
theorem meanLoss_step_le (hne : data ≠ []) (hR : ∀ s ∈ data, ‖s.1‖ ^ 2 ≤ R) {lr : ℝ}
    (hlr : 0 ≤ lr) (hstep : lr * R ≤ 8) (p : E) :
    meanLoss data (descentStep data lr p) ≤ meanLoss data p := by
  have hn : (0 : ℝ) < data.length := by exact_mod_cast List.length_pos_of_ne_nil hne
  let g := lossGradient data p
  have herr : errorSum data p = (data.length : ℝ) • g := by
    rw [show g = (data.length : ℝ)⁻¹ • errorSum data p from rfl, smul_inv_smul₀ hn.ne']
  have hsum := sum_add_le hR p (-(lr • g))
  rw [← sub_eq_add_neg, herr, real_inner_smul_left, inner_neg_right, real_inner_smul_right,
    real_inner_self_eq_norm_sq, norm_neg, norm_smul, mul_pow, Real.norm_eq_abs, sq_abs] at hsum
  rw [meanLoss, meanLoss, div_le_div_iff_of_pos_right hn, descentStep]
  -- what the first order gains outweighs the second order
  have hgain : lr * (lr * R) * ‖g‖ ^ 2 ≤ lr * 8 * ‖g‖ ^ 2 := by gcongr
  have hscaled := mul_le_mul_of_nonneg_left hgain hn.le
  linarith

/-- Gradient descent with short steps, over a whole run. -/
theorem meanLoss_iterate_antitone (hne : data ≠ []) {lr : ℝ} (hlr : 0 < lr)
    (hstep : ∀ s ∈ data, lr * ‖s.1‖ ^ 2 ≤ 8) (p : E) :
    Antitone fun k => meanLoss data ((descentStep data lr)^[k] p) := by
  have hR : ∀ s ∈ data, ‖s.1‖ ^ 2 ≤ 8 / lr := by
    intro s hs
    rw [le_div_iff₀ hlr, mul_comm]
    exact hstep s hs
  refine antitone_nat_of_succ_le fun k => ?_
  rw [Function.iterate_succ_apply']
  exact meanLoss_step_le hne hR hlr.le (by rw [mul_div_cancel₀ _ hlr.ne']) _

end Descent

/-! ## The size of the parameters -/

section Size

variable {data : List (E × ℝ)} {e : E} {B lr : ℝ}

/-- The error of a probability is at most one. -/
theorem abs_sigmoid_sub_le {y : ℝ} (hy : y ∈ Set.Icc (0 : ℝ) 1) (z : ℝ) : |sigmoid z - y| ≤ 1 := by
  rw [abs_le]
  have h0 := sigmoid_nonneg z
  have h1 := sigmoid_le_one z
  constructor
  · linarith [hy.2]
  · linarith [hy.1]

theorem abs_inner_errorSum_le (hdata : ∀ s ∈ data, |⟪s.1, e⟫| ≤ B ∧ s.2 ∈ Set.Icc (0 : ℝ) 1)
    (p : E) : |⟪errorSum data p, e⟫| ≤ data.length * B := by
  induction data with
  | nil => simp [errorSum]
  | cons s data ih =>
    obtain ⟨hs, hy⟩ := hdata s (by simp)
    have hsample : |⟪(sigmoid ⟪s.1, p⟫ - s.2) • s.1, e⟫| ≤ B := by
      rw [real_inner_smul_left, abs_mul]
      exact (mul_le_of_le_one_left (abs_nonneg _) (abs_sigmoid_sub_le hy _)).trans hs
    have hrest := ih fun s hs => hdata s (List.mem_cons_of_mem _ hs)
    have hadd := abs_add_le ⟪(sigmoid ⟪s.1, p⟫ - s.2) • s.1, e⟫ ⟪errorSum data p, e⟫
    rw [errorSum_cons, inner_add_left, List.length_cons]
    push_cast
    linarith

theorem abs_inner_lossGradient_le (hB : 0 ≤ B)
    (hdata : ∀ s ∈ data, |⟪s.1, e⟫| ≤ B ∧ s.2 ∈ Set.Icc (0 : ℝ) 1) (p : E) :
    |⟪lossGradient data p, e⟫| ≤ B := by
  rw [lossGradient, real_inner_smul_left, abs_mul, abs_inv, Nat.abs_cast]
  calc (data.length : ℝ)⁻¹ * |⟪errorSum data p, e⟫|
      ≤ (data.length : ℝ)⁻¹ * (data.length * B) := by
        gcongr
        exact abs_inner_errorSum_le hdata p
    _ ≤ B := by
        rw [← mul_assoc]
        exact mul_le_of_le_one_left hB (inv_mul_le_one)

/-- A component of the parameters grows by at most the step size times that of the samples
    in each epoch. -/
theorem abs_inner_iterate_le (hB : 0 ≤ B) (hlr : 0 ≤ lr)
    (hdata : ∀ s ∈ data, |⟪s.1, e⟫| ≤ B ∧ s.2 ∈ Set.Icc (0 : ℝ) 1) (k : ℕ) :
    |⟪(descentStep data lr)^[k] 0, e⟫| ≤ k * (lr * B) := by
  induction k with
  | zero => simp
  | succ k ih =>
    rw [Function.iterate_succ_apply']
    set q := (descentStep data lr)^[k] 0
    have hgrad : |lr * ⟪lossGradient data q, e⟫| ≤ lr * B := by
      rw [abs_mul, abs_of_nonneg hlr]
      gcongr
      exact abs_inner_lossGradient_le hB hdata q
    have hsub := abs_sub ⟪q, e⟫ (lr * ⟪lossGradient data q, e⟫)
    rw [descentStep, inner_sub_left, real_inner_smul_left]
    push_cast
    linarith

end Size

end Mean

end Logistic
