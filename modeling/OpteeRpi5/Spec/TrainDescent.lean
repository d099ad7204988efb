import Mathlib.Analysis.InnerProductSpace.PiL2
import OpteeRpi5.ForMathlib.LogisticLoss
import OpteeRpi5.Native.TrainLoop
import OpteeRpi5.Spec.CircuitMirror

/-!
# Training is gradient descent

Over the real numbers. The parameters of a trainer and the features of a row are vectors
whose inner product is the score, so both trainers are logistic regression: an epoch is
one step of gradient descent on the mean cross entropy of the probabilities that the
trainer computes. A step that is short enough for the rows never increases it.

## Key results

- `tinymlEpoch_vec`, `hybridEpoch_vec`: an epoch is a step of gradient descent
- `train_gradientDescent`: training, for all rows, step sizes and numbers of epochs
- `train_loss_antitone`: training with short steps
-/

namespace OpteeRpi5.Spec

open OpteeRpi5.Native Logistic
open scoped RealInnerProductSpace Gradient

/-! ## Real numbers -/

namespace RealExp

/-- `math.exp` on real numbers. -/
noncomputable scoped instance mathExp : MathExp ℝ := ⟨Real.exp⟩

end RealExp

open scoped RealExp

/-- The two branches of `sigmoid` agree. -/
theorem sigmoid_eq (z : ℝ) : Native.sigmoid z = Real.sigmoid z := by
  unfold Native.sigmoid
  rw [lit_one_real]
  split
  · rw [Real.sigmoid_def, one_div]
    rfl
  · show Real.exp z / (1 + Real.exp z) = _
    rw [Real.sigmoid_def, Real.exp_neg]
    field_simp
    ring

/-! ## Features -/

/-- A loop over a list that updates each entry once. -/
theorem fold_update (n : Nat) (f : Nat → ℝ → ℝ) (w : Nat → ℝ) (j : Nat) :
    Loop.fold n (fun i w => Function.update w i (f i (w i))) w j =
      if j < n then f j (w j) else w j := by
  induction n generalizing j with
  | zero => rfl
  | succ n ih =>
    rw [Loop.fold_succ, Function.update_apply, ih n, ih j, if_neg (Nat.lt_irrefl n)]
    by_cases hj : j = n
    · subst hj
      simp
    · have hlt : j < n + 1 ↔ j < n := by omega
      simp only [hj, hlt, if_false]

/-- Each of the four entries is updated by itself. -/
theorem updateFeatures_apply (f : Nat → ℝ → ℝ) (w : Nat → ℝ) (i : Fin 4) :
    updateFeatures f w i = f i (w i) := by
  rw [updateFeatures, fold_update]
  exact if_pos i.isLt

/-- The sum over `zip`. -/
theorem sumZip_sum (w x : Nat → ℝ) : sumZip w x = ∑ i : Fin 4, w i * x i := by
  rw [Fin.sum_univ_four]
  show 0 + _ + _ + _ + _ = _
  rw [zero_add]
  rfl

theorem lit_nat (n : Nat) : (lit n : ℝ) = n := by simp [lit_real]

/-! ## train_tinyml.py -/

/-- The parameters as a vector. The component `none` is the bias. -/
def tinymlVec (p : TinymlParams ℝ) : EuclideanSpace ℝ (Option (Fin 4)) :=
  WithLp.toLp _ fun k => k.elim p.b fun i => p.w i

/-- A row as a vector of the same kind, with its label. -/
def tinymlSample (s : Sample ℝ) : EuclideanSpace ℝ (Option (Fin 4)) × ℝ :=
  (WithLp.toLp _ fun k => k.elim 1 fun i => s.1 i, s.2)

/-- The score of `train_tinyml.py` as an inner product. -/
theorem inner_tinyml (s : Sample ℝ) (p : TinymlParams ℝ) :
    ⟪(tinymlSample s).1, tinymlVec p⟫ = trainTinymlScore s.1 p.w p.b := by
  simp [tinymlSample, tinymlVec, PiLp.inner_apply, Fintype.sum_option, trainTinymlScore, sumZip_sum]

/-- A row adds its error times its features to the gradient. -/
theorem tinymlRow_vec (p g : TinymlParams ℝ) (s : Sample ℝ) :
    tinymlVec (tinymlRow p g s) = tinymlVec g +
      (Real.sigmoid ⟪(tinymlSample s).1, tinymlVec p⟫ - (tinymlSample s).2) •
        (tinymlSample s).1 := by
  rw [inner_tinyml]
  ext k
  cases k with
  | none => simp [tinymlVec, tinymlSample, tinymlRow, sigmoid_eq, lit_nat]
  | some i => simp [tinymlVec, tinymlSample, tinymlRow, sigmoid_eq, lit_nat, updateFeatures_apply]

/-- Training starts at zero. -/
theorem tinymlVec_zero : tinymlVec ⟨fun _ => lit 0, lit 0⟩ = 0 := by
  ext k
  cases k <;> simp [tinymlVec]

/-- An epoch is a step of gradient descent. -/
theorem tinymlEpoch_vec (data : List (Sample ℝ)) (lr : ℝ) (p : TinymlParams ℝ) :
    tinymlVec (tinymlEpoch data lr p) =
      descentStep (data.map tinymlSample) lr (tinymlVec p) := by
  have hsum := foldl_errorSum (tinymlRow_vec p) data ⟨fun _ => lit 0, lit 0⟩
  rw [tinymlVec_zero, zero_add] at hsum
  rw [descentStep, lossGradient, ← hsum, List.length_map]
  ext k
  cases k with
  | none =>
    simp only [tinymlVec, tinymlEpoch, lit_nat, PiLp.sub_apply, PiLp.smul_apply, smul_eq_mul,
      Option.elim_none]
    ring
  | some i =>
    simp only [tinymlVec, tinymlEpoch, lit_nat, PiLp.sub_apply, PiLp.smul_apply, smul_eq_mul,
      Option.elim_some, updateFeatures_apply]
    ring

/-! ## train_qai_hybrid.py -/

/-- The parameters as a vector, with the interactions after the linear terms. -/
def hybridVec (p : HybridParams ℝ) : EuclideanSpace ℝ (Option (Fin 4 ⊕ Fin 4)) :=
  WithLp.toLp _ fun k => k.elim p.bias (Sum.elim (fun i => p.theta i) fun i => p.gamma i)

/-- The features of a row: the numbers and the products of neighbours. -/
def hybridSample (s : Sample ℝ) : EuclideanSpace ℝ (Option (Fin 4 ⊕ Fin 4)) × ℝ :=
  (WithLp.toLp _ fun k => k.elim 1
    (Sum.elim (fun i => s.1 i) fun i => s.1 i * s.1 ((i + 1) % trainFeatureCount)), s.2)

/-- `predict_score`, as a sum. -/
theorem predictScore_eq (x theta gamma : Nat → ℝ) (bias : ℝ) :
    predictScore x theta gamma bias = bias + ∑ i : Fin 4, theta i * x i +
      ∑ i : Fin 4, gamma i * x i * x ((i + 1) % trainFeatureCount) := by
  rw [← sumZip_sum, Fin.sum_univ_four]
  simp only [predictScore, trainFeatureCount, Loop.fold]
  simp only [← add_assoc]
  rfl

/-- The score of `train_qai_hybrid.py` as an inner product. -/
theorem inner_hybrid (s : Sample ℝ) (p : HybridParams ℝ) :
    ⟪(hybridSample s).1, hybridVec p⟫ = predictScore s.1 p.theta p.gamma p.bias := by
  simp [hybridSample, hybridVec, PiLp.inner_apply, Fintype.sum_option, Fintype.sum_sum_type,
    predictScore_eq, mul_assoc, add_assoc]

/-- A row adds its error times its features and their products. -/
theorem hybridRow_vec (p g : HybridParams ℝ) (s : Sample ℝ) :
    hybridVec (hybridRow p g s) = hybridVec g +
      (Real.sigmoid ⟪(hybridSample s).1, hybridVec p⟫ - (hybridSample s).2) •
        (hybridSample s).1 := by
  rw [inner_hybrid]
  ext k
  rcases k with _ | i | i
  · simp [hybridVec, hybridSample, hybridRow, sigmoid_eq, lit_nat]
  · simp [hybridVec, hybridSample, hybridRow, sigmoid_eq, lit_nat, updateFeatures_apply]
  · simp [hybridVec, hybridSample, hybridRow, sigmoid_eq, lit_nat, updateFeatures_apply, mul_assoc]

/-- The hybrid training starts at zero, too. -/
theorem hybridVec_zero : hybridVec ⟨fun _ => lit 0, fun _ => lit 0, lit 0⟩ = 0 := by
  ext k
  rcases k with _ | _ | _ <;> simp [hybridVec]

/-- An epoch of `train_qai_hybrid.py` is a step of gradient descent. -/
theorem hybridEpoch_vec (data : List (Sample ℝ)) (lr : ℝ) (p : HybridParams ℝ) :
    hybridVec (hybridEpoch data lr p) =
      descentStep (data.map hybridSample) lr (hybridVec p) := by
  have hsum := foldl_errorSum (hybridRow_vec p) data ⟨fun _ => lit 0, fun _ => lit 0, lit 0⟩
  rw [hybridVec_zero, zero_add] at hsum
  rw [descentStep, lossGradient, ← hsum, List.length_map]
  ext k
  rcases k with _ | i | i
  · simp only [hybridVec, hybridEpoch, lit_nat, PiLp.sub_apply, PiLp.smul_apply, smul_eq_mul,
      Option.elim_none]
    ring
  · simp only [hybridVec, hybridEpoch, lit_nat, PiLp.sub_apply, PiLp.smul_apply, smul_eq_mul,
      Option.elim_some, Sum.elim_inl, updateFeatures_apply]
    ring
  · simp only [hybridVec, hybridEpoch, lit_nat, PiLp.sub_apply, PiLp.smul_apply, smul_eq_mul,
      Option.elim_some, Sum.elim_inr, updateFeatures_apply]
    ring

/-! ## Training -/

/-- Steps that correspond to each other, in both representations. -/
theorem fold_vec {P E : Type} (vec : P → E) (epoch : P → P) (step : E → E)
    (h : ∀ p, vec (epoch p) = step (vec p)) (n : Nat) (p : P) :
    vec (Loop.fold n (fun _ p => epoch p) p) = step^[n] (vec p) := by
  induction n with
  | zero => rfl
  | succ n ih => rw [Loop.fold_succ, h, ih, Function.iterate_succ_apply']

/-- The epochs are steps of gradient descent from zero. -/
theorem trainTinyml_vec {data : List (Sample ℝ)} (hne : data ≠ []) (lr : ℝ) (epochs : Nat) :
    (trainTinyml data lr epochs).map tinymlVec =
      some ((descentStep (data.map tinymlSample) lr)^[epochs] 0) := by
  rw [trainTinyml, if_neg (by simp [hne]), Option.map_some,
    fold_vec tinymlVec (tinymlEpoch data lr) _ (tinymlEpoch_vec data lr), tinymlVec_zero]

theorem trainHybrid_vec {data : List (Sample ℝ)} (hne : data ≠ []) (lr : ℝ) (epochs : Nat) :
    (trainHybrid data lr epochs).map hybridVec =
      some ((descentStep (data.map hybridSample) lr)^[epochs] 0) := by
  rw [trainHybrid, if_neg (by simp [hne]), Option.map_some,
    fold_vec hybridVec (hybridEpoch data lr) _ (hybridEpoch_vec data lr), hybridVec_zero]

/-- For all rows and labels, of which there is at least one, every step size and every
    number of epochs, both trainers perform gradient descent from zero on the mean cross
    entropy of the logistic classifier. -/
theorem train_gradientDescent (s : Sample ℝ) (data : List (Sample ℝ)) (lr : ℝ) (epochs : Nat) :
    (trainTinyml (s :: data) lr epochs).map tinymlVec =
      some ((fun q => q - lr • ∇ (meanLoss ((s :: data).map tinymlSample)) q)^[epochs] 0) ∧
    (trainHybrid (s :: data) lr epochs).map hybridVec =
      some ((fun q => q - lr • ∇ (meanLoss ((s :: data).map hybridSample)) q)^[epochs] 0) := by
  rw [trainTinyml_vec (List.cons_ne_nil s data), trainHybrid_vec (List.cons_ne_nil s data),
    descentStep_eq, descentStep_eq]
  exact ⟨rfl, rfl⟩

/-! ## The loss -/

/-- The mean cross entropy of the probabilities that `train_tinyml.py` computes. -/
noncomputable def tinymlLoss (data : List (Sample ℝ)) (p : TinymlParams ℝ) : ℝ :=
  (data.map fun s => crossEntropy s.2 (Native.sigmoid (trainTinymlScore s.1 p.w p.b))).sum /
    data.length

@[inherit_doc tinymlLoss]
noncomputable def hybridLoss (data : List (Sample ℝ)) (p : HybridParams ℝ) : ℝ :=
  (data.map fun s =>
    crossEntropy s.2 (Native.sigmoid (predictScore s.1 p.theta p.gamma p.bias))).sum / data.length

/-- The loss of the trainer is the mean cross entropy of the vectors. -/
theorem tinymlLoss_eq (data : List (Sample ℝ)) (p : TinymlParams ℝ) :
    tinymlLoss data p = meanLoss (data.map tinymlSample) (tinymlVec p) := by
  simp only [tinymlLoss, meanLoss, List.map_map, List.length_map, sigmoid_eq, ← inner_tinyml]
  rfl

theorem hybridLoss_eq (data : List (Sample ℝ)) (p : HybridParams ℝ) :
    hybridLoss data p = meanLoss (data.map hybridSample) (hybridVec p) := by
  simp only [hybridLoss, meanLoss, List.map_map, List.length_map, sigmoid_eq, ← inner_hybrid]
  rfl

theorem inner_tinymlSample (s r : Sample ℝ) :
    ⟪(tinymlSample s).1, (tinymlSample r).1⟫ = 1 + ∑ i : Fin 4, r.1 i * s.1 i := by
  simp [tinymlSample, PiLp.inner_apply, Fintype.sum_option]

/-- The size of a row, with the one of the bias. -/
theorem norm_tinymlSample (s : Sample ℝ) :
    ‖(tinymlSample s).1‖ ^ 2 = 1 + ∑ i : Fin 4, s.1 i ^ 2 := by
  rw [← real_inner_self_eq_norm_sq, inner_tinymlSample]
  simp only [pow_two]

/-- The size of a row, with the products. -/
theorem norm_hybridSample (s : Sample ℝ) :
    ‖(hybridSample s).1‖ ^ 2 = 1 + (∑ i : Fin 4, s.1 i ^ 2 +
      ∑ i : Fin 4, (s.1 i * s.1 ((i + 1) % trainFeatureCount)) ^ 2) := by
  simp [EuclideanSpace.norm_sq_eq, hybridSample, Fintype.sum_option, Fintype.sum_sum_type, mul_pow]

/-- Training that is gradient descent in a space of features, with short steps. -/
theorem exists_loss_le {P E : Type} [NormedAddCommGroup E] [InnerProductSpace ℝ E]
    {data : List (E × ℝ)} {lr : ℝ} {vec : P → E} {train : Nat → Option P} {loss : P → ℝ}
    (hvec : ∀ n, (train n).map vec = some ((descentStep data lr)^[n] 0))
    (hloss : ∀ p, loss p = meanLoss data (vec p)) (hne : data ≠ []) (hlr : 0 < lr)
    (hstep : ∀ s ∈ data, lr * ‖s.1‖ ^ 2 ≤ 8) {j k : Nat} (hjk : j ≤ k) :
    ∃ p p', train j = some p ∧ train k = some p' ∧ loss p' ≤ loss p := by
  obtain ⟨p, hp, hj⟩ := Option.map_eq_some_iff.mp (hvec j)
  obtain ⟨p', hp', hk⟩ := Option.map_eq_some_iff.mp (hvec k)
  refine ⟨p, p', hp, hp', ?_⟩
  rw [hloss, hloss, hj, hk]
  exact meanLoss_iterate_antitone hne hlr hstep 0 hjk

/-- With a step size of at most eight over the squared length of each row of features, the
    bias among them, more epochs never give a greater loss. -/
theorem train_loss_antitone (s : Sample ℝ) (data : List (Sample ℝ)) {lr : ℝ} (hlr : 0 < lr)
    {j k : Nat} (hjk : j ≤ k) :
    ((∀ r ∈ s :: data, lr * (1 + ∑ i : Fin 4, r.1 i ^ 2) ≤ 8) →
      ∃ p p', trainTinyml (s :: data) lr j = some p ∧ trainTinyml (s :: data) lr k = some p' ∧
        tinymlLoss (s :: data) p' ≤ tinymlLoss (s :: data) p) ∧
    ((∀ r ∈ s :: data, lr * (1 + (∑ i : Fin 4, r.1 i ^ 2 +
        ∑ i : Fin 4, (r.1 i * r.1 ((i + 1) % trainFeatureCount)) ^ 2)) ≤ 8) →
      ∃ p p', trainHybrid (s :: data) lr j = some p ∧ trainHybrid (s :: data) lr k = some p' ∧
        hybridLoss (s :: data) p' ≤ hybridLoss (s :: data) p) := by
  have hne : s :: data ≠ [] := List.cons_ne_nil s data
  constructor
  · intro hstep
    apply exists_loss_le (trainTinyml_vec hne lr) (tinymlLoss_eq _) (by simp) hlr ?_ hjk
    simpa only [List.forall_mem_map, norm_tinymlSample] using hstep
  · intro hstep
    apply exists_loss_le (trainHybrid_vec hne lr) (hybridLoss_eq _) (by simp) hlr ?_ hjk
    simpa only [List.forall_mem_map, norm_hybridSample] using hstep

/-- One row of ones: with the bias, five features of one and nine with the products. -/
theorem train_loss_antitone_ones :
    (∃ p p', trainTinyml [((fun _ => 1 : Nat → ℝ), 1)] (1 / 2) 1 = some p ∧
      trainTinyml [((fun _ => 1 : Nat → ℝ), 1)] (1 / 2) 5 = some p' ∧
        tinymlLoss [((fun _ => 1 : Nat → ℝ), 1)] p' ≤ tinymlLoss [((fun _ => 1 : Nat → ℝ), 1)] p) ∧
    ∃ p p', trainHybrid [((fun _ => 1 : Nat → ℝ), 1)] (1 / 2) 1 = some p ∧
      trainHybrid [((fun _ => 1 : Nat → ℝ), 1)] (1 / 2) 5 = some p' ∧
        hybridLoss [((fun _ => 1 : Nat → ℝ), 1)] p' ≤ hybridLoss [((fun _ => 1 : Nat → ℝ), 1)] p :=
  have h := train_loss_antitone (fun _ => 1, 1) []
    (one_half_pos : (0 : ℝ) < 1 / 2) (show 1 ≤ 5 by decide)
  ⟨h.1 (by norm_num), h.2 (by norm_num)⟩

end OpteeRpi5.Spec
