import OpteeRpi5.Spec.HaiMargin
import OpteeRpi5.Spec.TrainDescent

/-!
# The numbers that the trainers emit

For every data set that `make_dataset` can make. The error of a probability is at most one,
so in each epoch a parameter changes by at most the step size times the largest feature,
and after all epochs the rounded parameters are far from the limits of the `int32_t`
arrays they are pasted into.

## Key results

- `trainTinyml_abs_le`, `trainHybrid_abs_le`: the size of the parameters
- `emitted_bounds`: the numbers that both trainers emit
-/

namespace OpteeRpi5.Spec

open OpteeRpi5.Native Logistic
open scoped RealInnerProductSpace RealExp

/-! ## Components -/

/-- A component of the parameters. -/
theorem inner_single_tinyml (p : TinymlParams ℝ) (k : Option (Fin 4)) :
    ⟪tinymlVec p, EuclideanSpace.single k (1 : ℝ)⟫ = k.elim p.b fun i => p.w i := by
  simp [EuclideanSpace.inner_single_right, tinymlVec]

/-- A component of a row. -/
theorem inner_single_tinymlSample (s : Sample ℝ) (k : Option (Fin 4)) :
    ⟪(tinymlSample s).1, EuclideanSpace.single k (1 : ℝ)⟫ = k.elim 1 fun i => s.1 i := by
  simp [EuclideanSpace.inner_single_right, tinymlSample]

/-- A component of the parameters, with the products. -/
theorem inner_single_hybrid (p : HybridParams ℝ) (k : Option (Fin 4 ⊕ Fin 4)) :
    ⟪hybridVec p, EuclideanSpace.single k (1 : ℝ)⟫ =
      k.elim p.bias (Sum.elim (fun i => p.theta i) fun i => p.gamma i) := by
  simp [EuclideanSpace.inner_single_right, hybridVec]

/-- A component of a row, with the products. -/
theorem inner_single_hybridSample (s : Sample ℝ) (k : Option (Fin 4 ⊕ Fin 4)) :
    ⟪(hybridSample s).1, EuclideanSpace.single k (1 : ℝ)⟫ = k.elim 1
      (Sum.elim (fun i => s.1 i) fun i => s.1 i * s.1 ((i + 1) % trainFeatureCount)) := by
  simp [EuclideanSpace.inner_single_right, hybridSample]

/-! ## Training -/

section Train

variable {X lr : ℝ} {data : List (Sample ℝ)}

/-- Rows with numbers of at most `X`, and labels. -/
def Bounded (X : ℝ) (data : List (Sample ℝ)) : Prop :=
  ∀ s ∈ data, (∀ i, |s.1 i| ≤ X) ∧ s.2 ≤ 1

/-- A label is a probability. -/
theorem Bounded.label (h : Bounded X data) {s : Sample ℝ} (hs : s ∈ data) :
    (s.2 : ℝ) ∈ Set.Icc (0 : ℝ) 1 :=
  ⟨Nat.cast_nonneg s.2, by exact_mod_cast (h s hs).2⟩

/-- Each epoch adds at most the step size times the largest feature. -/
theorem trainTinyml_abs_le (hne : data ≠ []) (hdata : Bounded X data) (hX : 0 ≤ X) (hlr : 0 ≤ lr)
    (epochs : Nat) :
    ∃ p, trainTinyml data lr epochs = some p ∧ (∀ i < 4, |p.w i| ≤ epochs * (lr * X)) ∧
      |p.b| ≤ epochs * (lr * 1) := by
  obtain ⟨p, hp, hvec⟩ := Option.map_eq_some_iff.mp (trainTinyml_vec hne lr epochs)
  -- one component of the vector at a time
  have hcomp : ∀ (k : Option (Fin 4)) (B : ℝ), 0 ≤ B →
      (∀ s ∈ data, |k.elim 1 fun i => s.1 i| ≤ B) →
      |k.elim p.b fun i => p.w i| ≤ epochs * (lr * B) := by
    intro k B hB hk
    rw [← inner_single_tinyml, hvec]
    apply abs_inner_iterate_le hB hlr
    simp only [List.forall_mem_map, inner_single_tinymlSample]
    exact fun s hs => ⟨hk s hs, hdata.label hs⟩
  refine ⟨p, hp, fun i hi => ?_, hcomp none 1 zero_le_one fun s _ => abs_one.le⟩
  exact hcomp (some ⟨i, hi⟩) X hX fun s hs => (hdata s hs).1 i

/-- The products of two features have their own bound. -/
theorem trainHybrid_abs_le (hne : data ≠ []) (hdata : Bounded X data) (hX : 0 ≤ X) (hlr : 0 ≤ lr)
    (epochs : Nat) :
    ∃ p, trainHybrid data lr epochs = some p ∧ (∀ i < 4, |p.theta i| ≤ epochs * (lr * X)) ∧
      (∀ i < 4, |p.gamma i| ≤ epochs * (lr * (X * X))) ∧ |p.bias| ≤ epochs * (lr * 1) := by
  obtain ⟨p, hp, hvec⟩ := Option.map_eq_some_iff.mp (trainHybrid_vec hne lr epochs)
  have hcomp : ∀ (k : Option (Fin 4 ⊕ Fin 4)) (B : ℝ), 0 ≤ B →
      (∀ s ∈ data, |k.elim 1
        (Sum.elim (fun i => s.1 i) fun i => s.1 i * s.1 ((i + 1) % trainFeatureCount))| ≤ B) →
      |k.elim p.bias (Sum.elim (fun i => p.theta i) fun i => p.gamma i)| ≤ epochs * (lr * B) := by
    intro k B hB hk
    rw [← inner_single_hybrid, hvec]
    apply abs_inner_iterate_le hB hlr
    simp only [List.forall_mem_map, inner_single_hybridSample]
    exact fun s hs => ⟨hk s hs, hdata.label hs⟩
  refine ⟨p, hp, fun i hi => ?_, fun i hi => ?_, hcomp none 1 zero_le_one fun s _ => abs_one.le⟩
  · exact hcomp (some (.inl ⟨i, hi⟩)) X hX fun s hs => (hdata s hs).1 i
  · apply hcomp (some (.inr ⟨i, hi⟩)) (X * X) (mul_nonneg hX hX)
    intro s hs
    show |s.1 i * s.1 ((i + 1) % trainFeatureCount)| ≤ X * X
    rw [abs_mul]
    exact mul_le_mul ((hdata s hs).1 _) ((hdata s hs).1 _) (abs_nonneg _) hX

end Train

/-! ## Export -/

/-- Rounding to a whole number does not cross one. -/
theorem abs_toMilli_le {v : ℝ} {B : ℤ} (h : |v| * 1000 ≤ B) : |toMilli v| ≤ B := by
  have hround := abs_le.mp (abs_sub_rint_le (v * (milliScale : ℝ)))
  have hscale : |v * (milliScale : ℝ)| ≤ B := by
    rw [abs_mul, Nat.abs_cast]
    exact_mod_cast h
  rw [abs_le] at hscale
  -- rounding moves a value by a half at most, and `B` is an integer
  have hlow : (-B - 1 : ℤ) < (toMilli v : ℤ) := by
    have : ((-B - 1 : ℤ) : ℝ) < (toMilli v : ℝ) := by
      unfold toMilli
      push_cast
      linarith
    exact_mod_cast this
  have hhigh : toMilli v < B + 1 := by
    have : (toMilli v : ℝ) < ((B + 1 : ℤ) : ℝ) := by
      unfold toMilli
      push_cast
      linarith
    exact_mod_cast this
  exact abs_le.mpr ⟨by omega, by omega⟩

/-- The features that are drawn are at most 30. -/
theorem bounded_makeDataset (score : (Nat → ℝ) → ℝ) (n : Nat)
    (uniform : Nat → Set.Icc (-20 : ℝ) 30) :
    Bounded 30 (makeDataset score n fun k => uniform k) := by
  intro s hs
  obtain ⟨k, -, rfl⟩ := List.mem_map.mp hs
  constructor
  · intro i
    show |(uniform (trainFeatureCount * k + i) : ℝ)| ≤ 30
    have h := (uniform (trainFeatureCount * k + i)).property
    exact abs_le.mpr ⟨by linarith [h.1], h.2⟩
  · show (if _ then 1 else 0) ≤ 1
    split <;> decide

/-- Training has rows, so it does not divide by zero. -/
theorem makeDataset_ne_nil (score : (Nat → ℝ) → ℝ) (n : Nat) (uniform : Nat → ℝ) :
    makeDataset score (n + 1) uniform ≠ [] := by
  simp [makeDataset]

/-- Whatever the generator returns, and for every number of samples but zero, the tables
    that the trainers emit hold numbers of at most these sizes. -/
theorem emitted_bounds (n : Nat) (uniform : Nat → Set.Icc (-20 : ℝ) 30) :
    (∃ w b, mainTinyml (n + 1) (fun k => (uniform k : ℝ)) = some (w, b) ∧ w.length = 4 ∧
      (∀ v ∈ w, |v| ≤ 240000) ∧ |b| ≤ 8000) ∧
    ∃ theta gamma bias,
      mainHybrid (n + 1) (fun k => (uniform k : ℝ)) = some (theta, gamma, bias) ∧
      theta.length = 4 ∧ gamma.length = 4 ∧ (∀ v ∈ theta, |v| ≤ 3600) ∧
      (∀ v ∈ gamma, |v| ≤ 108000) ∧ |bias| ≤ 120 := by
  constructor
  · obtain ⟨p, hp, hw, hb⟩ := trainTinyml_abs_le (makeDataset_ne_nil tinymlRule n _)
      (bounded_makeDataset tinymlRule (n + 1) uniform) (by norm_num)
      (show (0 : ℝ) ≤ lit (1 / 100) by norm_num [lit_real]) 800
    rw [lit_real] at hw hb
    push_cast at hw hb
    refine ⟨_, _, by rw [mainTinyml, hp]; rfl, rfl, ?_, abs_toMilli_le (by push_cast; linarith)⟩
    simp only [List.forall_mem_map, List.mem_range]
    exact fun i hi => abs_toMilli_le (by push_cast; linarith [hw i hi])
  · obtain ⟨p, hp, ht, hg, hb⟩ := trainHybrid_abs_le (makeDataset_ne_nil hybridRule n _)
      (bounded_makeDataset hybridRule (n + 1) uniform) (by norm_num)
      (show (0 : ℝ) ≤ lit (1 / 10000) by norm_num [lit_real]) 1200
    rw [lit_real] at ht hg hb
    push_cast at ht hg hb
    refine ⟨_, _, _, by rw [mainHybrid, hp]; rfl, rfl, rfl, ?_, ?_,
      abs_toMilli_le (by push_cast; linarith)⟩
    · simp only [List.forall_mem_map, List.mem_range]
      exact fun i hi => abs_toMilli_le (by push_cast; linarith [ht i hi])
    · simp only [List.forall_mem_map, List.mem_range]
      exact fun i hi => abs_toMilli_le (by push_cast; linarith [hg i hi])

end OpteeRpi5.Spec
