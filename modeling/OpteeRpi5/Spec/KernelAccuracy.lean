import Mathlib.Analysis.Complex.ExponentialBounds
import OpteeRpi5.ForMathlib.Binary32
import OpteeRpi5.ForMathlib.Perturbation
import OpteeRpi5.Spec.KernelPosSemidef
import OpteeRpi5.Spec.TrigAccuracy

/-!
# Accuracy of the kernel

The TA computes its kernel with `k_sin` and `k_cos` in place of the sine and cosine. For
angles of at most one turn their error is below `1e-9` at the half angles that the gates
use, so every gate is a small perturbation of a unitary one, and the circuit one of the
true circuit. The kernel values are then those of the quantum kernel
`exp |⟨φ(y), φ(x)⟩|²` up to an error that grows with the number of gates, and a matrix of
them is positive semidefinite up to such an error.

## Key results

- `circuit_perturbed`: the circuit with an approximate sine and cosine
- `kernel_accuracy`: the values that the kernel block stores
- `gram_nearly_posSemidef`: the quadratic form of a Gram matrix of the kernel block
-/

namespace OpteeRpi5.Spec

open OpteeRpi5.Native Matrix
open scoped Numerals

/-! ## Gates -/

/-- The first `2 ^ n` amplitudes, with their norm. -/
noncomputable def amps (n : Nat) (f : Nat → ℝ × ℝ) : EuclideanSpace ℂ (Fin (2 ^ n)) :=
  WithLp.toLp 2 (vec n f)

/-- At half the angle `a` the sine and cosine are accurate to `e`. -/
structure TrigNear (t : ParityTrig) (e a : ℝ) : Prop where
  sin : |t.sin (a / 2) - Real.sin (a / 2)| ≤ e
  cos : |t.cos (a / 2) - Real.cos (a / 2)| ≤ e

/-- The inverse rotations use the same angles with the opposite sign. -/
theorem TrigNear.neg {t : ParityTrig} {e a : ℝ} (h : TrigNear t e a) : TrigNear t e (-a) where
  sin := by
    rw [neg_div, t.sin_neg, Real.sin_neg, neg_sub_neg, abs_sub_comm]
    exact h.sin
  cos := by
    rw [neg_div, t.cos_neg, Real.cos_neg]
    exact h.cos

/-- The distance of two points of the plane whose coordinates are close. -/
theorem sqrt_add_sq_le {e x y : ℝ} (hx : |x| ≤ e) (hy : |y| ≤ e) :
    √(x ^ 2 + y ^ 2) ≤ 1.42 * e := by
  have he : 0 ≤ e := (abs_nonneg x).trans hx
  rw [Real.sqrt_le_left (by positivity)]
  have hx2 := sq_le_sq' (abs_le.mp hx).1 (abs_le.mp hx).2
  have hy2 := sq_le_sq' (abs_le.mp hy).1 (abs_le.mp hy).2
  nlinarith [sq_nonneg e]

/-- A gate close to a unitary one. -/
theorem gate_perturbed {n q : Nat} (hq : q < n) {g h : Gate ℝ} {dc ds e : ℝ} (hdc : |dc| ≤ e)
    (hds : |ds| ≤ e) (hunit : (gateMat h)ᴴ * gateMat h = 1)
    (hdiff : (gateMat g - gateMat h)ᴴ * (gateMat g - gateMat h) =
      ((dc ^ 2 + ds ^ 2 : ℝ) : ℂ) • (1 : Matrix Bool Bool ℂ)) :
    Perturbed (amps n) (Gate.act g q) (Gate.act h q) (1 + 1.42 * e) := by
  have hpert := (bitSite hq).perturbed (vec_act hq g) (vec_act hq h) (Real.sqrt_nonneg _) hunit
    (d := √(dc ^ 2 + ds ^ 2)) (by rw [Real.sq_sqrt (by positivity)]; exact hdiff)
  exact hpert.mono (by linarith [sqrt_add_sq_le hdc hds])

section Gates

variable {t : ParityTrig} {e a : ℝ}

/-- A rotation about Y with the approximate functions. -/
theorem ry_perturbed {n q : Nat} (hq : q < n) (h : TrigNear t e a) :
    Perturbed (amps n) (Gate.act (ryGate t.toTrig a) q) (Gate.act (ryGate realTrig.toTrig a) q)
      (1 + 1.42 * e) := by
  have hone := Real.sin_sq_add_cos_sq (a / 2)
  apply gate_perturbed hq h.cos h.sin
  · simp only [ryGate, mul_lit_half, realTrig]
    generalize Real.cos (a / 2) = c at hone
    generalize Real.sin (a / 2) = s at hone
    ext i j
    cases i <;> cases j <;> simp [gateMat, mul_apply, Complex.ext_iff] <;> linarith
  · simp only [ryGate, mul_lit_half, realTrig]
    generalize Real.cos (a / 2) = c
    generalize Real.sin (a / 2) = s
    ext i j
    cases i <;> cases j <;> simp [gateMat, mul_apply, Complex.ext_iff, sq] <;> ring

/-- A rotation about Z with the approximate functions. -/
theorem rz_perturbed {n q : Nat} (hq : q < n) (h : TrigNear t e a) :
    Perturbed (amps n) (Gate.act (rzGate t.toTrig a) q) (Gate.act (rzGate realTrig.toTrig a) q)
      (1 + 1.42 * e) := by
  have hone := Real.sin_sq_add_cos_sq (a / 2)
  apply gate_perturbed hq h.cos h.sin
  · simp only [rzGate, mul_lit_half, realTrig]
    generalize Real.cos (a / 2) = c at hone
    generalize Real.sin (a / 2) = s at hone
    ext i j
    cases i <;> cases j <;> simp [gateMat, mul_apply, Complex.ext_iff] <;> constructor <;> linarith
  · simp only [rzGate, mul_lit_half, realTrig]
    generalize Real.cos (a / 2) = c
    generalize Real.sin (a / 2) = s
    ext i j
    cases i <;> cases j <;> simp [gateMat, mul_apply, Complex.ext_iff, sq] <;> constructor <;> ring

end Gates

/-- Controlled NOTs are exact. -/
theorem cnot_perturbed {n c t : Nat} (ht : t < n) (hct : c ≠ t) :
    Perturbed (amps n) (fun f x => f (cnotIndex c t x)) (fun f x => f (cnotIndex c t x)) 1 := by
  have hperm (f : Nat → ℝ × ℝ) : amps n (fun x => f (cnotIndex c t x)) =
      LinearIsometryEquiv.piLpCongrLeft 2 ℂ ℂ (cnotPerm ht hct).symm (amps n f) := by
    ext i
    rfl
  apply Perturbed.of_isometry
  · intro f
    rw [hperm, LinearIsometryEquiv.norm_map]
  · intro f g
    rw [hperm, hperm, ← map_sub, LinearIsometryEquiv.norm_map]

/-! ## Circuits -/

section Circuits

variable {t : ParityTrig} {e : ℝ} {n : Nat} {x y : Nat → ℝ}

/-- All angles of a vector are in the range of the sine and cosine. -/
def VectorNear (t : ParityTrig) (e : ℝ) (n : Nat) (x : Nat → ℝ) : Prop :=
  ∀ i < 2 * n, TrigNear t e (x i)

/-- The two rotations of a qubit. -/
theorem rotFwd_perturbed (hx : VectorNear t e n x) {q : Nat} (hq : q < n) :
    Perturbed (amps n) (rotFwdAct t.toTrig x q) (rotFwdAct realTrig.toTrig x q)
      ((1 + 1.42 * e) ^ 2) := by
  have h := (ry_perturbed hq (hx (2 * q) (by omega))).comp
    (rz_perturbed hq (hx (2 * q + 1) (by omega)))
  rw [← sq] at h
  exact h

/-- The two inverse rotations of a qubit. -/
theorem rotInv_perturbed (hy : VectorNear t e n y) {q : Nat} (hq : q < n) :
    Perturbed (amps n) (rotInvAct t.toTrig y q) (rotInvAct realTrig.toTrig y q)
      ((1 + 1.42 * e) ^ 2) := by
  have h := (rz_perturbed hq (hy (2 * q + 1) (by omega)).neg).comp
    (ry_perturbed hq (hy (2 * q) (by omega)).neg)
  rw [← sq] at h
  exact h

/-- The ring has no angles, so it is exact. -/
theorem ringFwd_perturbed (hn : 2 ≤ n) :
    Perturbed (amps n) (ringFwdAct n) (ringFwdAct n) 1 := by
  have h := Perturbed.fold (fun q hq =>
    cnot_perturbed (n := n) (Nat.mod_lt (q + 1) (by omega)) (ring_next_ne hn hq))
  rwa [Finset.prod_const_one] at h

theorem ringInv_perturbed (hn : 2 ≤ n) :
    Perturbed (amps n) (ringInvAct n) (ringInvAct n) 1 := by
  have h := Perturbed.foldDown (fun q hq =>
    cnot_perturbed (n := n) (Nat.mod_lt (q + 1) (by omega)) (ring_next_ne hn hq))
  rwa [Finset.prod_const_one] at h

/-- A layer has four rotations for each qubit. -/
theorem layerFwd_perturbed (hn : 2 ≤ n) (hx : VectorNear t e n x) :
    Perturbed (amps n) (layerFwdAct n t.toTrig x) (layerFwdAct n realTrig.toTrig x)
      ((1 + 1.42 * e) ^ (4 * n)) := by
  have hrot := Perturbed.fold (fun q hq => rotFwd_perturbed hx (q := q) hq)
  rw [Finset.prod_const, Finset.card_range, ← pow_mul] at hrot
  have h := hrot.comp ((ringFwd_perturbed hn).comp hrot)
  rw [one_mul, ← pow_add, show 2 * n + 2 * n = 4 * n by ring] at h
  exact h

theorem layerInv_perturbed (hn : 2 ≤ n) (hy : VectorNear t e n y) :
    Perturbed (amps n) (layerInvAct n t.toTrig y) (layerInvAct n realTrig.toTrig y)
      ((1 + 1.42 * e) ^ (4 * n)) := by
  have hrot := Perturbed.foldDown (fun q hq => rotInv_perturbed hy (q := q) hq)
  rw [Finset.prod_const, Finset.card_range, ← pow_mul] at hrot
  have h := hrot.comp ((ringInv_perturbed hn).comp hrot)
  rw [one_mul, ← pow_add, show 2 * n + 2 * n = 4 * n by ring] at h
  exact h

/-- The whole circuit has `8 * n * reps` rotations. -/
theorem circuit_perturbed (hn : 2 ≤ n) (hx : VectorNear t e n x) (hy : VectorNear t e n y)
    (reps : Nat) : Perturbed (amps n)
      (fun f => Loop.fold reps (fun _ => layerInvAct n t.toTrig y)
        (Loop.fold reps (fun _ => layerFwdAct n t.toTrig x) f))
      (fun f => Loop.fold reps (fun _ => layerInvAct n realTrig.toTrig y)
        (Loop.fold reps (fun _ => layerFwdAct n realTrig.toTrig x) f))
      ((1 + 1.42 * e) ^ (8 * n * reps)) := by
  have h := ((layerFwd_perturbed hn hx).iterate reps).comp ((layerInv_perturbed hn hy).iterate reps)
  rw [← pow_mul, ← pow_add, show 4 * n * reps + 4 * n * reps = 8 * n * reps by ring] at h
  exact h

/-- The circuit starts in a state of norm one. -/
theorem norm_amps_basisZero (n : Nat) : ‖amps n basisZero‖ = 1 := by
  rw [amps, vec_basisZero]
  exact (PiLp.norm_single 2 (fun _ => ℂ) _ _).trans norm_one

/-- The first amplitude of a circuit. -/
def firstAmp (n : Nat) (t : Trig ℝ) (x y : Nat → ℝ) (reps : Nat) : ℂ :=
  vec n (circuitAct n t x y reps) ⟨0, Nat.two_pow_pos n⟩

/-- The amplitude that the kernel is made of, after `8 * n * reps` rotations. -/
theorem firstAmp_near (hn : 2 ≤ n) (hx : VectorNear t e n x) (hy : VectorNear t e n y)
    (reps : Nat) :
    ‖firstAmp n t.toTrig x y reps - firstAmp n realTrig.toTrig x y reps‖ ≤
      (1 + 1.42 * e) ^ (8 * n * reps) - 1 := by
  have h := (circuit_perturbed hn hx hy reps).near basisZero basisZero
  rw [sub_self, norm_zero, mul_zero, zero_add, norm_amps_basisZero, mul_one] at h
  exact (PiLp.norm_apply_le _ (⟨0, Nat.two_pow_pos n⟩ : Fin (2 ^ n))).trans h

/-- The argument of the clamps is the squared modulus of the first amplitude. -/
theorem fidelity_eq_sq (n : Nat) (t : Trig ℝ) (x y : Nat → ℝ) (reps : Nat) :
    fidelity n t x y reps = ‖firstAmp n t x y reps‖ ^ 2 := by
  rw [← Complex.normSq_eq_norm_sq, Complex.normSq_apply]
  rfl

/-- The true fidelity is a probability. -/
theorem fidelity_mem_unit (hn : 2 ≤ n) (x y : Nat → ℝ) (reps : Nat) :
    0 ≤ fidelity n realTrig.toTrig x y reps ∧ fidelity n realTrig.toTrig x y reps ≤ 1 := by
  rw [← clampUnit_fidelity hn, clampUnit_eq]
  exact ⟨le_min zero_le_one (le_max_left _ _), min_le_left _ _⟩

/-- The clamps do not take a value away from one in the unit interval. -/
theorem abs_clampUnit_sub_le {p u : ℝ} (hp0 : 0 ≤ p) (hp1 : p ≤ 1) :
    |clampUnit u - p| ≤ |u - p| := by
  rw [clampUnit_eq]
  rcases le_total u 0 with hu | hu
  · rw [max_eq_left hu, min_eq_right zero_le_one, abs_of_nonpos (by linarith),
      abs_of_nonpos (by linarith)]
    linarith
  · rw [max_eq_right hu]
    rcases le_total u 1 with hu1 | hu1
    · rw [min_eq_right hu1]
    · rw [min_eq_left hu1, abs_of_nonneg (by linarith), abs_of_nonneg (by linarith)]
      linarith

/-- The clamped fidelity is as close to the true one as the circuits allow. -/
theorem clampUnit_near (hn : 2 ≤ n) (hx : VectorNear t e n x) (hy : VectorNear t e n y)
    (reps : Nat) {d : ℝ} (hd : (1 + 1.42 * e) ^ (8 * n * reps) - 1 ≤ d) :
    |clampUnit (fidelity n t.toTrig x y reps) - fidelity n realTrig.toTrig x y reps| ≤
      d * (2 + d) := by
  obtain ⟨hp0, hp1⟩ := fidelity_mem_unit hn x y reps
  refine (abs_clampUnit_sub_le hp0 hp1).trans ?_
  -- the moduli `r` and `s` of the two amplitudes
  have hnear := (abs_norm_sub_norm_le _ _).trans ((firstAmp_near hn hx hy reps).trans hd)
  rw [fidelity_eq_sq] at hp1
  rw [fidelity_eq_sq, fidelity_eq_sq]
  generalize ‖firstAmp n t.toTrig x y reps‖ = r at hnear
  have hs0 := norm_nonneg (firstAmp n realTrig.toTrig x y reps)
  generalize ‖firstAmp n realTrig.toTrig x y reps‖ = s at hnear hp1 hs0
  have hs1 : s ≤ 1 := (sq_le_one_iff₀ hs0).mp hp1
  have hsum : |r + s| ≤ 2 + d := by
    have hle := abs_add_le (r - s) (2 * s)
    rw [show r - s + 2 * s = r + s by ring, abs_of_nonneg (show 0 ≤ 2 * s by linarith)] at hle
    linarith
  rw [show r ^ 2 - s ^ 2 = (r - s) * (r + s) by ring, abs_mul]
  exact mul_le_mul hnear hsum (abs_nonneg _) ((abs_nonneg _).trans hnear)

end Circuits

/-! ## The exponential -/

/-- `k_exp_unit` stops after the term of degree 16. -/
theorem kExpUnit_le_exp {p : ℝ} (h0 : 0 ≤ p) : kExpUnit p ≤ Real.exp p := by
  rw [kExpUnit_eq]
  refine le_of_eq_of_le (Finset.sum_congr rfl fun k _ => ?_) (Real.sum_le_exp_of_nonneg h0 17)
  ring

/-- Seventeen terms of the series are accurate to `1e-14`. -/
theorem exp_sub_kExpUnit_le {p : ℝ} (h0 : 0 ≤ p) (h1 : p ≤ 1) :
    Real.exp p - kExpUnit p ≤ 1e-14 := by
  have hbound := Real.exp_bound' h0 h1 (n := 17) (by norm_num)
  have hsum : kExpUnit p = ∑ m ∈ Finset.range 17, p ^ m / m.factorial := by
    rw [kExpUnit_eq]
    exact Finset.sum_congr rfl fun k _ => by ring
  have hpow : p ^ 17 ≤ 1 := pow_le_one₀ h0 h1
  rw [hsum]
  have hrest : p ^ 17 * (17 + 1) / ((17 : ℕ).factorial * 17) ≤ 1e-14 := by
    rw [div_le_iff₀ (by norm_num [Nat.factorial])]
    norm_num [Nat.factorial]
    linarith
  push_cast at hbound hrest
  linarith

/-- Its first term is one, and no term is negative. -/
theorem one_le_kExpUnit {p : ℝ} (h0 : 0 ≤ p) : 1 ≤ kExpUnit p := by
  rw [kExpUnit_eq, Finset.sum_range_succ']
  have hnonneg : 0 ≤ ∑ k ∈ Finset.range 16, 1 / ((k + 1).factorial : ℝ) * p ^ (k + 1) :=
    Finset.sum_nonneg fun k _ => by positivity
  simpa using hnonneg

/-- Below one the exponential does not stretch by more than `e`. -/
theorem abs_exp_sub_le {p q : ℝ} (hp : p ≤ 1) (hq : q ≤ 1) :
    |Real.exp p - Real.exp q| ≤ Real.exp 1 * |p - q| := by
  -- below 1 the slope of the exponential is at most `e`
  have hone {p q : ℝ} (hp : p ≤ 1) (hpq : q ≤ p) :
      Real.exp p - Real.exp q ≤ Real.exp 1 * (p - q) := by
    have htangent := Real.add_one_le_exp (q - p)
    calc Real.exp p - Real.exp q = Real.exp p * (1 - Real.exp (q - p)) := by
          rw [mul_sub, ← Real.exp_add]
          ring_nf
      _ ≤ Real.exp p * (p - q) := mul_le_mul_of_nonneg_left (by linarith) (Real.exp_pos p).le
      _ ≤ Real.exp 1 * (p - q) :=
          mul_le_mul_of_nonneg_right (Real.exp_le_exp.mpr hp) (by linarith)
  rcases le_total q p with hqp | hpq
  · have hexp := Real.exp_le_exp.mpr hqp
    rw [abs_of_nonneg (show 0 ≤ Real.exp p - Real.exp q by linarith),
      abs_of_nonneg (show 0 ≤ p - q by linarith)]
    exact hone hp hqp
  · have hexp := Real.exp_le_exp.mpr hpq
    rw [abs_sub_comm, abs_sub_comm p,
      abs_of_nonneg (show 0 ≤ Real.exp q - Real.exp p by linarith),
      abs_of_nonneg (show 0 ≤ q - p by linarith)]
    exact hone hq hpq

/-! ## Kernel values -/

/-- The quantum kernel: the exponential of the squared overlap of the feature states. -/
noncomputable def quantumKernel (n reps : Nat) (x y : Nat → ℝ) : ℝ :=
  Real.exp (Complex.normSq (star (featureState realTrig n reps y) ⬝ᵥ
    featureState realTrig n reps x))

/-- `k_exp_unit` is called in the unit interval only. -/
theorem clampUnit_mem_unit (u : ℝ) : 0 ≤ clampUnit u ∧ clampUnit u ≤ 1 := by
  rw [clampUnit_eq]
  exact ⟨le_min zero_le_one (le_max_left _ _), min_le_left _ _⟩

/-- The error of the circuit, of the clamps and of the exponential. -/
theorem fidelityValue_near {t : ParityTrig} {e : ℝ} {n : Nat} {x y : Nat → ℝ} (hn : 2 ≤ n)
    (hx : VectorNear t e n x) (hy : VectorNear t e n y) (reps : Nat) {d : ℝ}
    (hd : (1 + 1.42 * e) ^ (8 * n * reps) - 1 ≤ d) :
    |fidelityValue n t.toTrig x y reps - quantumKernel n reps x y| ≤
      Real.exp 1 * (d * (2 + d)) + 1e-14 := by
  obtain ⟨hp0, hp1⟩ := fidelity_mem_unit hn x y reps
  obtain ⟨hc0, hc1⟩ := clampUnit_mem_unit (fidelity n t.toTrig x y reps)
  have hclamp := clampUnit_near hn hx hy reps hd
  have hkernel : quantumKernel n reps x y = Real.exp (fidelity n realTrig.toTrig x y reps) := by
    rw [quantumKernel, fidelity_eq hn]
  have hvalue : fidelityValue n t.toTrig x y reps =
      kExpUnit (clampUnit (fidelity n t.toTrig x y reps)) := rfl
  rw [hkernel, hvalue]
  generalize clampUnit (fidelity n t.toTrig x y reps) = c at *
  generalize fidelity n realTrig.toTrig x y reps = p at *
  have hseries : |kExpUnit c - Real.exp c| ≤ 1e-14 := by
    rw [abs_sub_comm, abs_of_nonneg (by linarith [kExpUnit_le_exp hc0])]
    exact exp_sub_kExpUnit_le hc0 hc1
  -- the series of the code first, then the distance of the two fidelities
  calc |kExpUnit c - Real.exp p| ≤ |kExpUnit c - Real.exp c| + |Real.exp c - Real.exp p| :=
        abs_sub_le _ _ _
    _ ≤ 1e-14 + Real.exp 1 * |c - p| := add_le_add hseries (abs_exp_sub_le hc1 hp1)
    _ ≤ Real.exp 1 * (d * (2 + d)) + 1e-14 := by
        rw [add_comm]
        gcongr

/-- The sine and cosine of the TA at half an angle of at most one turn. -/
theorem kTrig_near {a : ℝ} (ha : |a| ≤ 2 * qaiPi) : TrigNear kParity 1e-9 a := by
  have hpos := qaiPi_pos
  have hhalf : |a / 2| ≤ qaiPi := by
    rw [abs_div, abs_two]
    linarith
  constructor
  · have h := kSin_first (abs_nonneg (a / 2)) hhalf
    rw [kSin_sub_abs] at h
    exact h.trans (by norm_num)
  · have h := kCos_first (abs_nonneg (a / 2)) (by linarith)
    rw [kCos_abs, Real.cos_abs] at h
    exact h

/-- The exponential near zero. -/
theorem exp_near_zero {r : ℝ} (h0 : 0 ≤ r) (hr : r ≤ 2e7) :
    Real.exp (1.136e-8 * r) ≤ 1 + 1.48e-8 * r := by
  have hlt : 1.136e-8 * r < 1 := by
    norm_num at hr ⊢
    linarith
  refine (Real.exp_bound_div_one_sub_of_interval (by positivity) hlt).trans ?_
  rw [div_le_iff₀ (by linarith)]
  norm_num at hr ⊢
  nlinarith

/-- What many small factors come to. -/
theorem pow_sub_one_le {z : Nat} (hz : (z : ℝ) ≤ 2e7) :
    ((1 : ℝ) + 1.42 * 1e-9) ^ (8 * z) - 1 ≤ 1.48e-8 * z := by
  have hbase : (1 : ℝ) + 1.42 * 1e-9 ≤ Real.exp (1.42 * 1e-9) := by
    linarith [Real.add_one_le_exp (1.42 * 1e-9)]
  have hexp : ((1 : ℝ) + 1.42 * 1e-9) ^ (8 * z) ≤ Real.exp (1.136e-8 * z) := by
    calc ((1 : ℝ) + 1.42 * 1e-9) ^ (8 * z) ≤ Real.exp (1.42 * 1e-9) ^ (8 * z) :=
          pow_le_pow_left₀ (by norm_num) hbase _
      _ = Real.exp (1.136e-8 * z) := by
          rw [← Real.exp_nat_mul]
          congr 1
          push_cast
          ring
  linarith [exp_near_zero (Nat.cast_nonneg z) hz]

/-- The kernel value of two vectors of angles of at most one turn. -/
theorem fidelityValue_accuracy {n : Nat} (hn : 2 ≤ n) {x y : Nat → ℝ}
    (hx : ∀ i < 2 * n, |x i| ≤ 2 * qaiPi) (hy : ∀ i < 2 * n, |y i| ≤ 2 * qaiPi) (reps : Nat) :
    |fidelityValue n kTrig x y reps - quantumKernel n reps x y| ≤
      1e-7 * (n * reps : ℕ) + 1e-14 := by
  have hz0 : (0 : ℝ) ≤ (n * reps : ℕ) := Nat.cast_nonneg _
  have he := Real.exp_one_lt_d9
  by_cases hz : ((n * reps : ℕ) : ℝ) ≤ 2e7
  · have hpow := pow_sub_one_le hz
    rw [← Nat.mul_assoc] at hpow
    have h := fidelityValue_near (t := kParity) hn (fun i hi => kTrig_near (hx i hi))
      (fun i hi => kTrig_near (hy i hi)) reps hpow
    refine h.trans (add_le_add_left ?_ _)
    generalize ((n * reps : ℕ) : ℝ) = z at *
    have hd : 1.48e-8 * z * (2 + 1.48e-8 * z) ≤ 3.4e-8 * z := by
      norm_num at hz ⊢
      nlinarith
    calc Real.exp 1 * (1.48e-8 * z * (2 + 1.48e-8 * z)) ≤ 2.7182818286 * (3.4e-8 * z) :=
          mul_le_mul he.le hd (by positivity) (by norm_num)
      _ ≤ 1e-7 * z := by
          norm_num
          linarith
  · -- beyond that the values cannot be as far apart as the bound
    obtain ⟨hp0, hp1⟩ := fidelity_mem_unit hn x y reps
    obtain ⟨hc0, hc1⟩ := clampUnit_mem_unit (fidelity n kTrig x y reps)
    have hkernel : quantumKernel n reps x y = Real.exp (fidelity n realTrig.toTrig x y reps) := by
      rw [quantumKernel, fidelity_eq hn]
    have hvalue : fidelityValue n kTrig x y reps =
        kExpUnit (clampUnit (fidelity n kTrig x y reps)) := rfl
    have hupper := (kExpUnit_le_exp hc0).trans (Real.exp_le_exp.mpr hc1)
    have hlower := one_le_kExpUnit hc0
    have hexp := Real.exp_le_exp.mpr hp1
    have hexp0 := Real.one_le_exp hp0
    rw [hkernel, hvalue, abs_le]
    norm_num at hz he ⊢
    constructor
    · linarith
    · linarith

/-! ## The matrix of the client -/

open scoped RealConv

/-- Kernel values as floats. -/
theorem abs_round_kernel_le {v : ℝ} (h1 : 1 ≤ v) (h4 : v < 4) :
    |(Binary32.value (Binary32.round v) : ℝ) - v| ≤ 2.4e-7 := by
  rcases lt_or_ge v 2 with h2 | h2
  · have h := Binary32.abs_round_sub_le (e := 127) (by norm_num) (by norm_num) (x := v)
      (by norm_num; linarith) (by norm_num; linarith)
    exact h.trans (by norm_num)
  · have h := Binary32.abs_round_sub_le (e := 128) (by norm_num) (by norm_num) (x := v)
      (by norm_num; linarith) (by norm_num; linarith)
    exact h.trans (by norm_num)

/-- Kernel values are between `1` and `e`. -/
theorem fidelityValue_mem (n : Nat) (t : Trig ℝ) (x y : Nat → ℝ) (reps : Nat) :
    1 ≤ fidelityValue n t x y reps ∧ fidelityValue n t x y reps < 2.7182818286 := by
  obtain ⟨hc0, hc1⟩ := clampUnit_mem_unit (fidelity n t x y reps)
  refine ⟨one_le_kExpUnit hc0, ?_⟩
  calc fidelityValue n t x y reps ≤ Real.exp (clampUnit (fidelity n t x y reps)) :=
        kExpUnit_le_exp hc0
    _ ≤ Real.exp 1 := Real.exp_le_exp.mpr hc1
    _ < 2.7182818286 := Real.exp_one_lt_d9

/-- Row `q` of the queries, and row `r` of the references. -/
noncomputable def queryRow (job : KernelJob) (q : Nat) : Nat → ℝ :=
  floatRow job.query (4 * (q * (2 * qubits job.mode)))

noncomputable def refRow (job : KernelJob) (r : Nat) : Nat → ℝ :=
  floatRow job.ref (4 * (r * (2 * qubits job.mode)))

/-- All features of a job are angles of at most one turn. -/
structure AnglesInTurn (job : KernelJob) : Prop where
  query : ∀ q < job.nQuery.toNat, ∀ i < 2 * qubits job.mode, |queryRow job q i| ≤ 2 * qaiPi
  ref : ∀ r < job.nRef.toNat, ∀ i < 2 * qubits job.mode, |refRow job r i| ≤ 2 * qaiPi

theorem two_le_qubits (m : KernelMode) : 2 ≤ qubits m := by
  cases m <;> decide

/-- An entry, as the scorer reads it. -/
theorem jobEntry_accuracy {job : KernelJob} (h : AnglesInTurn job) {q r : Nat}
    (hq : q < job.nQuery.toNat) (hr : r < job.nRef.toNat) :
    |FloatConv.ofFloat (jobEntry ℝ job q r) -
      quantumKernel (qubits job.mode) (kernelReps job.mode).toNat (queryRow job q) (refRow job r)| ≤
      1e-7 * (qubits job.mode * (kernelReps job.mode).toNat : ℕ) + 2.5e-7 := by
  have hacc := fidelityValue_accuracy (two_le_qubits job.mode) (h.query q hq) (h.ref r hr)
    (kernelReps job.mode).toNat
  obtain ⟨h1, h4⟩ := fidelityValue_mem (qubits job.mode) kTrig (queryRow job q) (refRow job r)
    (kernelReps job.mode).toNat
  have hround := abs_round_kernel_le h1 (h4.trans (by norm_num))
  have hentry : (FloatConv.ofFloat (jobEntry ℝ job q r) : ℝ) =
      (Binary32.value (Binary32.round (fidelityValue (qubits job.mode) kTrig (queryRow job q)
        (refRow job r) (kernelReps job.mode).toNat)) : ℝ) := rfl
  rw [hentry]
  refine (abs_sub_le _ _ _).trans ((add_le_add hround hacc).trans ?_)
  norm_num
  linarith

/-- Whatever else the instance serves between the calls, every entry of the matrix that
    the client collects is the quantum kernel of its two rows, up to the error of the
    sine and cosine in `8 * n * reps` gates and of one rounding to a float. -/
theorem kernel_accuracy (job : ValidJob) (env : CallEnv ℝ) (client : KernelClient ℝ)
    (h : AnglesInTurn job.toKernelJob) :
    ((kernelLoop job.toKernelJob env).run client).1 = .ok () ∧
    ∀ q < job.nQuery.toNat, ∀ r < job.nRef.toNat,
      |gramOf job.toKernelJob ((kernelLoop job.toKernelJob env).run client).2.out q r -
        quantumKernel (qubits job.mode) (kernelReps job.mode).toNat
          (queryRow job.toKernelJob q) (refRow job.toKernelJob r)| ≤
        1e-7 * (qubits job.mode * (kernelReps job.mode).toNat : ℕ) + 2.5e-7 := by
  obtain ⟨hok, hinv⟩ := kernelLoop_inv job env client
  refine ⟨hok, ?_⟩
  intro q hq r hr
  rw [gramOf, hinv.entry hq hr]
  exact jobEntry_accuracy h hq hr

/-- The features of the two rows are 0 and 1. -/
theorem twoRowJob_angles : AnglesInTurn twoRowJob.toKernelJob := by
  have hword : ∀ k < 32, twoRowBuf.le32 (4 * k) = if k = 16 then 0x3f800000 else 0 := by decide
  have hzero : Binary32.value 0 = 0 := by
    norm_num [Binary32.value, Binary32.expField, Binary32.fracField]
  have hone : Binary32.value 0x3f800000 = 1 := by
    have h := (Binary32.value_ofNat (e := 127) (m := 2 ^ 23) (by decide) (by decide)
      (Nat.le_refl _) (by decide)).2
    exact h.trans (by norm_num)
  have hpi : 1 ≤ 2 * (qaiPi : ℝ) := by
    rw [qaiPi_eq]
    norm_num
  have hrow : ∀ q < 2, ∀ i < 16, |floatRow (D := ℝ) twoRowBuf (4 * (q * 16)) i| ≤ 2 * qaiPi := by
    intro q hq i hi
    rw [floatRow, ← Nat.mul_add, hword _ (by omega)]
    show |((Binary32.value _ : ℚ) : ℝ)| ≤ _
    split
    · rw [hone]
      simpa using hpi
    · rw [hzero]
      simpa using zero_le_one.trans hpi
  exact ⟨hrow, hrow⟩

/-- The entry of two different rows. -/
theorem kernel_accuracy_twoRows :
    |gramOf twoRowJob.toKernelJob
        ((kernelLoop twoRowJob.toKernelJob quietCalls).run newClient).2.out 0 1 -
      quantumKernel 8 1 (queryRow twoRowJob.toKernelJob 0) (refRow twoRowJob.toKernelJob 1)| ≤
      1e-7 * (8 * 1 : ℕ) + 2.5e-7 :=
  (kernel_accuracy twoRowJob.toValidJob quietCalls newClient twoRowJob_angles).2 0
    Nat.zero_lt_two 1 Nat.one_lt_two

/-! ## The matrix of the one-class SVM -/

/-- The kernel with the true sine and cosine. -/
theorem fidelityValue_realTrig_near {n : Nat} (hn : 2 ≤ n) (x y : Nat → ℝ) (reps : Nat) :
    |quantumKernel n reps x y - fidelityValue n realTrig.toTrig x y reps| ≤ 1e-14 := by
  obtain ⟨hp0, hp1⟩ := fidelity_mem_unit hn x y reps
  have hkernel : quantumKernel n reps x y = Real.exp (fidelity n realTrig.toTrig x y reps) := by
    rw [quantumKernel, fidelity_eq hn]
  have hvalue : fidelityValue n realTrig.toTrig x y reps =
      kExpUnit (fidelity n realTrig.toTrig x y reps) := by
    rw [← clampUnit_fidelity hn]
    rfl
  rw [hkernel, hvalue, abs_of_nonneg (by linarith [kExpUnit_le_exp hp0])]
  exact exp_sub_kExpUnit_le hp0 hp1

/-- `math.e` as a float, and the kernel value of a vector with itself. -/
theorem abs_mathE_sub_le : |((mathE : ℚ) : Binary32.Single).val - kExpUnit 1| ≤ 2.5e-7 := by
  have hround := abs_round_kernel_le (v := (mathE : ℝ)) (by norm_num [mathE]) (by norm_num [mathE])
  have hexp : |(mathE : ℝ) - kExpUnit 1| ≤ 1e-14 := by
    rw [mathE, kExpUnit_eq, abs_le]
    norm_num [Finset.sum_range_succ, Nat.factorial]
  rw [Binary32.Single.val_ratCast]
  refine (abs_sub_le _ _ _).trans ((add_le_add hround hexp).trans ?_)
  norm_num

/-- With the same rows as references and as queries. -/
theorem GramJob.refRow_eq (g : GramJob) {r : Nat} (hr : r < g.nRef.toNat) {i : Nat}
    (hi : i < 2 * qubits g.mode) : refRow g.toKernelJob r i = queryRow g.toKernelJob r i := by
  have hend := rowEnd_le (w := 2 * qubits g.mode) hr
  have hword := g.rows (r * (2 * qubits g.mode) + i) (by omega)
  rw [refRow, queryRow, floatRow, floatRow, ← Nat.mul_add, hword]

/-- The output of the client as the array of floats that the scorer reads. -/
def gramFloats (job : KernelJob) (out : Buf) (q r : Nat) : Binary32.Single :=
  ⟨out.le32 (4 * (q * job.nRef.toNat + r))⟩

/-- Off the diagonal the average of two equal kernel values is that value, also in floats. -/
theorem symGram_jobEntry {job : KernelJob} {k : Nat → Nat → Binary32.Single} {i j : Nat}
    (hij : i ≠ j) (hk : k i j = ⟨jobEntry ℝ job i j⟩) (hcomm : k j i = k i j) :
    (symGram k i j).val = FloatConv.ofFloat (jobEntry ℝ job i j) := by
  obtain ⟨h1, h4⟩ := fidelityValue_mem (qubits job.mode) kTrig (queryRow job i) (refRow job j)
    (kernelReps job.mode).toNat
  have hround := abs_le.mp (abs_round_kernel_le h1 (h4.trans (by norm_num)))
  have hval : (k i j).val = (Binary32.value (Binary32.round (fidelityValue (qubits job.mode) kTrig
      (queryRow job i) (refRow job j) (kernelReps job.mode).toNat)) : ℝ) := by
    rw [hk]
    rfl
  have hfinite : Binary32.IsFinite (k i j).bits := by
    rw [hk]
    exact Binary32.isFinite_round _
  -- half of a sum of two equal floats is exact here: the entries are between 1/2 and 4
  have hhalf : (symGram k i j).val = (k i j).val := by
    simp only [symGram, if_neg hij, hcomm]
    refine Binary32.Single.val_half_mul_add_self hfinite ?_ ?_
    · rw [hval]
      norm_num at hround ⊢
      linarith
    · rw [hval]
      norm_num at hround h4 ⊢
      linarith
  rw [hhalf, hk]
  rfl

/-- The floats of the output are the entries of the job. -/
theorem gramFloats_eq (g : GramJob) (env : CallEnv ℝ) (client : KernelClient ℝ) {i j : Nat}
    (hi : i < g.nRef.toNat) (hj : j < g.nRef.toNat) :
    gramFloats g.toKernelJob ((kernelLoop g.toKernelJob env).run client).2.out i j =
      ⟨jobEntry ℝ g.toKernelJob i j⟩ := by
  have hinv := (kernelLoop_inv g.toValidJob env client).2
  have hsquare : g.nQuery.toNat = g.nRef.toNat := by rw [g.square]
  rw [gramFloats, hinv.entry (hi.trans_eq hsquare.symm) hj]

/-- The entries of the matrix that the SVM is fitted on. -/
theorem symGram_near (g : GramJob) (env : CallEnv ℝ) (client : KernelClient ℝ)
    (h : AnglesInTurn g.toKernelJob) {i j : Nat} (hi : i < g.nRef.toNat) (hj : j < g.nRef.toNat) :
    |(symGram (gramFloats g.toKernelJob
          ((kernelLoop g.toKernelJob env).run client).2.out) i j).val -
      fidelityValue (qubits g.mode) realTrig.toTrig (queryRow g.toKernelJob i)
        (queryRow g.toKernelJob j) (kernelReps g.mode).toNat| ≤
      1e-7 * (qubits g.mode * (kernelReps g.mode).toNat : ℕ) + 2.6e-7 := by
  have hn := two_le_qubits g.mode
  have hz : (0 : ℝ) ≤ (qubits g.mode * (kernelReps g.mode).toNat : ℕ) := Nat.cast_nonneg _
  by_cases hij : i = j
  · -- the diagonal is written over
    subst hij
    have hdiag (k : Nat → Nat → Binary32.Single) : symGram k i i = (mathE : ℚ) := if_pos rfl
    rw [fidelityValue_diag hn, hdiag]
    refine abs_mathE_sub_le.trans ?_
    generalize ((qubits g.mode * (kernelReps g.mode).toNat : ℕ) : ℝ) = z at hz
    norm_num
    linarith
  · have hentry := gramFloats_eq g env client hi hj
    have hcomm : gramFloats g.toKernelJob ((kernelLoop g.toKernelJob env).run client).2.out j i =
        gramFloats g.toKernelJob ((kernelLoop g.toKernelJob env).run client).2.out i j := by
      rw [hentry, gramFloats_eq g env client hj hi, g.entry_comm hi hj]
    have hsquare : g.nQuery.toNat = g.nRef.toNat := by rw [g.square]
    have hacc := jobEntry_accuracy h (hi.trans_eq hsquare.symm) hj
    have htrue := fidelityValue_realTrig_near hn (queryRow g.toKernelJob i)
      (refRow g.toKernelJob j) (kernelReps g.mode).toNat
    have hrow : fidelityValue (qubits g.mode) realTrig.toTrig (queryRow g.toKernelJob i)
        (refRow g.toKernelJob j) (kernelReps g.mode).toNat =
        fidelityValue (qubits g.mode) realTrig.toTrig (queryRow g.toKernelJob i)
          (queryRow g.toKernelJob j) (kernelReps g.mode).toNat :=
      fidelityValue_congr _ _ (fun _ _ => rfl) (fun _ hk => g.refRow_eq hj hk)
    rw [symGram_jobEntry hij hentry hcomm, ← hrow]
    refine (abs_sub_le _ _ _).trans ((add_le_add hacc htrue).trans ?_)
    norm_num
    linarith

/-- The matrix that `sym_gram` makes of the output of the client, by its values. -/
noncomputable def svmMatrix (g : GramJob) (env : CallEnv ℝ) (client : KernelClient ℝ) :
    Matrix (Fin g.nRef.toNat) (Fin g.nRef.toNat) ℝ :=
  of fun i j => (symGram (gramFloats g.toKernelJob
    ((kernelLoop g.toKernelJob env).run client).2.out) i j).val

/-- The matrix that the one-class SVM is fitted on is symmetric, and positive semidefinite
    up to the error of its entries. -/
theorem gram_nearly_posSemidef (g : GramJob) (env : CallEnv ℝ) (client : KernelClient ℝ)
    (h : AnglesInTurn g.toKernelJob) :
    (svmMatrix g env client).IsSymm ∧
    ∀ z, -(g.nRef.toNat * (1e-7 * (qubits g.mode * (kernelReps g.mode).toNat : ℕ) + 2.6e-7) *
      (z ⬝ᵥ z)) ≤ z ⬝ᵥ svmMatrix g env client *ᵥ z := by
  constructor
  · ext i j
    by_cases hij : (i : Nat) = j
    · simp [svmMatrix, symGram, hij]
    · simp [svmMatrix, symGram, hij, Ne.symm hij, Binary32.Single.add_swap]
  · intro z
    have hpos := fidelityValue_posSemidef (two_le_qubits g.mode) (kernelReps g.mode).toNat
      (fun i : Fin g.nRef.toNat => queryRow g.toKernelJob i)
    have hle := hpos.le_of_near (M := svmMatrix g env client)
      (fun i j => symGram_near g env client h i.isLt j.isLt) z
    rwa [Fintype.card_fin] at hle

/-- A matrix of two different rows. -/
theorem gram_nearly_posSemidef_twoRows :
    (svmMatrix twoRowJob quietCalls newClient).IsSymm ∧
    ∀ z, -((2 : UInt32).toNat * (1e-7 * (8 * 1 : ℕ) + 2.6e-7) * (z ⬝ᵥ z)) ≤
      z ⬝ᵥ svmMatrix twoRowJob quietCalls newClient *ᵥ z :=
  gram_nearly_posSemidef twoRowJob quietCalls newClient twoRowJob_angles

end OpteeRpi5.Spec
