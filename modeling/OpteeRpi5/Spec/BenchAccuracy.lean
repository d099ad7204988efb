import OpteeRpi5.Spec.BenchHistory
import OpteeRpi5.Spec.KernelAccuracy

/-!
# The self-check of the bench

The bench reports the kernel value of a vector with itself in millionths, and the host
prints it next to the one it expects, `trunc(e * 1e6) = 2718281`. Over exact real
arithmetic it is always that one, whatever state the generator is in: the angles stay in
the first quadrant when they are halved, where `k_sin` and `k_cos` miss the unit circle by
less than `1e-9`, and 192 such factors do not reach the last digit.

## Key results

- `benchValue_self_mem`: the kernel value of a vector of the bench with itself
- `bench_selfCheck`: the reply to every accepted request for the bench
-/

namespace OpteeRpi5.Spec

open OpteeRpi5.Native TrigTaylor
open scoped Numerals RealConv

/-! ## Angles -/

/-- The generator makes angles of at most half a turn. -/
theorem abs_angle_le (r : UInt32) : |(angle r : ℝ)| ≤ qaiPi := by
  have hpos := qaiPi_pos
  -- the angle is made of the upper 24 bits
  have hlt : (r >>> 8).toNat < 2 ^ 24 := by
    rw [UInt32.toNat_shiftRight]
    have hr := r.toNat_lt
    simp only [UInt32.reduceToNat, Nat.reduceMod, Nat.shiftRight_eq_div_pow]
    omega
  have hk0 : (0 : ℝ) ≤ (r >>> 8).toNat := Nat.cast_nonneg _
  have hk1 : ((r >>> 8).toNat : ℝ) ≤ 16777216 := by exact_mod_cast hlt.le
  have hangle : (angle r : ℝ) =
      ((r >>> 8).toNat : ℝ) * (1 / 16777216) * (2 * qaiPi) - qaiPi := by
    simp only [angle, lit_real]
    push_cast
    ring
  rw [hangle, abs_le]
  constructor
  · nlinarith
  · nlinarith

/-! ## The unit circle -/

/-- Sine and cosine have a parity, so the sign of the angle does not matter. -/
theorem kNormSq_abs (a : ℝ) : kNormSq (|a|) = kNormSq a := by
  rcases abs_cases a with ⟨habs, -⟩ | ⟨habs, -⟩
  · rw [habs]
  · rw [habs, kNormSq, kNormSq, kSin_neg, kCos_neg, neg_sq]

/-- In the first quadrant the polynomials stay close to the unit circle. -/
theorem kNormSq_ge {a : ℝ} (ha : |a| ≤ qaiPi / 2) : 1 - 7.2e-10 ≤ kNormSq a := by
  rw [← kNormSq_abs]
  have h0 := abs_nonneg a
  generalize |a| = y at ha h0
  have hpos := qaiPi_pos
  have hy : y ≤ 1.6 := by
    rw [qaiPi_eq] at ha
    norm_num at ha ⊢
    linarith
  have hhyp : |y| / (2 * 8 + 1 : ℕ) ≤ 1 / 2 := by
    rw [abs_of_nonneg h0]
    norm_num at hy ⊢
    linarith
  -- both series are cut after eight terms
  have hrest : |y| ^ (2 * 8) / (2 * 8).factorial * 2 ≤ 1.8e-10 := by
    rw [abs_of_nonneg h0]
    have hpow : y ^ (2 * 8) ≤ 1.6 ^ 16 := pow_le_pow_left₀ h0 hy 16
    calc y ^ (2 * 8) / (2 * 8).factorial * 2 ≤ 1.6 ^ 16 / (2 * 8).factorial * 2 := by gcongr
      _ ≤ 1.8e-10 := by norm_num [Nat.factorial]
  have hsin := abs_le.mp ((abs_sin_sub_le hhyp).trans hrest)
  have hcos := abs_le.mp ((abs_cos_sub_le hhyp).trans hrest)
  have hkSin : kSin y = sinPoly 8 y := by
    rw [kSin_of_nonneg h0, if_neg (by linarith), foldHalf, if_neg (by linarith)]
  rw [kNormSq, hkSin, kCos_of_le h0 ha]
  have hone := Real.sin_sq_add_cos_sq y
  have hs1 := abs_le.mp (Real.abs_sin_le_one y)
  have hc1 := abs_le.mp (Real.abs_cos_le_one y)
  -- from here it is about two points of the plane that are close
  generalize Real.sin y = s at *
  generalize Real.cos y = c at *
  generalize sinPoly 8 y = s' at *
  generalize cosPoly 8 y = c' at *
  nlinarith [sq_nonneg (s - s'), sq_nonneg (c - c')]

/-! ## The kernel value of a vector with itself -/

/-- The amplitude that is left of the first basis vector. -/
theorem circuitNorm_ge {x : Nat → ℝ} (hx : ∀ i < 16, |x i| ≤ qaiPi) :
    1 - 7e-8 ≤ circuitNorm kParity 8 x 3 := by
  have hfactor : ∀ i < 16, (1 - 7.2e-10 : ℝ) ≤ kParity.normSq (x i / 2) := by
    intro i hi
    apply kNormSq_ge
    rw [abs_div, abs_two]
    linarith [hx i hi]
  have hrot : ∀ q ∈ Finset.range 8,
      ((1 - 7.2e-10) ^ 12 : ℝ) ≤ rotNorm kParity x q ^ (2 * 3) := by
    intro q hq
    have hq8 := Finset.mem_range.mp hq
    have hmul : ((1 - 7.2e-10) * (1 - 7.2e-10) : ℝ) ≤ rotNorm kParity x q :=
      mul_le_mul (hfactor (2 * q) (by omega)) (hfactor (2 * q + 1) (by omega)) (by norm_num)
        ((by norm_num : (0 : ℝ) ≤ 1 - 7.2e-10).trans (hfactor (2 * q) (by omega)))
    calc ((1 - 7.2e-10) ^ 12 : ℝ) = ((1 - 7.2e-10) * (1 - 7.2e-10)) ^ (2 * 3) := by ring
      _ ≤ rotNorm kParity x q ^ (2 * 3) := pow_le_pow_left₀ (by norm_num) hmul _
  -- 96 rotations: two for each of 8 qubits, in 3 layers and their inverses
  calc (1 - 7e-8 : ℝ) ≤ 1 + (96 : ℕ) * (-7.2e-10) := by norm_num
    _ ≤ (1 + -7.2e-10) ^ 96 := one_add_mul_le_pow (by norm_num) 96
    _ = ∏ _q ∈ Finset.range 8, ((1 - 7.2e-10) ^ 12 : ℝ) := by
        rw [Finset.prod_const, Finset.card_range, ← pow_mul, ← sub_eq_add_neg]
    _ ≤ ∏ q ∈ Finset.range 8, rotNorm kParity x q ^ (2 * 3) :=
        Finset.prod_le_prod (fun _ _ => by norm_num) hrot

/-- In millionths the value is that of `e`. -/
theorem benchValue_self_mem (r : UInt32) :
    2.718281 ≤ (benchValue r r : ℝ) ∧ (benchValue r r : ℝ) < 2.718282 := by
  have hnorm := circuitNorm_ge (x := angles r) (fun i _ => abs_angle_le _)
  have hvalue : (benchValue r r : ℝ) =
      kExpUnit (min 1 (max 0 (circuitNorm kParity 8 (angles r) 3 ^ 2))) :=
    fidelityValue_self kParity (by norm_num) (angles r) 3
  generalize circuitNorm kParity 8 (angles r) 3 = p at hnorm hvalue
  have hsq : 1 - 1.4e-7 ≤ p ^ 2 := by nlinarith
  obtain ⟨c, hc⟩ : ∃ c, c = min 1 (max 0 (p ^ 2)) := ⟨_, rfl⟩
  have hc1 : c ≤ 1 := hc ▸ min_le_left _ _
  have hclow : 1 - 1.4e-7 ≤ c := hc ▸ le_min (by norm_num) (hsq.trans (le_max_right _ _))
  have hc0 : 0 ≤ c := le_trans (by norm_num) hclow
  rw [hvalue, ← hc]
  have hseries := exp_sub_kExpUnit_le hc0 hc1
  have hexp1 := Real.exp_one_gt_d9
  constructor
  · -- `exp c` is at least `e * c`
    have htangent : Real.exp 1 * c ≤ Real.exp c := by
      have h := Real.add_one_le_exp (c - 1)
      calc Real.exp 1 * c ≤ Real.exp 1 * Real.exp (c - 1) := by
            gcongr
            linarith
        _ = Real.exp c := by
            rw [← Real.exp_add]
            ring_nf
    norm_num at hseries hexp1 hclow ⊢
    nlinarith
  · calc kExpUnit c ≤ Real.exp c := kExpUnit_le_exp hc0
      _ ≤ Real.exp 1 := Real.exp_le_exp.mpr hc1
      _ < 2.7182818286 := Real.exp_one_lt_d9
      _ < 2.718282 := by norm_num

/-- The sum of the kernel values. -/
theorem benchSum_mem (r : UInt32) (k : Nat) :
    (k : ℝ) ≤ benchSum r k ∧ (benchSum r k : ℝ) ≤ 2.718282 * k := by
  have h := Loop.fold_inv (fun i (acc : ℝ) => (i : ℝ) ≤ acc ∧ acc ≤ 2.718282 * i) (n := k)
    (f := fun i acc =>
      acc + benchValue (afterVectors (2 * i + 1) r) (afterVectors (2 * i + 2) r))
    (a := lit 0) (by simp) (by
      -- each evaluation adds a number between one and `e`
      intro i acc _ hacc
      obtain ⟨hlow, hhigh⟩ := fidelityValue_mem 8 kTrig (angles (afterVectors (2 * i + 1) r))
        (angles (afterVectors (2 * i + 2) r)) qaiReps.toNat
      have hvalue : benchValue (afterVectors (2 * i + 1) r) (afterVectors (2 * i + 2) r) =
          fidelityValue (D := ℝ) 8 kTrig (angles (afterVectors (2 * i + 1) r))
            (angles (afterVectors (2 * i + 2) r)) qaiReps.toNat := rfl
      rw [hvalue]
      push_cast
      norm_num at hhigh ⊢
      constructor
      · linarith
      · linarith)
  exact h

/-! ## Conversions -/

/-- The conversion of a number that is not negative. -/
theorem toInt64_of_nonneg {x : ℝ} (hx : 0 ≤ x) :
    FloatConv.toInt64 x = Int64.ofInt ⌊x⌋ := by
  simp only [FloatConv.toInt64, max_eq_left hx, min_eq_right hx, Int.ceil_zero, add_zero]

theorem lit_million : (lit 1000000 : ℝ) = 1000000 := by
  rw [lit_real]
  norm_num

/-- `self_exp_micro`. -/
theorem selfExpMicro_eq (r elapsed evals : UInt32) :
    (benchResult ℝ r elapsed evals).selfExpMicro = 2718281 := by
  obtain ⟨hlow, hhigh⟩ := benchValue_self_mem r
  have hfloor : ⌊(benchValue r r : ℝ) * 1000000⌋ = 2718281 := by
    rw [Int.floor_eq_iff]
    norm_num at hlow hhigh ⊢
    constructor
    · linarith
    · linarith
  have hnonneg : (0 : ℝ) ≤ benchValue r r * 1000000 := by
    norm_num at hlow ⊢
    linarith
  simp only [benchResult, lit_million]
  rw [toInt64_of_nonneg hnonneg, hfloor]
  rfl

/-- `batch_sum_micro`. -/
theorem batchSumMicro_mem (r elapsed : UInt32) {evals : UInt32} (h : evals ≤ 20000) :
    1000000 * (evals.toNat : Int) ≤ (benchResult ℝ r elapsed evals).batchSumMicro.toInt ∧
    (benchResult ℝ r elapsed evals).batchSumMicro.toInt ≤ 2718282 * (evals.toNat : Int) := by
  obtain ⟨hlow, hhigh⟩ := benchSum_mem r evals.toNat
  have hle : evals.toNat ≤ 20000 := h
  have hk : (0 : ℝ) ≤ evals.toNat := Nat.cast_nonneg _
  have hnonneg : (0 : ℝ) ≤ benchSum r evals.toNat * 1000000 := by linarith
  have hfloor1 : 1000000 * (evals.toNat : Int) ≤ ⌊(benchSum r evals.toNat : ℝ) * 1000000⌋ := by
    rw [Int.le_floor]
    push_cast
    linarith
  have hfloor2 : ⌊(benchSum r evals.toNat : ℝ) * 1000000⌋ ≤ 2718282 * (evals.toNat : Int) := by
    rw [← Int.cast_le (R := ℝ)]
    refine (Int.floor_le _).trans ?_
    push_cast
    norm_num at hhigh ⊢
    linarith
  simp only [benchResult, lit_million]
  -- 20000 evaluations are far from the limits of `int64_t`
  rw [toInt64_of_nonneg hnonneg, Int64.toInt_ofInt_of_le (by omega) (by omega)]
  exact ⟨hfloor1, hfloor2⟩

/-! ## The reply -/

/-- An accepted request for the bench is answered with the words of its result. -/
theorem invoke_bench (st : Statics ℝ) (stk : Stack ℝ) {req : Request} (h : BenchAccepted req) :
    (invoke st stk req).1 = .success ∧
    ∀ k < 6, ((invoke st stk req).2.params 1).memref.buffer.le32 (4 * k) =
      (benchResult ℝ st.rngState (deltaMs stk.t0 stk.t1) (req.params 0).a).toBuf.le32 (4 * k) := by
  obtain ⟨hcmd, htypes, hsize, hevals⟩ := h
  have hanswer : answer ℝ req st.rngState (deltaMs stk.t0 stk.t1) =
      .reply 1 (benchResult ℝ st.rngState (deltaMs stk.t0 stk.t1) (req.params 0).a).toBuf
        sizeofQaiFidelityBench := by
    have hbench : answer ℝ req st.rngState (deltaMs stk.t0 stk.t1) =
        benchAnswer ℝ req.paramTypes req.params st.rngState (deltaMs stk.t0 stk.t1) := by
      rw [answer, hcmd]
      rfl
    rw [hbench, benchAnswer, if_neg (not_not.mpr htypes), if_neg (Nat.not_lt.mpr hsize),
      if_neg (UInt32.not_lt.mpr hevals)]
  obtain ⟨hok, hbytes⟩ := invoke_reply hanswer
  refine ⟨hok, fun k hk => Buf.le32_congr fun j hj => ?_⟩
  apply hbytes
  simp only [sizeofQaiFidelityBench]
  omega

/-- The reply to every accepted request for the bench, in every state of the instance: the
    number of evaluations, `2718281` for the self-fidelity, and a sum between one and `e`
    for each evaluation. -/
theorem bench_selfCheck (st : Statics ℝ) (stk : Stack ℝ) (req : {req // BenchAccepted req}) :
    let out := ((invoke st stk req.1).2.params 1).memref.buffer
    let evals := (req.1.params 0).a
    (invoke st stk req.1).1 = .success ∧ out.le32 0 = evals ∧
    out.le32 8 = 2718281 ∧ out.le32 12 = 0 ∧
    ∃ sum : Int64, [out.le32 16, out.le32 20] = wordsOfInt64 sum ∧
      1000000 * (evals.toNat : Int) ≤ sum.toInt ∧ sum.toInt ≤ 2718282 * (evals.toNat : Int) := by
  intro out evals
  obtain ⟨hok, hwords⟩ := invoke_bench st stk req.2
  have hsum := batchSumMicro_mem st.rngState (deltaMs stk.t0 stk.t1) req.2.2.2.2
  simp only [QaiFidelityBench.toBuf, Buf.le32_ofWords, selfExpMicro_eq] at hwords
  refine ⟨hok, hwords 0 (by omega), hwords 2 (by omega), hwords 3 (by omega), _, ?_, hsum⟩
  exact congrArg₂ (fun a b => [a, b]) (hwords 4 (by omega)) (hwords 5 (by omega))

end OpteeRpi5.Spec
