import Mathlib.Algebra.BigOperators.Field
import Mathlib.Algebra.Order.Archimedean.Real.Basic
import Mathlib.Data.List.GetD
import OpteeRpi5.ForMathlib.RoundedDot
import OpteeRpi5.Spec.InferenceExact
import OpteeRpi5.Spec.TrainerParity

/-!
# How far the HAI decisions can be trusted

Both HAI models decide by the sign of an integer score that stands for a real one. The
pairwise score loses less than one unit in each of its sixteen divisions; the linear
score carries the rounding of the weights, of the bias and of the features. Away from
zero by the sum of these errors the decision is that of the exact score, provided that
no operation overflows. For the linear model none does. The pairwise products do for
large features, and the functions are read here a second time with checked operations to
say for which.

## Key results

- `checkedPairwiseFakeOne_eq_some_iff`: the rows on which no operation overflows
- `pairwiseDecides_iff`: on these rows the decision is right, and on no others
- `tinymlOne_margin`: the margin of the linear model, for the weights before rounding
-/

namespace OpteeRpi5.Spec

open OpteeRpi5.Native SInt

/-! ## The functions with checked operations -/

/-- The end of both functions. -/
def decideScore (acc : Int) : UInt8 :=
  if acc > 0 then 1 else 0

/-- `hai_tinyml_one`, checked. -/
def checkedTinymlOne (x : Nat → Int32) : Option UInt8 := do
  let acc ← check 63 (haiTinymlBias.toInt * haiS.toInt)
  let acc ← SInt.sum 63 qaiHaiFeat (checkedTerm haiTinymlW x) acc
  return decideScore acc

/-- `((int64_t)gamma[i] * prod) / HAI_S`, checked. -/
def checkedQuotient (x : Nat → Int32) (i : Nat) : Option Int := do
  let prod ← check 63 ((x i).toInt * (x ((i + 1) % qaiHaiFeat)).toInt)
  let scaled ← check 63 ((haiPairwiseFakeGamma.getD i 0).toInt * prod)
  check 63 (scaled.tdiv haiS.toInt)

/-- `hai_pairwise_fake_one`, checked. -/
def checkedPairwiseFakeOne (x : Nat → Int32) : Option UInt8 := do
  let acc ← check 63 (haiPairwiseFakeBias.toInt * haiS.toInt)
  let acc ← SInt.sum 63 qaiHaiFeat (checkedTerm haiPairwiseFakeTheta x) acc
  let acc ← SInt.sum 63 qaiHaiFeat (checkedQuotient x) acc
  return decideScore acc

/-! ## The pairwise model -/

/-- Only the product with `gamma` can overflow. -/
private theorem checkedQuotient_eq_some_iff (x : Nat → Int32) (i : Nat) (u : Int) :
    checkedQuotient x i = some u ↔ Fits 63 (pairTerm x i) ∧ u = (pairTerm x i).tdiv 1000 := by
  have hscale : haiS.toInt = 1000 := by decide
  have hquot : Fits 63 (pairTerm x i) → Fits 63 ((pairTerm x i).tdiv 1000) := by
    intro h
    unfold Fits at h ⊢
    rw [Int.tdiv_eq_ediv, show Int.sign 1000 = 1 from rfl]
    split <;> omega
  unfold checkedQuotient
  rw [check_of_fits (fits_mul _ _), hscale]
  simp only [Option.bind_eq_bind, Option.bind_some, Option.bind_eq_some_iff, check_eq_some_iff]
  constructor
  · rintro ⟨p, ⟨hp, rfl⟩, -, hu⟩
    exact ⟨hp, hu⟩
  · rintro ⟨hp, hu⟩
    exact ⟨_, ⟨hp, rfl⟩, hquot hp, hu⟩

/-- No prefix of the second sum overflows if the products do not. -/
private theorem fits_pairSum {x : Nat → Int32} (h : NoOverflow x) {k : Nat} (hk : k ≤ 16) :
    Fits 63 (linearScore x + ∑ i ∈ Finset.range k, (pairTerm x i).tdiv 1000) := by
  have hlin := abs_le.mp (abs_linearScore_le x)
  have hterm : ∀ i < k, |(pairTerm x i).tdiv 1000| ≤ 2 ^ 54 := by
    intro i hi
    have hi := h i (by omega)
    rw [Int.tdiv_eq_ediv, show Int.sign 1000 = 1 from rfl, abs_le]
    split <;> omega
  have hsum := abs_le.mp (abs_sum_range_le hterm)
  have hcount : (k : Int) * 2 ^ 54 ≤ 16 * 2 ^ 54 := by omega
  unfold Fits
  omega

/-- The checked function has a result exactly if no pairwise product overflows. -/
theorem checkedPairwiseFakeOne_eq_some_iff (x : Nat → Int32) (r : UInt8) :
    checkedPairwiseFakeOne x = some r ↔ NoOverflow x ∧ r = decideScore (truncScore x) := by
  have hbias : check 63 (haiPairwiseFakeBias.toInt * haiS.toInt) =
      some (haiPairwiseFakeBias.toInt * 1000) := by decide
  have hlinear : SInt.sum 63 qaiHaiFeat (checkedTerm haiPairwiseFakeTheta x)
      (haiPairwiseFakeBias.toInt * 1000) = some (linearScore x) :=
    sum_dot x (by decide) abs_theta_le (by decide)
  unfold checkedPairwiseFakeOne
  rw [hbias]
  simp only [Option.bind_eq_bind, Option.bind_some, hlinear, Option.bind_eq_some_iff,
    sum_eq_some_iff _ _ (fun i _ u => checkedQuotient_eq_some_iff x i u)]
  constructor
  · rintro ⟨acc, ⟨hall, rfl⟩, hr⟩
    exact ⟨fun i hi => (hall i hi).1, (Option.some.inj hr).symm⟩
  · rintro ⟨h, rfl⟩
    exact ⟨_, ⟨fun i hi => ⟨h i hi, fits_pairSum h hi⟩, rfl⟩, rfl⟩

/-- The exact score of a row. -/
def exactPairwise (x : Nat → Int32) : ℚ :=
  1000 * haiPairwiseFakeBias.toInt +
    (∑ i ∈ Finset.range 16, (haiPairwiseFakeTheta.getD i 0).toInt * (x i).toInt : Int) +
    (∑ i ∈ Finset.range 16, (haiPairwiseFakeGamma.getD i 0).toInt *
      (x i).toInt * (x ((i + 1) % 16)).toInt : Int) / 1000

/-- A division loses less than one unit. -/
private theorem abs_tdiv_sub_lt (a : Int) :
    |((a.tdiv 1000 : Int) : ℚ) - a / 1000| ≤ 999 / 1000 := by
  have hdiv : (1000 * a.tdiv 1000 + a.tmod 1000 : ℤ) = a := Int.mul_tdiv_add_tmod a 1000
  have hlo : -999 ≤ a.tmod 1000 := by
    have := Int.lt_tmod_of_pos a (by decide : (0 : Int) < 1000)
    omega
  have hhi : a.tmod 1000 ≤ 999 := by
    have := Int.tmod_lt_of_pos a (by decide : (0 : Int) < 1000)
    omega
  have hcast : (a : ℚ) = 1000 * (a.tdiv 1000 : ℤ) + (a.tmod 1000 : ℤ) := by
    exact_mod_cast hdiv.symm
  have hlo' : (-999 : ℚ) ≤ (a.tmod 1000 : ℤ) := by exact_mod_cast hlo
  have hhi' : ((a.tmod 1000 : ℤ) : ℚ) ≤ 999 := by exact_mod_cast hhi
  rw [hcast, abs_le]
  constructor
  · linarith
  · linarith

/-- The score of the TA is less than sixteen units away from the exact one. -/
theorem abs_truncScore_sub_lt (x : Nat → Int32) : |(truncScore x : ℚ) - exactPairwise x| < 16 := by
  have hterms : (truncScore x : ℚ) - exactPairwise x =
      ∑ i ∈ Finset.range 16, (((pairTerm x i).tdiv 1000 : Int) - (pairTerm x i : ℚ) / 1000) := by
    have hpair : ∑ i ∈ Finset.range 16, (haiPairwiseFakeGamma.getD i 0).toInt *
        (x i).toInt * (x ((i + 1) % 16)).toInt = ∑ i ∈ Finset.range 16, pairTerm x i := by
      apply Finset.sum_congr rfl
      intro i _
      rw [pairTerm, Int.mul_assoc]
    rw [exactPairwise, hpair, truncScore, linearScore, Finset.sum_sub_distrib, ← Finset.sum_div]
    push_cast
    ring
  rw [hterms]
  calc |∑ i ∈ Finset.range 16, (((pairTerm x i).tdiv 1000 : Int) - (pairTerm x i : ℚ) / 1000)|
      ≤ ∑ i ∈ Finset.range 16, |((pairTerm x i).tdiv 1000 : Int) - (pairTerm x i : ℚ) / 1000| :=
        Finset.abs_sum_le_sum_abs _ _
    _ ≤ (Finset.range 16).card • (999 / 1000 : ℚ) :=
        Finset.sum_le_card_nsmul _ _ _ fun i _ => abs_tdiv_sub_lt _
    _ < 16 := by
        rw [Finset.card_range, nsmul_eq_mul]
        norm_num

/-- The function has a result, and the result is right away from the threshold. -/
structure PairwiseDecides (x : Nat → Int32) : Prop where
  defined : checkedPairwiseFakeOne x = some (haiPairwiseFakeOne x)
  alarm : 16 ≤ exactPairwise x → haiPairwiseFakeOne x = 1
  normal : exactPairwise x ≤ -16 → haiPairwiseFakeOne x = 0

/-- For every row: the function has a result that is right away from the threshold if and
    only if no pairwise product overflows. -/
theorem pairwiseDecides_iff (x : Nat → Int32) : PairwiseDecides x ↔ NoOverflow x := by
  constructor
  · intro h
    exact ((checkedPairwiseFakeOne_eq_some_iff x _).mp h.defined).1
  · intro h
    have hone : haiPairwiseFakeOne x = decideScore (truncScore x) := haiPairwiseFakeOne_eq h
    have hclose := abs_lt.mp (abs_truncScore_sub_lt x)
    refine ⟨(checkedPairwiseFakeOne_eq_some_iff x _).mpr ⟨h, hone⟩, ?_, ?_⟩
    · intro hexact
      have hpos : (0 : ℚ) < truncScore x := by linarith
      rw [hone, decideScore, if_pos (by exact_mod_cast hpos)]
    · intro hexact
      have hneg : (truncScore x : ℚ) < 0 := by linarith
      have hneg : truncScore x < 0 := by exact_mod_cast hneg
      rw [hone, decideScore, if_neg (by omega)]

/-- A row whose largest product is `519 * 2 ^ 54`. -/
def largeRow : Nat → Int32 :=
  fun i => [0, 0, 0, 0, 0, 0, 0, 0, 0, 0, 67108864, 134217728, 0, 0, 0, 0].getD i 0

/-- The product wraps to a negative one: no alarm, with an exact score far above zero. -/
theorem largeRow_misses_alarm :
    16 ≤ exactPairwise largeRow ∧ haiPairwiseFakeOne largeRow = 0 ∧
    checkedPairwiseFakeOne largeRow = none := by
  refine ⟨?_, by decide, by decide⟩
  have hbias : haiPairwiseFakeBias.toInt = 3262 := by decide
  have hlinear : ∑ i ∈ Finset.range 16,
      (haiPairwiseFakeTheta.getD i 0).toInt * (largeRow i).toInt = 226358198272 := by decide
  have hpair : ∑ i ∈ Finset.range 16, (haiPairwiseFakeGamma.getD i 0).toInt *
      (largeRow i).toInt * (largeRow ((i + 1) % 16)).toInt = 519 * 2 ^ 54 := by decide
  rw [exactPairwise, hbias, hlinear, hpair]
  norm_num

/-! ## The linear model -/

/-- The score of the linear model. -/
def tinymlScore (x : Nat → Int32) : Int :=
  haiTinymlBias.toInt * 1000 +
    ∑ i ∈ Finset.range 16, (haiTinymlW.getD i 0).toInt * (x i).toInt

private theorem abs_tinymlW_le : ∀ i < qaiHaiFeat, |(haiTinymlW.getD i 0).toInt| ≤ 1859 := by
  decide

/-- The linear score is far from the limits. -/
private theorem fits_tinymlScore (x : Nat → Int32) : Fits 63 (tinymlScore x) := by
  have hsum := abs_add_dot_le x (haiTinymlBias.toInt * 1000) (by decide) abs_tinymlW_le
    (Nat.le_refl _)
  exact fits_of_abs_lt (lt_of_le_of_lt hsum (by decide))

/-- No operation of the linear model overflows, on any row. -/
theorem checkedTinymlOne_eq (x : Nat → Int32) :
    checkedTinymlOne x = some (decideScore (tinymlScore x)) := by
  have hbias : check 63 (haiTinymlBias.toInt * haiS.toInt) =
      some (haiTinymlBias.toInt * 1000) := by decide
  have hlinear : SInt.sum 63 qaiHaiFeat (checkedTerm haiTinymlW x) (haiTinymlBias.toInt * 1000) =
      some (tinymlScore x) := sum_dot x (by decide) abs_tinymlW_le (by decide)
  unfold checkedTinymlOne
  rw [hbias]
  simp only [Option.bind_eq_bind, Option.bind_some, hlinear]
  rfl

/-- The decision of the TA, over the integers. -/
theorem haiTinymlOne_eq (x : Nat → Int32) : haiTinymlOne x = decideScore (tinymlScore x) := by
  have hbias : haiTinymlBias.toInt64 * haiS = Int64.ofInt (haiTinymlBias.toInt * 1000) := by decide
  obtain ⟨hlo, hhi⟩ := fits_tinymlScore x
  have hfold : Loop.fold qaiHaiFeat
      (fun i acc => acc + (haiTinymlW.getD i 0).toInt64 * (x i).toInt64)
      (Int64.ofInt (haiTinymlBias.toInt * 1000)) = Int64.ofInt (tinymlScore x) :=
    fold_dot haiTinymlW x qaiHaiFeat _
  unfold haiTinymlOne
  simp only [hbias, hfold, gt_iff_lt, Int64.lt_iff_toInt_lt, Int64.toInt_ofInt_of_le hlo hhi,
    Int64.toInt_zero]
  rfl

/-- The trainer's reference decides every row as the TA does. -/
theorem fpTinyml_eq_haiTinymlOne (x : Nat → Int32) :
    fpTinyml x haiTinymlW haiTinymlBias = haiTinymlOne x := by
  have hbias : haiTinymlBias.toInt64 * trainScale =
      Int64.ofInt (haiTinymlBias.toInt * 1000) := by decide
  have hacc : haiTinymlBias.toInt64 * trainScale +
      Loop.fold 16 (fun i dot => dot + (x i).toInt64 * (haiTinymlW.getD i 0).toInt64) 0 =
      Int64.ofInt (tinymlScore x) := by
    rw [trainerDot, hbias, tinymlScore, Int64.ofInt_add]
  obtain ⟨hlo, hhi⟩ := fits_tinymlScore x
  rw [haiTinymlOne_eq]
  unfold fpTinyml
  simp only [hacc, gt_iff_lt, Int64.lt_iff_toInt_lt, Int64.toInt_ofInt_of_le hlo hhi,
    Int64.toInt_zero]
  rfl

/-! ## Rounding -/

/-- `np.rint` rounds to a nearest integer. -/
theorem abs_sub_rint_le (v : ℝ) : |v - rint v| ≤ 1 / 2 := by
  have hlo := Int.floor_le v
  have hhi := Int.lt_floor_add_one v
  have hdown : 2 * (v - ⌊v⌋) ≤ 1 → |v - (⌊v⌋ : ℤ)| ≤ 1 / 2 := by
    intro h
    rw [abs_le]
    constructor
    · linarith
    · linarith
  have hup : 1 ≤ 2 * (v - ⌊v⌋) → |v - (⌊v⌋ + 1 : ℤ)| ≤ 1 / 2 := by
    intro h
    push_cast
    rw [abs_le]
    constructor
    · linarith
    · linarith
  unfold rint
  simp only
  split
  · next h => exact hdown h.le
  · next h =>
    split
    · next h' => exact hup h'.le
    · next h' =>
      -- the fraction is one half, so either neighbour will do
      split
      · exact hdown (not_lt.mp h')
      · exact hup (not_lt.mp h)

/-- A number less than one half away from an integer. -/
theorem rint_eq_of_abs_lt {v : ℝ} {n : Int} (h : |v - n| < 1 / 2) : rint v = n := by
  have hround := abs_le.mp (abs_sub_rint_le v)
  have hnear := abs_lt.mp h
  have hlt : ((rint v : ℤ) : ℝ) < (n + 1 : ℤ) := by
    push_cast
    linarith
  have hgt : ((n : ℤ) : ℝ) < (rint v + 1 : ℤ) := by
    push_cast
    linarith
  have hlt' : rint v < n + 1 := by exact_mod_cast hlt
  have hgt' : n < rint v + 1 := by exact_mod_cast hgt
  omega

private theorem roundedTo_of_rint {v : ℝ} {V : Int} (h : rint (v * 1000) = V) :
    RoundedTo 1000 v V := by
  rw [RoundedTo, ← h, mul_comm]
  exact abs_sub_rint_le _

/-- Weights and a bias that `quantize` takes to the parameters of `model_hai.h` are within
    half a milli-unit of them. -/
theorem roundedTo_of_quantize {w : List ℝ} {b : ℝ} (hfits : ∀ v ∈ w, Fits 31 (rint (v * 1000)))
    (h : quantize w b = (haiTinymlW, haiTinymlBias.toInt)) :
    (∀ i < 16, RoundedTo 1000 (w.getD i 0) (haiTinymlW.getD i 0).toInt) ∧
      RoundedTo 1000 b haiTinymlBias.toInt := by
  obtain ⟨hw, hb⟩ := Prod.mk.inj h
  refine ⟨?_, roundedTo_of_rint hb⟩
  intro i hi
  have hlen : i < w.length := by
    have hlen := congrArg List.length hw
    rw [List.length_map, show haiTinymlW.length = 16 from rfl] at hlen
    omega
  rw [← hw, List.getD_eq_getElem _ _ hlen, List.getD_eq_getElem _ _ (by rwa [List.length_map]),
    List.getElem_map, toInt_int32 (hfits _ (List.getElem_mem hlen))]
  exact roundedTo_of_rint rfl

/-- The margin `d`. -/
noncomputable def tinymlMargin (w x : Nat → ℝ) : ℝ :=
  0.0005 * (1 + ∑ i ∈ Finset.range 16, |x i| + ∑ i ∈ Finset.range 16, |w i|) + 16 * 0.25e-6

/-- The real score `w · x + b`. -/
noncomputable def realScore (w x : Nat → ℝ) (b : ℝ) : ℝ :=
  ∑ i ∈ Finset.range 16, w i * x i + b

/-- In micro-units, the integer score is at most the margin away from the real one. -/
theorem abs_tinymlScore_sub_le {w x : Nat → ℝ} {b : ℝ} {X : Nat → Int32}
    (hw : ∀ i < 16, RoundedTo 1000 (w i) (haiTinymlW.getD i 0).toInt)
    (hb : RoundedTo 1000 b haiTinymlBias.toInt)
    (hx : ∀ i < 16, RoundedTo 1000 (x i) (X i).toInt) :
    |(tinymlScore X : ℝ) - 10 ^ 6 * realScore w x b| ≤ 10 ^ 6 * tinymlMargin w x := by
  have hdot := abs_le.mp (RoundedTo.abs_dot_sub_le (by norm_num : (0 : ℝ) ≤ 1000) hw hx)
  have hbias := abs_le.mp hb
  unfold tinymlScore realScore tinymlMargin
  rw [Int.cast_add, Int.cast_mul, abs_le]
  generalize ((∑ i ∈ Finset.range 16, (haiTinymlW.getD i 0).toInt * (X i).toInt : Int) : ℝ) = S
    at hdot ⊢
  norm_num at hdot ⊢
  constructor
  · linarith
  · linarith

/-- For all weights and a bias that are rounded to the parameters of `model_hai.h`, and all
    rows whose rounded features fit `int32_t`: the decision is that of the real score beyond
    the margin, and no operation overflows. -/
theorem tinymlOne_margin (w x : Nat → ℝ) (b : ℝ) (X : Nat → Int32)
    (hw : ∀ i < 16, |1000 * w i - (haiTinymlW.getD i 0).toInt| ≤ 1 / 2)
    (hb : |1000 * b - haiTinymlBias.toInt| ≤ 1 / 2)
    (hX : ∀ i < 16, (X i).toInt = rint (1000 * x i)) :
    (tinymlMargin w x < realScore w x b → haiTinymlOne X = 1) ∧
    (realScore w x b < -tinymlMargin w x → haiTinymlOne X = 0) ∧
    checkedTinymlOne X = some (haiTinymlOne X) := by
  have hx : ∀ i < 16, RoundedTo 1000 (x i) (X i).toInt := by
    intro i hi
    rw [hX i hi]
    exact abs_sub_rint_le _
  -- beyond the margin the integer score has the sign of the real one
  have hclose := abs_le.mp (abs_tinymlScore_sub_le hw hb hx)
  rw [haiTinymlOne_eq]
  refine ⟨?_, ?_, checkedTinymlOne_eq X⟩
  · intro habove
    have hpos : (0 : ℝ) < tinymlScore X := by linarith
    rw [decideScore, if_pos (by exact_mod_cast hpos)]
  · intro hbelow
    have hneg : (tinymlScore X : ℝ) < 0 := by linarith
    have hneg : tinymlScore X < 0 := by exact_mod_cast hneg
    rw [decideScore, if_neg (by omega)]

/-- Weights that are not multiples of a milli-unit. -/
noncomputable def floatWeights : List ℝ :=
  haiTinymlW.map fun v => 0.001 * (v.toInt : ℝ) + 0.0003

/-- A row with two features that are rounded, one of them down. -/
noncomputable def sampleRow (i : Nat) : ℝ :=
  if i = 0 then 0.1234 else if i = 1 then -0.0567 else 0

/-- The row in milli-units. -/
def sampleMilli (i : Nat) : Int32 :=
  if i = 0 then 123 else if i = 1 then -57 else 0

/-- The weights are rounded to the deployed ones. -/
theorem rint_floatWeight (v : Int32) :
    rint ((0.001 * (v.toInt : ℝ) + 0.0003) * 1000) = v.toInt := by
  refine rint_eq_of_abs_lt ?_
  have hdiff : (0.001 * (v.toInt : ℝ) + 0.0003) * 1000 - v.toInt = 0.3 := by
    norm_num
    ring
  rw [hdiff]
  norm_num [abs_of_pos]

/-- `quantize` emits the deployed parameters for them. -/
theorem quantize_floatWeights :
    quantize floatWeights 2.3342 = (haiTinymlW, haiTinymlBias.toInt) := by
  have hbias : haiTinymlBias.toInt = 2334 := by decide
  have hb : rint ((2.3342 : ℝ) * 1000) = 2334 := by
    refine rint_eq_of_abs_lt ?_
    norm_num [abs_of_pos]
  rw [quantize, hb, hbias, floatWeights, List.map_map]
  refine congrArg (·, _) ?_
  conv_rhs => rw [← List.map_id haiTinymlW]
  apply List.map_congr_left
  intro v _
  show Int32.ofInt (rint ((0.001 * (v.toInt : ℝ) + 0.0003) * 1000)) = v
  rw [rint_floatWeight, Int32.ofInt_toInt]

/-- The score of the row is far above the margin, for all weights with this rounding. -/
theorem sampleRow_above_margin {w : Nat → ℝ}
    (hw : ∀ i < 16, RoundedTo 1000 (w i) (haiTinymlW.getD i 0).toInt) :
    tinymlMargin w sampleRow < realScore w sampleRow 2.3342 := by
  have habs : ∀ i ∈ Finset.range 16,
      |w i| ≤ |((haiTinymlW.getD i 0).toInt : ℝ)| / 1000 + 0.0005 := by
    intro i hi
    have h := abs_le.mp (hw i (Finset.mem_range.mp hi))
    generalize ((haiTinymlW.getD i 0).toInt : ℝ) = v at h ⊢
    have hlo := neg_abs_le v
    have hhi := le_abs_self v
    norm_num at h ⊢
    rw [abs_le]
    constructor <;> linarith
  have hweights : ∑ i ∈ Finset.range 16, |w i| ≤ 8.401 := by
    have hsize : ∑ i ∈ Finset.range 16, |(haiTinymlW.getD i 0).toInt| = 8393 := by decide
    have hcast : ∑ i ∈ Finset.range 16, |((haiTinymlW.getD i 0).toInt : ℝ)| = 8393 := by
      exact_mod_cast hsize
    refine (Finset.sum_le_sum habs).trans ?_
    rw [Finset.sum_add_distrib, ← Finset.sum_div, hcast]
    norm_num
  have hrow : ∑ i ∈ Finset.range 16, |sampleRow i| = 0.1801 := by
    norm_num [Finset.sum_range_succ, sampleRow, abs_of_pos]
  have hdot : ∑ i ∈ Finset.range 16, w i * sampleRow i = w 0 * 0.1234 - w 1 * 0.0567 := by
    norm_num [Finset.sum_range_succ, sampleRow]
    ring
  -- only the first two features of the row are not zero
  have hzero := abs_le.mp (hw 0 (by decide))
  have hone := abs_le.mp (hw 1 (by decide))
  rw [show (haiTinymlW.getD 0 0).toInt = 1859 by decide] at hzero
  rw [show (haiTinymlW.getD 1 0).toInt = 1667 by decide] at hone
  rw [tinymlMargin, realScore, hrow, hdot]
  norm_num at hzero hone hweights ⊢
  linarith

/-- Both the TA and the trainer's reference raise an alarm on the sample row. -/
theorem tinymlOne_margin_sample :
    haiTinymlOne sampleMilli = 1 ∧ fpTinyml sampleMilli haiTinymlW haiTinymlBias = 1 := by
  have hfits : ∀ v ∈ floatWeights, Fits 31 (rint (v * 1000)) := by
    simp only [floatWeights, List.forall_mem_map, rint_floatWeight]
    intro v _
    exact ⟨v.le_toInt, v.toInt_lt⟩
  obtain ⟨hw, hb⟩ := roundedTo_of_quantize hfits quantize_floatWeights
  have hX : ∀ i < 16, (sampleMilli i).toInt = rint (1000 * sampleRow i) := by
    intro i _
    refine (rint_eq_of_abs_lt ?_).symm
    have hone : (123 : Int32).toInt = 123 := by decide
    have htwo : (-57 : Int32).toInt = -57 := by decide
    unfold sampleMilli sampleRow
    split
    · rw [hone]
      norm_num [abs_lt]
    · split
      · rw [htwo]
        norm_num [abs_lt]
      · rw [Int32.toInt_zero]
        norm_num
  rw [fpTinyml_eq_haiTinymlOne, and_self]
  exact (tinymlOne_margin (floatWeights.getD · 0) sampleRow 2.3342 sampleMilli hw hb hX).1
    (sampleRow_above_margin hw)

end OpteeRpi5.Spec
