import Mathlib.Algebra.Order.BigOperators.Ring.Finset
import Mathlib.Algebra.Order.Ring.Abs
import Mathlib.Algebra.Order.Ring.Int
import OpteeRpi5.ForStd.SInt
import OpteeRpi5.Native.HaiTrain

/-!
# The pairwise HAI model and the trainer's reference

The trainer reports the accuracy of `fp_qai`, the TA runs `hai_pairwise_fake_one`. Both
add sixteen signed products divided by 1000, the trainer with a division that rounds
toward minus infinity, the TA with one that rounds toward zero. On rows without
overflow the two scores differ by the number of negative products that 1000 does not
divide, and the decisions differ when zero lies in between.

## Key results

- `haiPairwiseFakeOne_eq`: the decision of the TA, over the integers
- `fpQai_eq`: the decision of the trainer, over the integers
- `haiPairwiseFakeOne_eq_fpQai_iff`: on which rows the two agree
- `haiPairwiseFakeOne_ne_fpQai`: a row on which they do not
-/

namespace OpteeRpi5.Spec

open OpteeRpi5.Native SInt

/-! ## Scores over the integers -/

/-- The product that iteration `i` of the pairwise loop divides. -/
def pairTerm (x : Nat → Int32) (i : Nat) : Int :=
  (haiPairwiseFakeGamma.getD i 0).toInt * ((x i).toInt * (x ((i + 1) % 16)).toInt)

/-- No pairwise product overflows. The other intermediate values of both programs never
    do. -/
def NoOverflow (x : Nat → Int32) : Prop :=
  ∀ i < 16, -2 ^ 63 ≤ pairTerm x i ∧ pairTerm x i < 2 ^ 63

/-- Bias and linear terms. -/
def linearScore (x : Nat → Int32) : Int :=
  haiPairwiseFakeBias.toInt * 1000 +
    ∑ i ∈ Finset.range 16, (haiPairwiseFakeTheta.getD i 0).toInt * (x i).toInt

/-- The score of the trainer. -/
def floorScore (x : Nat → Int32) : Int :=
  linearScore x + ∑ i ∈ Finset.range 16, (pairTerm x i).fdiv 1000

/-- The score of the TA. -/
def truncScore (x : Nat → Int32) : Int :=
  linearScore x + ∑ i ∈ Finset.range 16, (pairTerm x i).tdiv 1000

/-- The negative products that 1000 does not divide. -/
def roundedUp (x : Nat → Int32) : Finset Nat :=
  (Finset.range 16).filter (fun i => pairTerm x i < 0 ∧ ¬ 1000 ∣ pairTerm x i)

/-- Truncation rounds a negative quotient up. -/
private theorem tdiv_eq_fdiv_add (a : Int) :
    a.tdiv 1000 = a.fdiv 1000 + if a < 0 ∧ ¬ 1000 ∣ a then 1 else 0 := by
  rw [Int.fdiv_eq_ediv_of_nonneg a (by decide), Int.tdiv_eq_ediv]
  by_cases hneg : a < 0
  · by_cases hdvd : (1000 : Int) ∣ a
    · rw [if_pos (Or.inr hdvd), if_neg (fun h => h.2 hdvd)]
    · rw [if_neg (by rintro (h | h); exacts [absurd h (by omega), hdvd h]), if_pos ⟨hneg, hdvd⟩]
      rfl
  · rw [if_pos (Or.inl (by omega)), if_neg (fun h => hneg h.1)]

/-- The two scores differ by the number of quotients that truncation rounds up. -/
theorem truncScore_eq (x : Nat → Int32) :
    truncScore x = floorScore x + (roundedUp x).card := by
  have hsum : ∑ i ∈ Finset.range 16, (pairTerm x i).tdiv 1000 =
      ∑ i ∈ Finset.range 16, (pairTerm x i).fdiv 1000 + (roundedUp x).card := by
    rw [roundedUp, Finset.card_filter, Nat.cast_sum, ← Finset.sum_add_distrib]
    apply Finset.sum_congr rfl
    intro i _
    rw [tdiv_eq_fdiv_add]
    split
    · rfl
    · rfl
  rw [truncScore, floorScore, hsum, Int.add_assoc]

/-! ## The programs compute the scores -/

theorem abs_theta_le : ∀ i < qaiHaiFeat, |(haiPairwiseFakeTheta.getD i 0).toInt| ≤ 2141 := by
  decide

/-- The linear part is far from the limits of `int64_t`. -/
theorem abs_linearScore_le (x : Nat → Int32) : |linearScore x| ≤ 2 ^ 50 := by
  have hsum := abs_add_dot_le x (haiPairwiseFakeBias.toInt * 1000) (by decide) abs_theta_le
    (Nat.le_refl _)
  have hbias : |haiPairwiseFakeBias.toInt * 1000| ≤ 3262000 := by decide
  have hcount : (qaiHaiFeat : Int) = 16 := rfl
  rw [hcount] at hsum
  unfold linearScore
  exact hsum.trans (by omega)

/-- Neither score overflows on a row whose products do not. -/
private theorem score_bounds {x : Nat → Int32} (h : NoOverflow x) :
    (-2 ^ 63 ≤ floorScore x ∧ floorScore x < 2 ^ 63) ∧
    (-2 ^ 63 ≤ truncScore x ∧ truncScore x < 2 ^ 63) := by
  have hlin := abs_le.mp (abs_linearScore_le x)
  have hterm : ∀ i < 16, |(pairTerm x i).fdiv 1000| ≤ 2 ^ 54 := by
    intro i hi
    have hi := h i hi
    rw [Int.fdiv_eq_ediv_of_nonneg _ (by decide), abs_le]
    omega
  have hsum := abs_le.mp (abs_sum_range_le hterm)
  have hcard : (roundedUp x).card ≤ 16 :=
    (Finset.card_filter_le _ _).trans (by rw [Finset.card_range])
  rw [truncScore_eq, floorScore]
  omega

/-- The first loops of both programs. -/
private theorem linear_fold (x : Nat → Int32) :
    Loop.fold qaiHaiFeat
      (fun i acc => acc + (haiPairwiseFakeTheta.getD i 0).toInt64 * (x i).toInt64)
      (haiPairwiseFakeBias.toInt64 * haiS) = Int64.ofInt (linearScore x) := by
  have hbias : haiPairwiseFakeBias.toInt64 * haiS =
      Int64.ofInt (haiPairwiseFakeBias.toInt * 1000) := by decide
  rw [hbias]
  exact fold_dot haiPairwiseFakeTheta x qaiHaiFeat _

/-- The decision of the TA, over the integers. -/
theorem haiPairwiseFakeOne_eq {x : Nat → Int32} (h : NoOverflow x) :
    haiPairwiseFakeOne x = if 0 < truncScore x then 1 else 0 := by
  have hscale : haiS = Int64.ofInt 1000 := by decide
  have hpair : Loop.fold qaiHaiFeat
      (fun i acc => acc + ((haiPairwiseFakeGamma.getD i 0).toInt64 *
        ((x i).toInt64 * (x ((i + 1) % qaiHaiFeat)).toInt64)) / haiS)
      (Int64.ofInt (linearScore x)) = Int64.ofInt (truncScore x) := by
    apply fold_wrap Int64.ofInt Int64.ofInt_add
    intro i hi
    rw [toInt64_eq_ofInt, toInt64_eq_ofInt, toInt64_eq_ofInt, ← Int64.ofInt_mul,
      ← Int64.ofInt_mul, hscale]
    obtain ⟨hlo, hhi⟩ := h i hi
    exact (Int64.ofInt_tdiv hlo (Int.le_of_lt_add_one hhi) (by decide) (by decide)).symm
  obtain ⟨hlo, hhi⟩ := (score_bounds h).2
  unfold haiPairwiseFakeOne
  simp only [linear_fold, hpair, gt_iff_lt, Int64.lt_iff_toInt_lt, Int64.toInt_ofInt_of_le hlo hhi,
    Int64.toInt_zero]

/-- The dot products of the trainer, which have the features first. -/
theorem trainerDot (w : List Int32) (x : Nat → Int32) :
    Loop.fold 16 (fun i dot => dot + (x i).toInt64 * (w.getD i 0).toInt64) 0 =
      Int64.ofInt (∑ i ∈ Finset.range 16, (w.getD i 0).toInt * (x i).toInt) := by
  have hdot := fold_wrap Int64.ofInt Int64.ofInt_add (n := 16)
    (f := fun i => (x i).toInt64 * (w.getD i 0).toInt64)
    (g := fun i => (w.getD i 0).toInt * (x i).toInt)
    (fun i _ => by
      rw [toInt64_eq_ofInt, toInt64_eq_ofInt, ← Int64.ofInt_mul, Int.mul_comm]) 0
  rw [Int.zero_add] at hdot
  exact hdot

/-- The decision of the trainer, over the integers. -/
theorem fpQai_eq {x : Nat → Int32} (h : NoOverflow x) :
    fpQai x haiPairwiseFakeTheta haiPairwiseFakeGamma haiPairwiseFakeBias =
      if 0 < floorScore x then 1 else 0 := by
  have hlinear : haiPairwiseFakeBias.toInt64 * trainScale +
      Loop.fold 16 (fun i dot => dot + (x i).toInt64 * (haiPairwiseFakeTheta.getD i 0).toInt64) 0 =
      Int64.ofInt (linearScore x) := by
    have hbias : haiPairwiseFakeBias.toInt64 * trainScale =
        Int64.ofInt (haiPairwiseFakeBias.toInt * 1000) := by decide
    rw [trainerDot, hbias, linearScore, Int64.ofInt_add]
  have hpair : Loop.fold 16
      (fun i acc => acc + floorDivide ((haiPairwiseFakeGamma.getD i 0).toInt64 *
        (x i).toInt64 * (x ((i + 1) % 16)).toInt64) trainScale)
      (Int64.ofInt (linearScore x)) = Int64.ofInt (floorScore x) := by
    apply fold_wrap Int64.ofInt Int64.ofInt_add
    intro i hi
    -- the floor is taken of the wrapped product, which is the exact one in range
    obtain ⟨hlo, hhi⟩ := h i hi
    have hprod : (haiPairwiseFakeGamma.getD i 0).toInt64 * (x i).toInt64 *
        (x ((i + 1) % 16)).toInt64 = Int64.ofInt (pairTerm x i) := by
      rw [toInt64_eq_ofInt, toInt64_eq_ofInt, toInt64_eq_ofInt, ← Int64.ofInt_mul,
        ← Int64.ofInt_mul, pairTerm, Int.mul_assoc]
    rw [floorDivide, hprod, Int64.toInt_ofInt_of_le hlo hhi]
    rfl
  obtain ⟨hlo, hhi⟩ := (score_bounds h).1
  unfold fpQai
  simp only [hlinear, hpair, gt_iff_lt, Int64.lt_iff_toInt_lt, Int64.toInt_ofInt_of_le hlo hhi,
    Int64.toInt_zero]

/-! ## Agreement -/

/-- The TA and the trainer decide a row alike unless the trainer's score is at most
    zero and the quotients that truncation rounds up lift it above zero. -/
theorem haiPairwiseFakeOne_eq_fpQai_iff (x : Nat → Int32) (h : NoOverflow x) :
    haiPairwiseFakeOne x =
      fpQai x haiPairwiseFakeTheta haiPairwiseFakeGamma haiPairwiseFakeBias ↔
    0 < floorScore x ∨ floorScore x + (roundedUp x).card ≤ 0 := by
  rw [haiPairwiseFakeOne_eq h, fpQai_eq h, truncScore_eq]
  by_cases hfloor : 0 < floorScore x
  · rw [if_pos hfloor, if_pos (by omega)]
    exact iff_of_true rfl (Or.inl hfloor)
  · by_cases htrunc : 0 < floorScore x + (roundedUp x).card
    · rw [if_neg hfloor, if_pos htrunc]
      refine iff_of_false (by decide) ?_
      rintro (hpos | hneg)
      · exact hfloor hpos
      · omega
    · rw [if_neg hfloor, if_neg htrunc]
      exact iff_of_true rfl (Or.inr (by omega))

/-- A row with seven quotients that truncation rounds up. -/
def alarmRow : Nat → Int32 :=
  fun i => [412, -7, 213, 55, -96, 1033, 18, -250, 77, -5, 640, 31, -8, 227, -31, 9].getD i 0

/-- A row with one such quotient, and a score just below zero. -/
def normalRow : Nat → Int32 :=
  fun i => [-1523, -5, 0, 0, 0, 0, 0, 0, 0, 0, 0, 0, 0, 326, 0, 0].getD i 0

/-- The scores of both rows differ, and the decisions do not. -/
theorem rounded_rows_agree :
    truncScore alarmRow = floorScore alarmRow + 7 ∧
    truncScore normalRow = floorScore normalRow + 1 ∧
    haiPairwiseFakeOne alarmRow =
      fpQai alarmRow haiPairwiseFakeTheta haiPairwiseFakeGamma haiPairwiseFakeBias ∧
    haiPairwiseFakeOne normalRow =
      fpQai normalRow haiPairwiseFakeTheta haiPairwiseFakeGamma haiPairwiseFakeBias := by
  have halarm : NoOverflow alarmRow := by
    unfold NoOverflow
    decide
  have hnormal : NoOverflow normalRow := by
    unfold NoOverflow
    decide
  exact ⟨by decide, by decide,
    (haiPairwiseFakeOne_eq_fpQai_iff alarmRow halarm).mpr (Or.inl (by decide)),
    (haiPairwiseFakeOne_eq_fpQai_iff normalRow hnormal).mpr (Or.inr (by decide))⟩

/-- A row whose trainer score is exactly zero and whose first product is negative and
    not divisible by 1000. -/
def tiedRow : Nat → Int32 :=
  fun i => [-1523, -5, 0, 0, 0, 0, 0, 0, 0, 0, 0, 0, 0, 327, 0, 0].getD i 0

/-- On this row nothing overflows, the TA raises an alarm and the trainer does not. -/
theorem haiPairwiseFakeOne_ne_fpQai :
    NoOverflow tiedRow ∧ haiPairwiseFakeOne tiedRow = 1 ∧
    fpQai tiedRow haiPairwiseFakeTheta haiPairwiseFakeGamma haiPairwiseFakeBias = 0 := by
  refine ⟨?_, by decide, by decide⟩
  unfold NoOverflow
  decide

end OpteeRpi5.Spec
