import Mathlib.Algebra.Order.BigOperators.Ring.Finset
import Mathlib.Algebra.Order.Ring.Abs
import Mathlib.Algebra.Order.Ring.Int
import OpteeRpi5.ForStd.SInt
import OpteeRpi5.Spec.InferenceCorrect

/-!
# When the plain models are exact

The plain models add features that the normal world sent, in `int32_t` or in
`int64_t`, narrow the result to `int32_t` and negate it for the confidence. The
functions of `inference.c` are read here a second time, with every signed operation
checked against the range of its C type, and compared with the scores over the
integers.

## Key results

- `checkedInfer_eq_some_iff`: the features on which no operation leaves its range
- `infer_eq`: on these features the TA returns the score over the integers
- `plainExact_iff`: the TA is exact on these features and on no others
-/

namespace OpteeRpi5.Spec

open OpteeRpi5.Native SInt

/-! ## The models with checked operations -/

/-- The models of the plain inference command. -/
inductive PlainModel where
  | baseline
  | tinyml
  | qai
  deriving DecidableEq

/-- The function of `inference.c` that runs a model. -/
def PlainModel.infer : PlainModel → (Nat → Int32) → UInt32 → QaiOutput
  | baseline => qaiInferBaseline
  | tinyml => qaiInferTinyml
  | qai => qaiInferQai

/-- The threshold of a model. -/
def PlainModel.threshold : PlainModel → Int32
  | baseline => qaiBaselineThreshold
  | tinyml => qaiTinymlThreshold
  | qai => qaiQaiThreshold

/-- What `fill_result` writes besides the model id. -/
structure CheckedOutput where
  score : Int
  prediction : Int
  confidence : Int
  deriving DecidableEq

/-- `abs_i32`, checked. -/
def checkedAbs (v : Int) : Option Int :=
  if v < 0 then check 31 (-v) else some v

/-- `fill_result`, checked. -/
def checkedFill (score : Int) (threshold : Int32) : Option CheckedOutput := do
  let confidence ← checkedAbs score
  return ⟨score, if score > threshold.toInt then 1 else 0, confidence⟩

/-- `(int32_t)(acc / QAI_FP_SCALE)`, checked. -/
def checkedScale (acc : Int) : Option Int := do
  let quotient ← check 63 (acc.tdiv qaiFpScale.toInt)
  check 31 quotient

/-- `(int64_t)w[i] * (int64_t)x[i]`, checked. -/
def checkedTerm (w : List Int32) (x : Nat → Int32) (i : Nat) : Option Int :=
  check 63 ((w.getD i 0).toInt * (x i).toInt)

/-- `(int64_t)w[i] * (int64_t)x[i] * (int64_t)x[j]`, checked. -/
def checkedPair (w : List Int32) (x : Nat → Int32) (i j : Nat) : Option Int := do
  let p ← checkedTerm w x i
  check 63 (p * (x j).toInt)

/-- The models, with every signed operation checked. -/
def checkedInfer (m : PlainModel) (x : Nat → Int32) (n : UInt32) : Option CheckedOutput :=
  let lim := featureLim n
  match m with
  | .baseline => do
    let score ← SInt.sum 31 lim
      (fun i => check 31 ((qaiBaselineW.getD i 0).toInt * (x i).toInt)) qaiBaselineBias.toInt
    checkedFill score qaiBaselineThreshold
  | .tinyml => do
    let acc ← SInt.sum 63 lim (checkedTerm qaiTinymlW x) qaiTinymlBias.toInt
    let score ← checkedScale acc
    checkedFill score qaiTinymlThreshold
  | .qai => do
    let acc ← SInt.sum 63 lim (checkedTerm qaiTheta x) qaiQaiBias.toInt
    let acc ← SInt.sum 63 lim (fun i => checkedPair qaiGamma x i ((i + 1) % lim)) acc
    let score ← checkedScale acc
    checkedFill score qaiQaiThreshold

/-! ## Scores over the integers -/

/-- `bias + w_0 x_0 + .. + w_{k-1} x_{k-1}`. -/
def linearSum (bias : Int32) (w : List Int32) (x : Nat → Int32) (k : Nat) : Int :=
  bias.toInt + ∑ i ∈ Finset.range k, (w.getD i 0).toInt * (x i).toInt

/-- The product that iteration `i` of the second loop of `qai_infer_qai` adds. -/
def ringTerm (x : Nat → Int32) (lim i : Nat) : Int :=
  (qaiGamma.getD i 0).toInt * (x i).toInt * (x ((i + 1) % lim)).toInt

/-- The linear part and the first `k` products. -/
def ringSum (x : Nat → Int32) (lim k : Nat) : Int :=
  linearSum qaiQaiBias qaiTheta x lim + ∑ i ∈ Finset.range k, ringTerm x lim i

/-- The sum a model adds up, in the units of its weights. -/
def PlainModel.exactAcc (m : PlainModel) (x : Nat → Int32) (lim : Nat) : Int :=
  match m with
  | baseline => linearSum qaiBaselineBias qaiBaselineW x lim
  | tinyml => linearSum qaiTinymlBias qaiTinymlW x lim
  | qai => ringSum x lim lim

/-- The score of a model: the sum, for the trained models in milli-units and scaled with
    truncation toward zero. -/
def PlainModel.exactScore (m : PlainModel) (x : Nat → Int32) (lim : Nat) : Int :=
  match m with
  | baseline => m.exactAcc x lim
  | tinyml | qai => (m.exactAcc x lim).tdiv 1000

/-- The features on which the sums stay in the range of their type. -/
def PlainModel.SumInRange (m : PlainModel) (x : Nat → Int32) (lim : Nat) : Prop :=
  match m with
  | baseline => ∀ i < lim, Fits 31 (linearSum qaiBaselineBias qaiBaselineW x (i + 1))
  | tinyml => True
  | qai => ∀ i < lim, Fits 63 (ringTerm x lim i) ∧ Fits 63 (ringSum x lim (i + 1))

/-- The features on which no operation leaves the range of its type: the sums stay in
    range and the score is an `int32_t` that can be negated. -/
def PlainModel.InRange (m : PlainModel) (x : Nat → Int32) (lim : Nat) : Prop :=
  m.SumInRange x lim ∧ |m.exactScore x lim| < 2 ^ 31

instance (m : PlainModel) (x : Nat → Int32) (lim : Nat) : Decidable (m.SumInRange x lim) :=
  match m with
  | .baseline => inferInstanceAs (Decidable (∀ i < lim, _))
  | .tinyml => inferInstanceAs (Decidable True)
  | .qai => inferInstanceAs (Decidable (∀ i < lim, _))

instance (m : PlainModel) (x : Nat → Int32) (lim : Nat) : Decidable (m.InRange x lim) :=
  inferInstanceAs (Decidable (_ ∧ _))

/-- The output over the integers. -/
def PlainModel.exactOutput (m : PlainModel) (x : Nat → Int32) (lim : Nat) : CheckedOutput where
  score := m.exactScore x lim
  prediction := if m.exactScore x lim > m.threshold.toInt then 1 else 0
  confidence := |m.exactScore x lim|

/-! ## Sums that never leave `int64_t` -/

/-- The linear sums of the trained models are far from the limits of `int64_t`. -/
private theorem fits_linearSum {bias : Int32} {w : List Int32} (x : Nat → Int32) {k : Nat}
    (hw : ∀ i < qaiFeatureCount, |(w.getD i 0).toInt| ≤ 1000) (hk : k ≤ qaiFeatureCount) :
    Fits 63 (linearSum bias w x k) := by
  have hsum := abs_add_dot_le x bias.toInt (by decide) hw hk
  have hbias := abs_toInt_le bias
  -- four terms below `2 ^ 41` and a bias
  have hcount : (qaiFeatureCount : Int) = 4 := rfl
  rw [hcount] at hsum
  exact fits_of_abs_lt (by unfold linearSum; omega)

private theorem tinymlW_le : ∀ i < qaiFeatureCount, |(qaiTinymlW.getD i 0).toInt| ≤ 1000 := by
  decide

private theorem theta_le : ∀ i < qaiFeatureCount, |(qaiTheta.getD i 0).toInt| ≤ 1000 := by
  decide

/-- The first loops of the trained models have a result on all features. -/
private theorem sum_checkedTerm {bias : Int32} {w : List Int32} (x : Nat → Int32) {lim : Nat}
    (hw : ∀ i < qaiFeatureCount, |(w.getD i 0).toInt| ≤ 1000) (hlim : lim ≤ qaiFeatureCount) :
    SInt.sum 63 lim (checkedTerm w x) bias.toInt = some (linearSum bias w x lim) := by
  refine SInt.sum_dot x (by decide) (fun i hi => hw i (by omega)) ?_
  have hbias := abs_toInt_le bias
  have hcount : (lim : Int) ≤ 4 := by exact_mod_cast hlim
  omega

/-! ## The checked models have a result exactly in range -/

/-- The scaled sum has to fit the 32-bit score. -/
private theorem checkedScale_eq_some_iff {acc s : Int} (h : Fits 63 acc) :
    checkedScale acc = some s ↔ Fits 31 (acc.tdiv 1000) ∧ s = acc.tdiv 1000 := by
  have hscale : qaiFpScale.toInt = 1000 := by decide
  -- a quotient by 1000 is nearer to zero, so only the conversion can fail
  have hquot : Fits 63 (acc.tdiv 1000) := by
    unfold Fits at h ⊢
    rw [Int.tdiv_eq_ediv, show Int.sign 1000 = 1 from rfl]
    split <;> omega
  unfold checkedScale
  rw [hscale, check_of_fits hquot]
  exact check_eq_some_iff

/-- The confidence overflows for one score only, the least one. -/
private theorem checkedFill_eq_some_iff {s : Int} {t : Int32} {out : CheckedOutput}
    (h : Fits 31 s) :
    checkedFill s t = some out ↔
      |s| < 2 ^ 31 ∧ out = ⟨s, if s > t.toInt then 1 else 0, |s|⟩ := by
  have habs : ∀ c, checkedAbs s = some c ↔ |s| < 2 ^ 31 ∧ c = |s| := by
    intro c
    unfold checkedAbs
    unfold Fits at h
    split
    · next hneg =>
      -- `-v` is out of range for the least `int32_t` only
      rw [check_eq_some_iff, abs_of_neg hneg, Fits]
      constructor
      · rintro ⟨⟨-, hhi⟩, rfl⟩
        exact ⟨hhi, rfl⟩
      · rintro ⟨hhi, rfl⟩
        exact ⟨⟨by omega, hhi⟩, rfl⟩
    · next hnonneg =>
      rw [abs_of_nonneg (by omega), Option.some.injEq, eq_comm]
      exact ⟨fun hc => ⟨h.2, hc⟩, fun hc => hc.2⟩
  unfold checkedFill
  rw [Option.bind_eq_bind, Option.bind_eq_some_iff]
  simp only [habs, Option.pure_def, Option.some.injEq]
  constructor
  · rintro ⟨c, ⟨hlt, rfl⟩, rfl⟩
    exact ⟨hlt, rfl⟩
  · rintro ⟨hlt, rfl⟩
    exact ⟨_, ⟨hlt, rfl⟩, rfl⟩

/-- The sum of `qai_infer_qai` fits once its last prefix does. -/
private theorem fits_ringSum {x : Nat → Int32} {lim : Nat} (hlim : lim ≤ qaiFeatureCount)
    (h : PlainModel.qai.SumInRange x lim) : Fits 63 (ringSum x lim lim) := by
  cases lim with
  | zero =>
    -- without features there is the bias only
    rw [ringSum, Finset.sum_range_zero, Int.add_zero]
    exact fits_linearSum x theta_le hlim
  | succ k => exact (h k (by omega)).2

/-- The sum of the features fits if every prefix does. -/
private theorem fits_baseline {x : Nat → Int32} {lim : Nat}
    (h : PlainModel.baseline.SumInRange x lim) :
    Fits 31 (PlainModel.baseline.exactScore x lim) := by
  cases lim with
  | zero => exact (by decide : Fits 31 0)
  | succ k => exact h k (by omega)

/-- The loop of the baseline. -/
private theorem sum_baseline {x : Nat → Int32} {lim : Nat} {v : Int}
    (hlim : lim ≤ qaiFeatureCount) :
    SInt.sum 31 lim (fun i => check 31 ((qaiBaselineW.getD i 0).toInt * (x i).toInt))
        qaiBaselineBias.toInt = some v ↔
      PlainModel.baseline.SumInRange x lim ∧ v = PlainModel.baseline.exactScore x lim := by
  have hone : ∀ i < qaiFeatureCount, (qaiBaselineW.getD i 0).toInt = 1 := by decide
  -- the weights are one, so the products are the features themselves
  have hterm : ∀ i < lim, Fits 31 ((qaiBaselineW.getD i 0).toInt * (x i).toInt) := by
    intro i hi
    rw [hone i (by omega), Int.one_mul]
    exact ⟨(x i).le_toInt, (x i).toInt_lt⟩
  rw [SInt.sum_eq_some_iff (fun _ => True)
    (fun i => (qaiBaselineW.getD i 0).toInt * (x i).toInt)
    (fun i hi u => by rw [check_eq_some_iff, eq_true (hterm i hi)])]
  simp only [true_and]
  rfl

/-- The second loop of `qai_infer_qai`. -/
private theorem sum_ring {x : Nat → Int32} {lim : Nat} {v : Int} :
    SInt.sum 63 lim (fun i => checkedPair qaiGamma x i ((i + 1) % lim))
        (linearSum qaiQaiBias qaiTheta x lim) = some v ↔
      PlainModel.qai.SumInRange x lim ∧ v = ringSum x lim lim := by
  have hpair : ∀ i, ∀ u, checkedPair qaiGamma x i ((i + 1) % lim) = some u ↔
      Fits 63 (ringTerm x lim i) ∧ u = ringTerm x lim i := by
    intro i u
    rw [checkedPair, checkedTerm, check_of_fits (fits_mul _ _)]
    exact check_eq_some_iff
  rw [SInt.sum_eq_some_iff _ _ (fun i _ u => hpair i u)]
  rfl

/-- The end of the trained models. -/
private theorem checkedScale_bind_fill {acc : Int} {t : Int32} {out : CheckedOutput}
    (h : Fits 63 acc) :
    ((checkedScale acc).bind fun score => checkedFill score t) = some out ↔
      |acc.tdiv 1000| < 2 ^ 31 ∧
      out = ⟨acc.tdiv 1000, if acc.tdiv 1000 > t.toInt then 1 else 0, |acc.tdiv 1000|⟩ := by
  rw [Option.bind_eq_some_iff]
  simp only [checkedScale_eq_some_iff h]
  constructor
  · rintro ⟨s, ⟨hfits, rfl⟩, hfill⟩
    exact (checkedFill_eq_some_iff hfits).mp hfill
  · intro hout
    have hfits : Fits 31 (acc.tdiv 1000) := fits_of_abs_lt hout.1
    exact ⟨_, ⟨hfits, rfl⟩, (checkedFill_eq_some_iff hfits).mpr hout⟩

/-- A checked model has a result when its features are in range, and the result is the
    output over the integers. -/
theorem checkedInfer_eq_some_iff (m : PlainModel) (x : Nat → Int32) (n : UInt32)
    (out : CheckedOutput) :
    checkedInfer m x n = some out ↔
      m.InRange x (featureLim n) ∧ out = m.exactOutput x (featureLim n) := by
  have hlim := featureLim_le_count n
  unfold checkedInfer
  cases m with
  | baseline =>
    rw [Option.bind_eq_bind, Option.bind_eq_some_iff]
    simp only [sum_baseline hlim]
    constructor
    · rintro ⟨s, ⟨hsum, rfl⟩, hfill⟩
      rw [checkedFill_eq_some_iff (fits_baseline hsum)] at hfill
      exact ⟨⟨hsum, hfill.1⟩, hfill.2⟩
    · rintro ⟨⟨hsum, habs⟩, hout⟩
      exact ⟨_, ⟨hsum, rfl⟩, (checkedFill_eq_some_iff (fits_of_abs_lt habs)).mpr ⟨habs, hout⟩⟩
  | tinyml =>
    simp only [sum_checkedTerm x tinymlW_le hlim, Option.bind_eq_bind, Option.bind_some]
    rw [checkedScale_bind_fill (fits_linearSum x tinymlW_le hlim)]
    exact ⟨fun h => ⟨⟨trivial, h.1⟩, h.2⟩, fun h => ⟨h.1.2, h.2⟩⟩
  | qai =>
    -- only the second loop can overflow: the first one adds four small products
    simp only [sum_checkedTerm x theta_le hlim, Option.bind_eq_bind, Option.bind_some]
    rw [Option.bind_eq_some_iff]
    simp only [sum_ring]
    constructor
    · rintro ⟨acc, ⟨hsum, rfl⟩, hfill⟩
      rw [checkedScale_bind_fill (fits_ringSum hlim hsum)] at hfill
      exact ⟨⟨hsum, hfill.1⟩, hfill.2⟩
    · rintro ⟨⟨hsum, habs⟩, hout⟩
      exact ⟨_, ⟨hsum, rfl⟩,
        (checkedScale_bind_fill (fits_ringSum hlim hsum)).mpr ⟨habs, hout⟩⟩

/-! ## The TA in range -/

/-- `fill_result` on a score that can be negated. -/
private theorem fillResult_exact {s : Int} (t : Int32) (modelId : UInt32) (h : |s| < 2 ^ 31) :
    (fillResult (Int32.ofInt s) t modelId).score.toInt = s ∧
    (fillResult (Int32.ofInt s) t modelId).prediction.toInt = (if s > t.toInt then 1 else 0) ∧
    (fillResult (Int32.ofInt s) t modelId).confidence.toInt = |s| := by
  have hscore : (Int32.ofInt s).toInt = s := toInt_int32 (fits_of_abs_lt h)
  refine ⟨hscore, ?_, ?_⟩
  · simp only [fillResult, gt_iff_lt, Int32.lt_iff_toInt_lt, hscore]
    split
    · rfl
    · rfl
  · simp only [fillResult, absI32, Int32.lt_iff_toInt_lt, hscore, Int32.toInt_zero]
    split
    · next hneg =>
      rw [abs_of_neg hneg] at h ⊢
      rw [← Int32.ofInt_neg]
      exact toInt_int32 ⟨by omega, h⟩
    · next hnonneg => rw [hscore, abs_of_nonneg (by omega)]

/-- The scaling at the end of the trained models. -/
private theorem scale_ofInt {acc : Int} (h : Fits 63 acc) :
    (Int64.ofInt acc / qaiFpScale).toInt32 = Int32.ofInt (acc.tdiv 1000) := by
  have hscale : qaiFpScale = Int64.ofInt 1000 := by decide
  rw [hscale, ← Int64.ofInt_tdiv h.1 (Int.le_of_lt_add_one h.2) (by decide) (by decide),
    Int64.toInt32_ofInt]

/-- The first loops of the trained models, on the target machine. -/
private theorem linearSum_fold {bias : Int32} (w : List Int32) (x : Nat → Int32) (lim : Nat) :
    Loop.fold lim (fun i acc => acc + (w.getD i 0).toInt64 * (x i).toInt64) bias.toInt64 =
      Int64.ofInt (linearSum bias w x lim) := by
  rw [toInt64_eq_ofInt bias]
  exact fold_dot w x lim bias.toInt

/-- The score the TA stores, before it is compared and negated. -/
private theorem infer_eq_fillResult {m : PlainModel} {x : Nat → Int32} {n : UInt32}
    (h : m.SumInRange x (featureLim n)) :
    ∃ modelId, m.infer x n =
      fillResult (Int32.ofInt (m.exactScore x (featureLim n))) m.threshold modelId := by
  have hlim := featureLim_le_count n
  cases m with
  | baseline =>
    -- the only model that adds up in 32 bits
    have hfold : Loop.fold (featureLim n)
        (fun i score => score + qaiBaselineW.getD i 0 * x i) qaiBaselineBias =
        Int32.ofInt (PlainModel.baseline.exactScore x (featureLim n)) := by
      rw [← Int32.ofInt_toInt qaiBaselineBias]
      apply fold_wrap Int32.ofInt Int32.ofInt_add
      intro i _
      rw [Int32.ofInt_mul, Int32.ofInt_toInt, Int32.ofInt_toInt]
    exact ⟨qaiModelBaseline, congrArg (fillResult · qaiBaselineThreshold qaiModelBaseline) hfold⟩
  | tinyml =>
    refine ⟨qaiModelTinyml, ?_⟩
    simp only [PlainModel.infer, qaiInferTinyml, linearSum_fold,
      scale_ofInt (fits_linearSum x tinymlW_le hlim)]
    rfl
  | qai =>
    have hring : Loop.fold (featureLim n)
        (fun i acc => acc + (qaiGamma.getD i 0).toInt64 * (x i).toInt64 *
          (x ((i + 1) % featureLim n)).toInt64)
        (Int64.ofInt (linearSum qaiQaiBias qaiTheta x (featureLim n))) =
        Int64.ofInt (ringSum x (featureLim n) (featureLim n)) := by
      apply fold_wrap Int64.ofInt Int64.ofInt_add
      intro i _
      rw [toInt64_eq_ofInt, toInt64_eq_ofInt, toInt64_eq_ofInt, ← Int64.ofInt_mul,
        ← Int64.ofInt_mul, ringTerm]
    refine ⟨qaiModelQai, ?_⟩
    simp only [PlainModel.infer, qaiInferQai, linearSum_fold, hring,
      scale_ofInt (fits_ringSum hlim h)]
    rfl

/-- In range the TA returns the output over the integers. -/
theorem infer_eq {m : PlainModel} {x : Nat → Int32} {n : UInt32}
    (h : m.InRange x (featureLim n)) :
    (m.infer x n).score.toInt = m.exactScore x (featureLim n) ∧
    (m.infer x n).prediction.toInt =
      (if m.exactScore x (featureLim n) > m.threshold.toInt then 1 else 0) ∧
    (m.infer x n).confidence.toInt = |m.exactScore x (featureLim n)| := by
  obtain ⟨modelId, heq⟩ := infer_eq_fillResult h.1
  rw [heq]
  exact fillResult_exact m.threshold modelId h.2

/-! ## Exactness -/

/-- The answer of a plain model on `n` features is exact: no signed operation leaves the
    range of its type, and the output is the one over the integers. -/
structure PlainExact (m : PlainModel) (x : Nat → Int32) (n : UInt32) : Prop where
  noOverflow : (checkedInfer m x n).isSome
  score : (m.infer x n).score.toInt = m.exactScore x (featureLim n)
  prediction : (m.infer x n).prediction = 1 ↔
    m.exactScore x (featureLim n) > m.threshold.toInt
  confidence : (m.infer x n).confidence.toInt = |m.exactScore x (featureLim n)|
  confidence_nonneg : 0 ≤ (m.infer x n).confidence

/-- In range nothing overflows and the TA returns the output over the integers. -/
theorem plainExact_of_inRange {m : PlainModel} {x : Nat → Int32} {n : UInt32}
    (h : m.InRange x (featureLim n)) : PlainExact m x n := by
  obtain ⟨hscore, hpred, hconf⟩ := infer_eq h
  refine ⟨?_, hscore, ?_, hconf, ?_⟩
  · rw [(checkedInfer_eq_some_iff m x n _).mpr ⟨h, rfl⟩]
    rfl
  · rw [← Int32.toInt_inj, hpred]
    split
    · next hgt => exact iff_of_true (by decide) hgt
    · next hle => exact iff_of_false (by decide) hle
  · rw [Int32.le_iff_toInt_le, hconf]
    exact abs_nonneg _

/-- A plain model is exact on the features in range and on no others. -/
theorem plainExact_iff (m : PlainModel) (x : Nat → Int32) (n : UInt32) :
    PlainExact m x n ↔ m.InRange x (featureLim n) := by
  constructor
  · intro h
    obtain ⟨out, hout⟩ := Option.isSome_iff_exists.mp h.noOverflow
    exact ((checkedInfer_eq_some_iff m x n out).mp hout).1
  · exact plainExact_of_inRange

/-- Two features whose sum is not an `int32_t`. -/
def wrappedFeatures : Nat → Int32 :=
  fun i => [2147483647, 1, 0, 0].getD i 0

/-- The baseline wraps: the score over the integers is `2 ^ 31`, the TA answers with the
    least score, prediction zero and a negative confidence. -/
theorem baseline_not_exact :
    ¬ PlainExact .baseline wrappedFeatures 4 ∧
    PlainModel.baseline.exactScore wrappedFeatures (featureLim 4) = 2147483648 ∧
    qaiInferBaseline wrappedFeatures 4 = ⟨0, -2147483648, -2147483648, qaiModelBaseline⟩ := by
  refine ⟨?_, by decide, by decide⟩
  intro h
  exact absurd h.noOverflow (by decide)

end OpteeRpi5.Spec
