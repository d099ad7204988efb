import OpteeRpi5.Native.Trainers
import OpteeRpi5.Spec.InferenceExact

/-!
# The deployed decision and the trained one

The trainers decide by the sign of the sum. The TA divides the same sum, in
milli-units, by 1000 and decides by the sign of the quotient, which truncation makes
zero on the whole band below one unit.

## Key results

- `exactAcc_eq_trainerScore`: on four features or more both add up the same sum
- `infer_eq_trainPred_iff`: on which rows the decisions agree
- `infer_ne_trainPred`: a row on which they do not
-/

namespace OpteeRpi5.Spec

open OpteeRpi5.Native

/-- The models with trained parameters. -/
inductive TrainedModel where
  | tinyml
  | qai

/-- The model in the TA. -/
def TrainedModel.plain : TrainedModel → PlainModel
  | tinyml => .tinyml
  | qai => .qai

/-- An entry of a parameter list of `model_params.h`, as an integer. -/
def emitted (l : List Int32) (i : Nat) : Int :=
  (l.getD i 0).toInt

/-- The trainer's score of a row of integers, with the parameters it has emitted. -/
def TrainedModel.trainerScore (m : TrainedModel) (x : Nat → Int32) : Int :=
  match m with
  | tinyml => trainTinymlScore (fun i => (x i).toInt) (emitted qaiTinymlW) qaiTinymlBias.toInt
  | qai =>
    predictScore (fun i => (x i).toInt) (emitted qaiTheta) (emitted qaiGamma) qaiQaiBias.toInt

/-- The sum of the trainer over the emitted parameters. -/
private theorem sumZip_eq (w : List Int32) (x : Nat → Int32) :
    sumZip (emitted w) (fun i => (x i).toInt) =
      ∑ i ∈ Finset.range 4, (w.getD i 0).toInt * (x i).toInt := by
  have hfold := SInt.fold_wrap id (fun _ _ => rfl) (n := 4)
    (f := fun i => (w.getD i 0).toInt * (x i).toInt) (fun _ _ => rfl) 0
  rwa [Int.zero_add] at hfold

/-- On four features or more the TA and the trainer add up the same sum. -/
theorem exactAcc_eq_trainerScore (m : TrainedModel) (x : Nat → Int32) :
    m.plain.exactAcc x 4 = m.trainerScore x := by
  cases m with
  | tinyml =>
    show linearSum qaiTinymlBias qaiTinymlW x 4 = qaiTinymlBias.toInt + sumZip _ _
    rw [sumZip_eq, linearSum]
  | qai =>
    have hlinear : linearSum qaiQaiBias qaiTheta x 4 =
        qaiQaiBias.toInt + sumZip (emitted qaiTheta) (fun i => (x i).toInt) := by
      rw [sumZip_eq, linearSum]
    -- the trainer multiplies neighbours on the same ring of four
    have hring := SInt.fold_wrap id (fun _ _ => rfl) (n := 4) (f := ringTerm x 4)
      (fun _ _ => rfl) (linearSum qaiQaiBias qaiTheta x 4)
    show ringSum x 4 4 = _
    simp only [TrainedModel.trainerScore, predictScore, ← hlinear]
    exact hring.symm

/-- The quotient is positive from one unit on. -/
private theorem tdiv_pos_iff (acc : Int) : 0 < acc.tdiv 1000 ↔ 1000 ≤ acc := by
  rw [Int.tdiv_eq_ediv, show Int.sign 1000 = 1 from rfl]
  split <;> omega

/-- On rows without overflow the TA decides like the trainer unless the trainer's score
    is positive and below one unit. -/
theorem infer_eq_trainPred_iff (m : TrainedModel) (x : Nat → Int32) (n : UInt32) (hn : 4 ≤ n)
    (h : (checkedInfer m.plain x n).isSome) :
    ((m.plain.infer x n).prediction = 1 ↔ trainPred (m.trainerScore x) = 1) ↔
      m.trainerScore x ≤ 0 ∨ 1000 ≤ m.trainerScore x := by
  have hlim : featureLim n = 4 := by
    have hcount : 4 ≤ n.toNat := UInt32.le_iff_toNat_le.mp hn
    exact if_neg (by rw [qaiFeatureCount]; omega)
  obtain ⟨out, hout⟩ := Option.isSome_iff_exists.mp h
  have hrange := ((checkedInfer_eq_some_iff m.plain x n out).mp hout).1
  have hexact := (plainExact_of_inRange hrange).prediction
  have hscore : m.plain.exactScore x 4 = (m.trainerScore x).tdiv 1000 := by
    rw [← exactAcc_eq_trainerScore]
    cases m <;> rfl
  have hthreshold : m.plain.threshold.toInt = 0 := by cases m <;> decide
  have htrain : trainPred (m.trainerScore x) = 1 ↔ 0 < m.trainerScore x := by
    unfold trainPred
    split
    · next hpos => exact iff_of_true rfl hpos
    · next hneg => exact iff_of_false (by decide) hneg
  -- truncation takes the scores below one unit to the threshold, which is not exceeded
  rw [hexact, htrain, hlim, hscore, hthreshold, gt_iff_lt, tdiv_pos_iff]
  omega

/-- The demonstration row of the trainers. -/
def demoRow : Nat → Int32 :=
  fun i => [10, 20, -5, 3].getD i 0

/-- The demo row is decided alike. -/
theorem demoRow_agrees :
    (checkedInfer .tinyml demoRow 4).isSome ∧
    ((qaiInferTinyml demoRow 4).prediction = 1 ↔
      trainPred (TrainedModel.tinyml.trainerScore demoRow) = 1) :=
  ⟨by decide, (infer_eq_trainPred_iff .tinyml demoRow 4 (by decide) (by decide)).mpr
    (Or.inr (by decide))⟩

/-- On the row of zeros the score is the bias, twelve milli-units: the trainer predicts
    one, the TA zero, and nothing overflows. -/
theorem infer_ne_trainPred :
    (checkedInfer .tinyml (fun _ => 0) 4).isSome ∧
    (qaiInferTinyml (fun _ => 0) 4).prediction = 0 ∧
    trainPred (TrainedModel.tinyml.trainerScore (fun _ => 0)) = 1 := by
  decide

end OpteeRpi5.Spec
