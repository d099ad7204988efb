import OpteeRpi5.ForStd.Loop

/-!
# The trainers of the four-feature models

The decision rules of `tools/train_tinyml.py` and `tools/train_qai_hybrid.py`, by which
the trainers measure the accuracy of the parameters they emit. Python adds floats and
integers alike, so the rules are stated over any type of numbers; a row and the
parameter lists have `FEATURE_COUNT` entries.

The data sets, gradient descent and the rounding of `to_milli` are in `TrainLoop`.
-/

namespace OpteeRpi5.Native

/-- `FEATURE_COUNT`. -/
def trainFeatureCount : Nat := 4

section Rules

variable {R : Type} [Zero R] [Add R] [Mul R]

/-- `sum(wi * xi for wi, xi in zip(w, x))`. -/
def sumZip (w x : Nat → R) : R :=
  Loop.fold trainFeatureCount (fun i s => s + w i * x i) 0

/-- `z` in `accuracy` of `train_tinyml.py`. -/
def trainTinymlScore (x w : Nat → R) (b : R) : R :=
  b + sumZip w x

/-- `predict_score` of `train_qai_hybrid.py`. -/
def predictScore (x theta gamma : Nat → R) (bias : R) : R :=
  let s := bias + sumZip theta x
  Loop.fold trainFeatureCount
    (fun i s =>
      let j := (i + 1) % trainFeatureCount
      s + gamma i * x i * x j) s

/-- `pred` in `accuracy` of both trainers. -/
def trainPred [LT R] [DecidableLT R] (score : R) : Nat :=
  if score > 0 then 1 else 0

end Rules

end OpteeRpi5.Native
