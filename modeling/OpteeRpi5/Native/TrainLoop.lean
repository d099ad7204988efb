import Mathlib.Algebra.Field.Defs
import OpteeRpi5.Native.FidelityKernel
import OpteeRpi5.Native.HaiTrain
import OpteeRpi5.Native.Trainers

/-!
# The training loops of the four-feature models

`make_dataset`, `train` and `to_milli` of `tools/train_tinyml.py` and
`tools/train_qai_hybrid.py`. The floats are a parameter `D`; `math.exp` is a class on it,
and the generator enters by the numbers that it returns. A row and a list of parameters
are functions of which the first `FEATURE_COUNT` values are used. An exception is `none`.

Left out: the messages, and the text around the numbers that are emitted.
-/

namespace OpteeRpi5.Native

/-- `math.exp`. -/
class MathExp (D : Type) where
  exp : D → D

/-- A row and its label. -/
abbrev Sample (D : Type) := (Nat → D) × Nat

/-- The lists `w` and `gw` of `train_tinyml.py`, with `b` and `gb`. -/
structure TinymlParams (D : Type) where
  w : Nat → D
  b : D

/-- The lists `theta` and `gamma` of `train_qai_hybrid.py` with `bias`, or the gradients of
    all three. -/
structure HybridParams (D : Type) where
  theta : Nat → D
  gamma : Nat → D
  bias : D

section Train

variable {D : Type} [RatCast D] [Zero D] [Add D] [Sub D] [Mul D] [Neg D] [Div D]

/-- `for i in range(FEATURE_COUNT): w[i] = f(i, w[i])`. -/
def updateFeatures (f : Nat → D → D) (w : Nat → D) : Nat → D :=
  Loop.fold trainFeatureCount (fun i w => Function.update w i (f i (w i))) w

section Sigmoid

variable [LE D] [DecidableLE D] [MathExp D]

/-- `sigmoid`, and `p` of `train_qai_hybrid.py`. -/
def sigmoid (z : D) : D :=
  if z ≥ lit 0 then lit 1 / (lit 1 + MathExp.exp (-z))
  else MathExp.exp z / (lit 1 + MathExp.exp z)

/-! ## train_tinyml.py -/

/-- The body of the loop over the rows: `g` holds the sums so far. -/
def tinymlRow (p g : TinymlParams D) (s : Sample D) : TinymlParams D :=
  let z := trainTinymlScore s.1 p.w p.b
  let err := sigmoid z - lit s.2
  { w := updateFeatures (fun i gw => gw + err * s.1 i) g.w
    b := g.b + err }

/-- One epoch. -/
def tinymlEpoch (data : List (Sample D)) (lr : D) (p : TinymlParams D) : TinymlParams D :=
  let g := data.foldl (tinymlRow p) ⟨fun _ => lit 0, lit 0⟩
  let n : D := lit data.length
  { w := updateFeatures (fun i w => w - lr * g.w i / n) p.w
    b := p.b - lr * g.b / n }

/-- `train`. Without rows the first epoch divides by zero. -/
def trainTinyml (data : List (Sample D)) (lr : D) (epochs : Nat) : Option (TinymlParams D) :=
  if data = [] ∧ epochs ≠ 0 then none
  else some (Loop.fold epochs (fun _ p => tinymlEpoch data lr p) ⟨fun _ => lit 0, lit 0⟩)

/-! ## train_qai_hybrid.py -/

@[inherit_doc tinymlRow]
def hybridRow (p g : HybridParams D) (s : Sample D) : HybridParams D :=
  let z := predictScore s.1 p.theta p.gamma p.bias
  let err := sigmoid z - lit s.2
  { theta := updateFeatures (fun i gt => gt + err * s.1 i) g.theta
    gamma := updateFeatures
      (fun i gg => gg + err * s.1 i * s.1 ((i + 1) % trainFeatureCount)) g.gamma
    bias := g.bias + err }

@[inherit_doc tinymlEpoch]
def hybridEpoch (data : List (Sample D)) (lr : D) (p : HybridParams D) : HybridParams D :=
  let g := data.foldl (hybridRow p) ⟨fun _ => lit 0, fun _ => lit 0, lit 0⟩
  let n : D := lit data.length
  { theta := updateFeatures (fun i theta => theta - lr * g.theta i / n) p.theta
    gamma := updateFeatures (fun i gamma => gamma - lr * g.gamma i / n) p.gamma
    bias := p.bias - lr * g.bias / n }

@[inherit_doc trainTinyml]
def trainHybrid (data : List (Sample D)) (lr : D) (epochs : Nat) : Option (HybridParams D) :=
  if data = [] ∧ epochs ≠ 0 then none
  else some (Loop.fold epochs (fun _ p => hybridEpoch data lr p)
    ⟨fun _ => lit 0, fun _ => lit 0, lit 0⟩)

end Sigmoid

/-! ## Data sets -/

section Dataset

variable [LT D] [DecidableLT D]

/-- The rows of `make_dataset` of both trainers, from the numbers that `rng.uniform(-20, 30)`
    returns; the trainers differ in the rule for the labels. -/
def makeDataset (score : (Nat → D) → D) (n : Nat) (uniform : Nat → D) : List (Sample D) :=
  (List.range n).map fun k =>
    let x := fun i => uniform (trainFeatureCount * k + i)
    (x, if score x > lit 0 then 1 else 0)

/-- `score` in `make_dataset` of `train_tinyml.py`. -/
def tinymlRule (x : Nat → D) : D :=
  lit (3 / 10) * x 0 + lit (5 / 10) * x 1 - lit (2 / 10) * x 2 + lit (15 / 100) * x 3 -
    lit (5 / 100)

/-- `true_theta` and `true_gamma` of `train_qai_hybrid.py`. -/
def trueTheta : List ℚ := [28 / 100, 41 / 100, -19 / 100, 14 / 100]

@[inherit_doc trueTheta]
def trueGamma : List ℚ := [12 / 1000, -8 / 1000, 5 / 1000, -3 / 1000]

/-- `score` in `make_dataset` of `train_qai_hybrid.py`. -/
def hybridRule (x : Nat → D) : D :=
  predictScore x (fun i => lit (trueTheta.getD i 0)) (fun i => lit (trueGamma.getD i 0))
    (lit (-4 / 100))

end Dataset

end Train

/-! ## Export -/

section Export

variable {D : Type} [Ring D] [LinearOrder D] [FloorRing D]

/-- `SCALE` of both trainers. -/
def milliScale : Nat := 1000

/-- `to_milli`: `round` of Python rounds like `np.rint`. -/
def toMilli (v : D) : Int :=
  rint (v * (milliScale : D))

/-- The numbers of `emit_c` of `train_tinyml.py`. -/
def emitTinyml (p : TinymlParams D) : List Int × Int :=
  ((List.range trainFeatureCount).map fun i => toMilli (p.w i), toMilli p.b)

/-- The numbers of `emit_c` of `train_qai_hybrid.py`. -/
def emitHybrid (p : HybridParams D) : List Int × List Int × Int :=
  ((List.range trainFeatureCount).map fun i => toMilli (p.theta i),
    (List.range trainFeatureCount).map fun i => toMilli (p.gamma i), toMilli p.bias)

end Export

section Main

variable {D : Type} [Field D] [LinearOrder D] [FloorRing D] [MathExp D]

/-- `main` of `train_tinyml.py` with `--samples n`: the numbers that it emits. -/
def mainTinyml (n : Nat) (uniform : Nat → D) : Option (List Int × Int) :=
  (trainTinyml (makeDataset tinymlRule n uniform) (lit (1 / 100)) 800).map emitTinyml

/-- `main` of `train_qai_hybrid.py` with `--samples n`: the numbers that it emits. -/
def mainHybrid (n : Nat) (uniform : Nat → D) : Option (List Int × List Int × Int) :=
  (trainHybrid (makeDataset hybridRule n uniform) (lit (1 / 10000)) 1200).map emitHybrid

end Main

end OpteeRpi5.Native
