import Mathlib.Algebra.Order.Floor.Defs
import OpteeRpi5.ForMathlib.Numerals
import OpteeRpi5.Native.Inference

/-!
# The trainer's fixed-point reference

`fp_tinyml` and `fp_qai` of `tools/hai_tinyml_train.py`, which the trainer evaluates to
report the accuracy of the models it writes to `model_hai.h`, and the rounding to
integers before that. The arrays are numpy `int64` arrays, so sums and products wrap and
`//` rounds toward minus infinity.
-/

namespace OpteeRpi5.Native

open scoped Numerals

/-- `SCALE`. -/
def trainScale : Int64 := 1000

/-- `a // b` on numpy `int64`. -/
def floorDivide (a b : Int64) : Int64 :=
  Int64.ofInt (a.toInt.fdiv b.toInt)

/-- `np.rint`: the nearest integer, and the even one of two. -/
def rint {D : Type} [Ring D] [LinearOrder D] [FloorRing D] (v : D) : Int :=
  let below := ⌊v⌋
  let frac := v - below
  if 2 * frac < 1 then below
  else if 1 < 2 * frac then below + 1
  else if below % 2 = 0 then below
  else below + 1

/-- `quantize`. -/
def quantize {D : Type} [Ring D] [LinearOrder D] [FloorRing D] (w : List D) (b : D) :
    List Int32 × Int :=
  (w.map fun v => Int32.ofInt (rint (v * 1000)), rint (b * 1000))

/-- `fp_tinyml` on one row `xm` of integers. -/
def fpTinyml (xm : Nat → Int32) (w : List Int32) (b : Int32) : UInt8 :=
  let acc := b.toInt64 * trainScale +
    Loop.fold 16 (fun i dot => dot + (xm i).toInt64 * (w.getD i 0).toInt64) 0
  if acc > 0 then 1 else 0

/-- `fp_qai` on one row `xm` of integers. -/
def fpQai (xm : Nat → Int32) (theta gamma : List Int32) (b : Int32) : UInt8 :=
  let acc := b.toInt64 * trainScale
  let acc := acc + Loop.fold 16 (fun i dot => dot + (xm i).toInt64 * (theta.getD i 0).toInt64) 0
  let acc := Loop.fold 16
    (fun i acc =>
      let j := (i + 1) % 16
      acc + floorDivide ((gamma.getD i 0).toInt64 * (xm i).toInt64 * (xm j).toInt64) trainScale)
    acc
  if acc > 0 then 1 else 0

end OpteeRpi5.Native
