import OpteeRpi5.Native.FidelityKernel

/-!
# The scorer's Gram matrix

`sym_gram` of `tools/hai_qmoc_score.py`, which prepares the matrix of kernel values that
the one-class SVM is fitted on. Matrices are functions of row and column, and the numpy
operators are those of the type `F` of their elements, which is `np.float32` in the script.
A Python number is converted to that type.
-/

namespace OpteeRpi5.Native

/-- `math.e`, a double. -/
def mathE : ℚ := 6121026514868073 / 2251799813685248

variable {F : Type} [RatCast F] [Add F] [Mul F]

/-- `sym_gram`. -/
def symGram (k : Nat → Nat → F) : Nat → Nat → F :=
  let g := fun i j => lit (1 / 2) * (k i j + k j i)
  fun i j => if i = j then lit mathE else g i j

end OpteeRpi5.Native
