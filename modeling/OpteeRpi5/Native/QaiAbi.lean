import Mathlib.Algebra.GroupWithZero.Nat
import OpteeRpi5.ForStd.Buf

/-!
# The interface of the QAI Trusted Application

`optee_examples/qai_ta/include/qai_ta.h`: command ids, sizes and the structures that
cross the world boundary, together with the parts of `tee_api_defines.h` the TA uses.
A structure is stored in a memref field by field in little-endian order; all of them
are free of padding.
-/

namespace OpteeRpi5.Native

/-! ## `tee_api_defines.h` -/

/-- The `TEE_Result` values the TA returns. -/
inductive TeeResult where
  | success
  | badParameters
  | shortBuffer
  deriving DecidableEq, Repr

def teeParamTypeNone : UInt32 := 0
def teeParamTypeValueInput : UInt32 := 1
def teeParamTypeMemrefInput : UInt32 := 5
def teeParamTypeMemrefOutput : UInt32 := 6

/-- There are four parameters, with the indices `0` to `3`. The instance has a name, so that
    the indices are the same terms in all modules. -/
instance neZeroFour : NeZero 4 := ⟨by decide⟩

/-- `TEE_PARAM_TYPES(t0, t1, t2, t3)`. -/
def teeParamTypes (t0 t1 t2 t3 : UInt32) : UInt32 :=
  t0 ||| (t1 <<< 4) ||| (t2 <<< 8) ||| (t3 <<< 12)

/-- `TEE_PARAM_TYPE_GET(t, i)`. -/
def teeParamTypeGet (t : UInt32) (i : Fin 4) : UInt32 :=
  (t >>> (UInt32.ofNat (i.val * 4))) &&& 0xF

/-- `TEE_Time`. -/
structure TeeTime where
  seconds : UInt32
  millis : UInt32

/-! ## Command ids -/

def taQaiCmdInferBaseline : UInt32 := 0
def taQaiCmdInferTinyml : UInt32 := 1
def taQaiCmdInferQai : UInt32 := 2
def taQaiCmdInferProtected : UInt32 := 3
def taQaiCmdGetInfo : UInt32 := 4
def taQaiCmdBenchFidelity : UInt32 := 5
def taQaiCmdQocBlock : UInt32 := 6
def taQaiCmdHaiInfer : UInt32 := 7
def taQaiCmdQmocBlock : UInt32 := 8

/-! ## Sizes and model ids -/

def qaiMaxFeatures : Nat := 16
def qaiFeatureCount : Nat := 4
def qaiProtKeyLen : Nat := 16
def qaiFpScale : Int64 := 1000

def qaiModelBaseline : UInt32 := 0
def qaiModelTinyml : UInt32 := 1
def qaiModelQai : UInt32 := 2

def qaiKernelFeatMax : Nat := 32
def qaiKernelMaxPairs : UInt32 := 32

def qaiHaiFeat : Nat := 16
def qaiHaiMaxRows : Nat := 32
def qaiHaiModelTinyml : UInt32 := 0
def qaiHaiModelPairwiseFake : UInt32 := 1

/-! ## Structures

`sizeof` of each structure of the header, and the layout of those the TA writes. -/

def sizeofQaiInput : Nat := 68
def sizeofQaiProtectedInput : Nat := 72
def sizeofQaiOutput : Nat := 16
def sizeofQaiInfo : Nat := 28
def sizeofQaiFidelityBench : Nat := 24
def sizeofQaiKernelBlockIn : Nat := 12
def sizeofQaiKernelBlockOut : Nat := 8
def sizeofQaiHaiInferIn : Nat := 12
def sizeofQaiHaiInferOut : Nat := 8

/-- Offset of `features` in `struct qai_input`. -/
def offQaiInputFeatures : Nat := 4

/-- Offset of `cipher` in `struct qai_protected_input`. -/
def offQaiProtectedCipher : Nat := 8

/-- `struct qai_output`. -/
structure QaiOutput where
  prediction : Int32
  confidence : Int32
  score : Int32
  modelId : UInt32
  deriving DecidableEq, Repr

/-- The bytes of `struct qai_output`. -/
def QaiOutput.toBuf (o : QaiOutput) : Buf :=
  Buf.ofWords [o.prediction.toUInt32, o.confidence.toUInt32, o.score.toUInt32, o.modelId]

/-- `struct qai_info`. -/
structure QaiInfo where
  taVersion : UInt32
  featureCount : UInt32
  baselineParamBytes : UInt32
  tinymlParamBytes : UInt32
  qaiParamBytes : UInt32
  stackHintBytes : UInt32
  heapHintBytes : UInt32
  deriving DecidableEq, Repr

/-- The bytes of `struct qai_info`. -/
def QaiInfo.toBuf (o : QaiInfo) : Buf :=
  Buf.ofWords [o.taVersion, o.featureCount, o.baselineParamBytes, o.tinymlParamBytes,
    o.qaiParamBytes, o.stackHintBytes, o.heapHintBytes]

/-- `struct qai_fidelity_bench`. -/
structure QaiFidelityBench where
  evals : UInt32
  teeElapsedMs : UInt32
  selfExpMicro : Int64
  batchSumMicro : Int64
  deriving DecidableEq, Repr

/-- The low and the high word of an `int64_t`. -/
def wordsOfInt64 (v : Int64) : List UInt32 :=
  [v.toUInt64.toUInt32, (v.toUInt64 >>> 32).toUInt32]

/-- The bytes of `struct qai_fidelity_bench`. -/
def QaiFidelityBench.toBuf (o : QaiFidelityBench) : Buf :=
  Buf.ofWords ([o.evals, o.teeElapsedMs] ++ wordsOfInt64 o.selfExpMicro ++
    wordsOfInt64 o.batchSumMicro)

/-- The bytes of `struct qai_kernel_block_out` and of `struct qai_hai_infer_out`: the
    elapsed milliseconds, then the number of results. -/
def blockOutBuf (teeElapsedMs n : UInt32) : Buf :=
  Buf.ofWords [teeElapsedMs, n]

end OpteeRpi5.Native
