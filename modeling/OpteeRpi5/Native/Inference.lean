import Mathlib.Logic.Function.Basic
import OpteeRpi5.ForStd.Loop
import OpteeRpi5.Native.ModelParams

/-!
# Fixed-point inference inside the TA

`ta/inference.c` (the plain four-feature models and the XOR stream) and the row
classifiers of `ta/hai_infer.c`.

A pointer to features is the function from index to feature. `Int32` and `Int64`
wrap like the two's-complement types of the target, `/` on `Int64` truncates toward
zero as in C, and `Int64.toInt32` is the narrowing cast.
-/

namespace OpteeRpi5.Native

/-! ## `inference.c` -/

/-- `abs_i32`. -/
def absI32 (v : Int32) : Int32 :=
  if v < 0 then -v else v

/-- `fill_result`. -/
def fillResult (score threshold : Int32) (modelId : UInt32) : QaiOutput where
  score := score
  prediction := if score > threshold then 1 else 0
  confidence := absI32 score
  modelId := modelId

/-- `(n < QAI_FEATURE_COUNT) ? n : QAI_FEATURE_COUNT`, the number of features the plain
    models look at. -/
def featureLim (n : UInt32) : Nat :=
  if n.toNat < qaiFeatureCount then n.toNat else qaiFeatureCount

/-- `qai_infer_baseline`: the whole sum is an `int32_t`. -/
def qaiInferBaseline (x : Nat → Int32) (n : UInt32) : QaiOutput :=
  let score := Loop.fold (featureLim n)
    (fun i score => score + qaiBaselineW.getD i 0 * x i) qaiBaselineBias
  fillResult score qaiBaselineThreshold qaiModelBaseline

/-- `qai_infer_tinyml`. -/
def qaiInferTinyml (x : Nat → Int32) (n : UInt32) : QaiOutput :=
  let acc := Loop.fold (featureLim n)
    (fun i acc => acc + (qaiTinymlW.getD i 0).toInt64 * (x i).toInt64) qaiTinymlBias.toInt64
  fillResult (acc / qaiFpScale).toInt32 qaiTinymlThreshold qaiModelTinyml

/-- `qai_infer_qai`: linear term, then the ring of pairwise products. -/
def qaiInferQai (x : Nat → Int32) (n : UInt32) : QaiOutput :=
  let lim := featureLim n
  let acc := Loop.fold lim
    (fun i acc => acc + (qaiTheta.getD i 0).toInt64 * (x i).toInt64) qaiQaiBias.toInt64
  let acc := Loop.fold lim
    (fun i acc =>
      let j := (i + 1) % lim
      acc + (qaiGamma.getD i 0).toInt64 * (x i).toInt64 * (x j).toInt64) acc
  fillResult (acc / qaiFpScale).toInt32 qaiQaiThreshold qaiModelQai

/-- `qai_xor_crypt(buf + off, len)`. -/
def qaiXorCrypt (buf : Buf) (off len : Nat) : Buf :=
  Loop.fold len
    (fun i b => Function.update b (off + i) (b (off + i) ^^^ qaiProtKey.getD (i % qaiProtKeyLen) 0))
    buf

/-! ## `hai_infer.c` -/

/-- `HAI_S`. -/
def haiS : Int64 := qaiFpScale

/-- `hai_tinyml_one`. -/
def haiTinymlOne (x : Nat → Int32) : UInt8 :=
  let acc := Loop.fold qaiHaiFeat
    (fun i acc => acc + (haiTinymlW.getD i 0).toInt64 * (x i).toInt64)
    (haiTinymlBias.toInt64 * haiS)
  if acc > 0 then 1 else 0

/-- `hai_pairwise_fake_one`: every pairwise product is divided on its own. -/
def haiPairwiseFakeOne (x : Nat → Int32) : UInt8 :=
  let acc := Loop.fold qaiHaiFeat
    (fun i acc => acc + (haiPairwiseFakeTheta.getD i 0).toInt64 * (x i).toInt64)
    (haiPairwiseFakeBias.toInt64 * haiS)
  let acc := Loop.fold qaiHaiFeat
    (fun i acc =>
      let j := (i + 1) % qaiHaiFeat
      let prod := (x i).toInt64 * (x j).toInt64
      acc + ((haiPairwiseFakeGamma.getD i 0).toInt64 * prod) / haiS) acc
  if acc > 0 then 1 else 0

end OpteeRpi5.Native
