import OpteeRpi5.Native.Inference
import OpteeRpi5.Native.FidelityKernel

/-!
# The command handlers of the TA

`ta/qai_ta.c` and the row loop of `ta/hai_infer.c`. Sizes computed from the header of
a request are `uint32_t` and wrap, a memref size is a natural number. Trace messages
are left out.
-/

namespace OpteeRpi5.Native

variable {D : Type}

/-- `TEE_PARAM_TYPES(MEMREF_INPUT, MEMREF_OUTPUT, NONE, NONE)`. -/
def expMemrefs : UInt32 :=
  teeParamTypes teeParamTypeMemrefInput teeParamTypeMemrefOutput teeParamTypeNone
    teeParamTypeNone

/-! ## Plain and protected inference -/

/-- The features of a `struct qai_input`. -/
def inputFeatures (inp : Buf) : Nat → Int32 :=
  fun i => (inp.le32 (offQaiInputFeatures + 4 * i)).toInt32

/-- `copy_input(&params[p], &in)`. -/
def copyInput (p : Fin 4) : TaM D TeeResult := do
  if (← memrefSize p) < sizeofQaiInput then return .badParameters
  let src ← loadBytes p 0 sizeofQaiInput
  modifyInp fun inp => inp.copy 0 src 0 sizeofQaiInput
  let numFeatures := (← getInp).le32 0
  if numFeatures = 0 ∨ numFeatures.toNat > qaiMaxFeatures then return .badParameters
  return .success

/-- `write_output(&params[p], out)`. -/
def writeOutput (p : Fin 4) (out : QaiOutput) : TaM D TeeResult := do
  if (← memrefSize p) < sizeofQaiOutput then return .shortBuffer
  storeBytes p 0 out.toBuf sizeofQaiOutput
  setMemrefSize p sizeofQaiOutput
  return .success

/-- The `switch (model_id)` of `cmd_infer_plain` on `in`; `none` is the `default:`
    label. -/
def inferPlainSwitch (modelId : UInt32) (inp : Buf) : Option QaiOutput :=
  let x := inputFeatures inp
  let n := inp.le32 0
  if modelId = qaiModelBaseline then some (qaiInferBaseline x n)
  else if modelId = qaiModelTinyml then some (qaiInferTinyml x n)
  else if modelId = qaiModelQai then some (qaiInferQai x n)
  else none

/-- `cmd_infer_plain`. -/
def cmdInferPlain (paramTypes modelId : UInt32) : TaM D TeeResult := do
  if paramTypes ≠ expMemrefs then return .badParameters
  let res ← copyInput 0
  if res ≠ .success then return res
  match inferPlainSwitch modelId (← getInp) with
  | none => return .badParameters
  | some out => writeOutput 1 out

/-- The `switch (pin.model_id)` of `cmd_infer_protected` on `in`. -/
def inferProtectedSwitch (modelId : UInt32) (inp : Buf) : Option QaiOutput :=
  let x := inputFeatures inp
  let n := inp.le32 0
  if modelId = qaiModelBaseline then some (qaiInferBaseline x n)
  else if modelId = qaiModelTinyml then some (qaiInferTinyml x n)
  else if modelId = qaiModelQai then some (qaiInferQai x n)
  else none

/-- `cmd_infer_protected`. The locals `pin` and `in` are kept in the state, so that
    what they hold at a return is visible. -/
def cmdInferProtected (paramTypes : UInt32) : TaM D TeeResult := do
  if paramTypes ≠ expMemrefs then return .badParameters
  if (← memrefSize 0) < sizeofQaiProtectedInput then return .badParameters
  let src ← loadBytes 0 0 sizeofQaiProtectedInput
  modifyPin fun pin => pin.copy 0 src 0 sizeofQaiProtectedInput
  let numFeatures := (← getPin).le32 0
  if numFeatures = 0 ∨ numFeatures.toNat > qaiMaxFeatures then return .badParameters
  let featBytes := (numFeatures * 4).toNat
  modifyPin fun pin => qaiXorCrypt pin offQaiProtectedCipher featBytes
  let pin ← getPin
  modifyInp fun inp => inp.fill 0 sizeofQaiInput 0
  modifyInp fun inp => inp.putLe32 0 (pin.le32 0)
  modifyInp fun inp => inp.copy offQaiInputFeatures pin offQaiProtectedCipher featBytes
  match inferProtectedSwitch (pin.le32 4) (← getInp) with
  | none => return .badParameters -- the `default:` label returns before the wipe
  | some out =>
    modifyInp fun inp => inp.fill 0 sizeofQaiInput 0
    modifyPin fun pin => pin.fill 0 sizeofQaiProtectedInput 0
    writeOutput 1 out

/-! ## Information -/

/-- What `cmd_get_info` reports. -/
def qaiInfo : QaiInfo where
  taVersion := 1
  featureCount := UInt32.ofNat qaiFeatureCount
  baselineParamBytes := UInt32.ofNat (4 * qaiBaselineW.length + 4)
  tinymlParamBytes := UInt32.ofNat (4 * qaiTinymlW.length + 4)
  qaiParamBytes := UInt32.ofNat (4 * qaiTheta.length + 4 * qaiGamma.length + 4)
  stackHintBytes := 4 * 1024
  heapHintBytes := 32 * 1024

/-- `cmd_get_info`. -/
def cmdGetInfo (paramTypes : UInt32) : TaM D TeeResult := do
  let exp := teeParamTypes teeParamTypeMemrefOutput teeParamTypeNone teeParamTypeNone
    teeParamTypeNone
  if paramTypes ≠ exp then return .badParameters
  if (← memrefSize 0) < sizeofQaiInfo then return .shortBuffer
  storeBytes 0 0 qaiInfo.toBuf sizeofQaiInfo
  setMemrefSize 0 sizeofQaiInfo
  return .success

/-! ## HAI rows -/

/-- Body of the inner loop of `qai_hai_infer`: row `i` of the input memref. -/
def haiInferRow (model : UInt32) (rows i : Nat) : TaM D Unit := do
  let b ← loadBytes 0 (rows + 4 * (UInt32.ofNat i * UInt32.ofNat qaiHaiFeat).toNat)
    (4 * qaiHaiFeat)
  let x := fun k => (b.le32 (4 * k)).toInt32
  if model = qaiHaiModelTinyml then writePred i (haiTinymlOne x)
  else writePred i (haiPairwiseFakeOne x)

/-- `qai_hai_infer`: `rows` is a byte offset into the input memref. Returns
    `*elapsed_ms`. -/
def qaiHaiInfer (model : UInt32) (rows : Nat) (n reps : UInt32) :
    TaM D (Except TeeResult UInt32) := do
  if n = 0 ∨ n.toNat > qaiHaiMaxRows ∨ reps = 0 then return .error .badParameters
  if model ≠ qaiHaiModelTinyml ∧ model ≠ qaiHaiModelPairwiseFake then
    return .error .badParameters
  Loop.up reps.toNat (fun _ _ =>
    Loop.up n.toNat (fun i _ => haiInferRow model rows i) ()) ()
  let t ← get
  return .ok (deltaMs t.t0 t.t1)

/-- `cmd_hai_infer`. -/
def cmdHaiInfer (paramTypes : UInt32) : TaM D TeeResult := do
  if paramTypes ≠ expMemrefs then return .badParameters
  if (← memrefSize 0) < sizeofQaiHaiInferIn then return .badParameters
  let hdr ← loadBytes 0 0 sizeofQaiHaiInferIn
  let model := hdr.le32 0
  let n := hdr.le32 4
  let reps := hdr.le32 8
  -- sizes in 32 bits, which a large `n` wraps
  let needIn : UInt32 := UInt32.ofNat sizeofQaiHaiInferIn + n * UInt32.ofNat qaiHaiFeat * 4
  let needOut : UInt32 := UInt32.ofNat sizeofQaiHaiInferOut + n
  if (← memrefSize 0) < needIn.toNat ∨ (← memrefSize 1) < needOut.toNat then
    return .shortBuffer
  match ← qaiHaiInfer model sizeofQaiHaiInferIn n (if reps ≠ 0 then reps else 1) with
  | .error res => return res
  | .ok ms =>
    storeBytes 1 0 (blockOutBuf ms n) sizeofQaiHaiInferOut
    let pred ← readPreds n.toNat
    storeBytes 1 sizeofQaiHaiInferOut pred n.toNat
    setMemrefSize 1 needOut.toNat
    return .success

/-! ## The circuit commands -/

section Circuit

variable [RatCast D] [Add D] [Sub D] [Mul D] [Neg D] [Div D] [LT D] [DecidableLT D]
  [FloatConv D]

/-- `cmd_bench_fidelity`. -/
def cmdBenchFidelity (paramTypes : UInt32) : TaM D TeeResult := do
  let exp := teeParamTypes teeParamTypeValueInput teeParamTypeMemrefOutput teeParamTypeNone
    teeParamTypeNone
  if paramTypes ≠ exp then return .badParameters
  if (← memrefSize 1) < sizeofQaiFidelityBench then return .shortBuffer
  let t ← get
  match ← liftKern (qaiFidelityBench t.t0 t.t1 (t.params 0).a) with
  | .error res => return res
  | .ok out =>
    storeBytes 1 0 out.toBuf sizeofQaiFidelityBench
    setMemrefSize 1 sizeofQaiFidelityBench
    return .success

/-- `cmd_kernel_block_reps`. -/
def cmdKernelBlockReps (paramTypes reps : UInt32) : TaM D TeeResult := do
  if paramTypes ≠ expMemrefs then return .badParameters
  if (← memrefSize 0) < sizeofQaiKernelBlockIn then return .badParameters
  let hdr ← loadBytes 0 0 sizeofQaiKernelBlockIn
  let nRef := hdr.le32 0
  let nQuery := hdr.le32 4
  let nQubits := hdr.le32 8
  if nQubits ≠ 8 ∧ nQubits ≠ 16 then return .badParameters
  let nFeat := nQubits * 2
  -- sizes in 32 bits, before the counts are checked
  let needIn : UInt32 := UInt32.ofNat sizeofQaiKernelBlockIn + (nRef + nQuery) * nFeat * 4
  let needOut : UInt32 := UInt32.ofNat sizeofQaiKernelBlockOut + nRef * nQuery * 4
  if (← memrefSize 0) < needIn.toNat ∨ (← memrefSize 1) < needOut.toNat then
    return .shortBuffer
  let ref := sizeofQaiKernelBlockIn
  let query := sizeofQaiKernelBlockIn + 4 * (nRef * nFeat).toNat
  match ← qaiFidelityKernelBlock ref nRef query nQuery reps nQubits
      sizeofQaiKernelBlockOut with
  | .error res => return res
  | .ok ms =>
    storeBytes 1 0 (blockOutBuf ms (nRef * nQuery)) sizeofQaiKernelBlockOut
    setMemrefSize 1 needOut.toNat
    return .success

/-- `cmd_kernel_block`. -/
def cmdKernelBlock (paramTypes : UInt32) : TaM D TeeResult :=
  cmdKernelBlockReps paramTypes 3

/-- `cmd_qmoc_block`. -/
def cmdQmocBlock (paramTypes : UInt32) : TaM D TeeResult :=
  cmdKernelBlockReps paramTypes 1

/-- `TA_InvokeCommandEntryPoint`. -/
def taInvokeCommandEntryPoint (cmdId paramTypes : UInt32) : TaM D TeeResult :=
  if cmdId = taQaiCmdInferBaseline then cmdInferPlain paramTypes qaiModelBaseline
  else if cmdId = taQaiCmdInferTinyml then cmdInferPlain paramTypes qaiModelTinyml
  else if cmdId = taQaiCmdInferQai then cmdInferPlain paramTypes qaiModelQai
  else if cmdId = taQaiCmdInferProtected then cmdInferProtected paramTypes
  else if cmdId = taQaiCmdGetInfo then cmdGetInfo paramTypes
  else if cmdId = taQaiCmdBenchFidelity then cmdBenchFidelity paramTypes
  else if cmdId = taQaiCmdQocBlock then cmdKernelBlock paramTypes
  else if cmdId = taQaiCmdHaiInfer then cmdHaiInfer paramTypes
  else if cmdId = taQaiCmdQmocBlock then cmdQmocBlock paramTypes
  else return .badParameters

end Circuit

/-! ## One invocation

What outlives a call is `Statics`; what a call finds on its stack is `Stack`, and is
arbitrary. -/

/-- The static data of the TA instance. -/
structure Statics (D : Type) where
  stat : Stat → Nat → D
  kernNq : Nat
  kernDim : Nat
  rngState : UInt32

/-- The statics of a freshly started instance. -/
def Statics.init [RatCast D] : Statics D where
  stat := fun _ _ => lit 0
  kernNq := 8
  kernDim := 256
  rngState := 240904935

/-- Uninitialised locals, and what the clock returns during the call. -/
structure Stack (D : Type) where
  loc : Loc → Nat → D
  pred : Nat → UInt8
  pin : Buf
  inp : Buf
  t0 : TeeTime
  t1 : TeeTime

/-- A request of the normal world. -/
structure Request where
  cmdId : UInt32
  paramTypes : UInt32
  params : Fin 4 → TeeParam

/-- The state in which a call starts. -/
def Ta.enter (st : Statics D) (stk : Stack D) (params : Fin 4 → TeeParam) : Ta D where
  kern :=
    { stat := st.stat, loc := stk.loc, kernNq := st.kernNq, kernDim := st.kernDim
      rngState := st.rngState, log := [] }
  params := params
  pred := stk.pred
  pin := stk.pin
  inp := stk.inp
  t0 := stk.t0
  t1 := stk.t1
  log := []

/-- The statics a call leaves behind. -/
def Ta.statics (t : Ta D) : Statics D where
  stat := t.kern.stat
  kernNq := t.kern.kernNq
  kernDim := t.kern.kernDim
  rngState := t.kern.rngState

section Serve

variable [RatCast D] [Add D] [Sub D] [Mul D] [Neg D] [Div D] [LT D] [DecidableLT D]
  [FloatConv D]

/-- One request served by an instance: the result code and the state at the return. -/
def invoke (st : Statics D) (stk : Stack D) (req : Request) : TeeResult × Ta D :=
  (taInvokeCommandEntryPoint req.cmdId req.paramTypes).run (Ta.enter st stk req.params)

/-- The statics after a history of requests, each with its own stack. -/
def serve (st : Statics D) : List (Stack D × Request) → Statics D
  | [] => st
  | (stk, req) :: rest => serve (invoke st stk req).2.statics rest

end Serve

end OpteeRpi5.Native
