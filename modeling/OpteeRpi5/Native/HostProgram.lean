import OpteeRpi5.ForStd.LcCtype
import OpteeRpi5.Native.HaiKernel
import OpteeRpi5.Native.HostMain

/-!
# The client program

`main` of `host/main.c` with `tee_open`, `tee_infer` and `tee_info`, from the command line
to the exit status. What is behind the client API is a parameter: it may answer every call
in any way, and keeps a state of its own. The calls of the API and the lines that are
printed are recorded. The local `tmp` of the bench is not initialized: what the stack holds
there is a parameter.

Left out: the clock with the times that are printed, and the fixed texts of the lines. A
line is recorded with the values in it.
-/

namespace OpteeRpi5.Native

/-! ## Options -/

/-- The locals of `main` that the options set. -/
structure HostOpts where
  model : UInt32
  protectedMode : Bool
  doBench : Bool
  doRee : Bool
  doInfo : Bool
  doKernel : Bool
  benchN : Int32
  deriving DecidableEq

/-- The locals before the options are read. -/
def HostOpts.init : HostOpts :=
  ⟨qaiModelBaseline, false, false, false, false, false, 100⟩

/-- `atoi`. The C library has `strtol` stop at the limits of a `long` and keeps the low
    word. -/
def atoi (s : List Char) : Int32 :=
  let s := s.dropWhile LineEdit.asciiSpaces.contains
  let digits := if s.head? = some '-' ∨ s.head? = some '+' then s.tail else s
  let v : Nat := (digits.takeWhile Char.isDigit).foldl (fun v c => 10 * v + (c.toNat - 48)) 0
  let v : Int := if s.head? = some '-' then Int.negOfNat v else Int.ofNat v
  if Int64.maxValue.toInt < v then Int64.maxValue.toInt32
  else if v < Int64.minValue.toInt then Int64.minValue.toInt32
  else Int32.ofInt v

/-- How the loop over the options ends: the program runs, or it prints its usage and exits. -/
inductive HostParse where
  | run (o : HostOpts)
  | usage (code : Nat)
  deriving DecidableEq

/-- The loop over the options, on `argv[1]` and what follows. -/
def parseArgs (o : HostOpts) : List (List Char) → HostParse
  | [] => .run o
  | arg :: rest =>
    if arg = "--baseline".toList then parseArgs { o with model := qaiModelBaseline } rest
    else if arg = "--tinyml".toList then parseArgs { o with model := qaiModelTinyml } rest
    else if arg = "--qai".toList then parseArgs { o with model := qaiModelQai } rest
    else if arg = "--protected".toList then parseArgs { o with protectedMode := true } rest
    else if arg = "--ree-compare".toList then parseArgs { o with doRee := true } rest
    else if arg = "--info".toList then parseArgs { o with doInfo := true } rest
    else if arg = "--kernel-bench".toList then
      match rest with
      | [] => .run { o with doKernel := true }
      | n :: rest =>
        -- `argv[i + 1][0] != '-'`
        if n.head? = some '-' then parseArgs { o with doKernel := true } (n :: rest)
        else parseArgs { o with doKernel := true, benchN := atoi n } rest
    else if arg = "--bench".toList then
      match rest with
      | [] => .run { o with doBench := true }
      | n :: rest =>
        if n.head? = some '-' then parseArgs { o with doBench := true } (n :: rest)
        else parseArgs { o with doBench := true, benchN := atoi n } rest
    else if arg = "-h".toList ∨ arg = "--help".toList then .usage 0
    else .usage 1

/-! ## The client API -/

/-- What `TEEC_InvokeCommand` leaves: the result, its origin and the parameters. -/
structure TeecReply where
  res : UInt32
  origin : UInt32
  params : Fin 4 → TeeParam

/-- What is behind the client API: the results of `TEEC_InitializeContext` and of
    `TEEC_OpenSession`, with the origin of the latter, and the answers to commands. -/
structure Teec (σ : Type) where
  initRes : UInt32
  openRes : UInt32
  openOrigin : UInt32
  answer : σ → Request → TeecReply × σ

/-- A call of the client API, with its result. -/
inductive TeecCall where
  | initializeContext (res : UInt32)
  | openSession (res : UInt32)
  | invokeCommand (req : Request) (res : UInt32)
  | closeSession
  | finalizeContext

/-- A line of output, or several that always come together. -/
inductive HostLine where
  | usage
  | banner
  | input (features : List Int32)
  | initFailed (res : UInt32)
  | openFailed (res origin : UInt32)
  | sending
  | invokeFailed (res origin : UInt32)
  | infoFailed (res origin : UInt32)
  | info (info : QaiInfo)
  | kernelStart (n : Int32)
  | kernelFailed (res origin : UInt32)
  | kernel (kb : QaiFidelityBench)
  | benchStart (model : UInt32) (n : Int32)
  | benchEnd (prediction confidence : Int32)
  | ree (prediction confidence : Int32)
  | result (out : QaiOutput) (protectedMode : Bool)

/-- The state behind the API, and what has been recorded. -/
structure HostState (σ : Type) where
  tee : σ
  calls : List TeecCall
  out : List HostLine

/-- How the program ends. `undefined` is undefined behaviour in the sense of C. -/
inductive HostExit where
  | exit (code : Nat)
  | undefined
  deriving DecidableEq

abbrev HostM (σ : Type) := StateM (HostState σ)

section Program

variable {σ : Type}

def printLine (l : HostLine) : HostM σ Unit :=
  modify fun s => { s with out := s.out ++ [l] }

def teecCall (c : TeecCall) : HostM σ Unit :=
  modify fun s => { s with calls := s.calls ++ [c] }

/-- `TEEC_InvokeCommand`. -/
def teecInvokeCommand (T : Teec σ) (req : Request) : HostM σ TeecReply := do
  let s ← get
  let r := T.answer s.tee req
  modify fun s => { s with
    tee := r.2
    calls := s.calls ++ [.invokeCommand req r.1.res] }
  return r.1

/-- `tee_open`. -/
def teeOpen (T : Teec σ) : HostM σ Bool := do
  teecCall (.initializeContext T.initRes)
  if T.initRes ≠ 0 then do
    printLine (.initFailed T.initRes)
    return false
  else do
    teecCall (.openSession T.openRes)
    if T.openRes ≠ 0 then do
      printLine (.openFailed T.openRes T.openOrigin)
      teecCall .finalizeContext
      return false
    else return true

/-! ## Requests -/

/-- The bytes of a `struct qai_output`, read back. -/
def QaiOutput.ofBuf (b : Buf) : QaiOutput where
  prediction := (b.le32 0).toInt32
  confidence := (b.le32 4).toInt32
  score := (b.le32 8).toInt32
  modelId := b.le32 12

/-- The bytes of a `struct qai_info`, read back. -/
def QaiInfo.ofBuf (b : Buf) : QaiInfo where
  taVersion := b.le32 0
  featureCount := b.le32 4
  baselineParamBytes := b.le32 8
  tinymlParamBytes := b.le32 12
  qaiParamBytes := b.le32 16
  stackHintBytes := b.le32 20
  heapHintBytes := b.le32 24

/-- An `int64_t` of its low and its high word. -/
def int64OfWords (lo hi : UInt32) : Int64 :=
  (lo.toUInt64 + hi.toUInt64 * 0x100000000).toInt64

/-- The bytes of a `struct qai_fidelity_bench`, read back. -/
def QaiFidelityBench.ofBuf (b : Buf) : QaiFidelityBench where
  evals := b.le32 0
  teeElapsedMs := b.le32 4
  selfExpMicro := int64OfWords (b.le32 8) (b.le32 12)
  batchSumMicro := int64OfWords (b.le32 16) (b.le32 20)

/-- A memref of `n` bytes that `memset` has cleared. -/
def clearedMemref (n : Nat) : Memref := ⟨fun _ => 0, n⟩

/-- `tee_infer`; `none` is the result `-1`. -/
def runTeeInfer (T : Teec σ) (model : UInt32) (protectedMode : Bool) (inp : QaiInput) :
    HostM σ (Option QaiOutput) := do
  printLine .sending
  let r ← teecInvokeCommand T
    (teeInfer model protectedMode inp (clearedMemref sizeofQaiOutput))
  if r.res ≠ 0 then do
    printLine (.invokeFailed r.res r.origin)
    return none
  else return some (QaiOutput.ofBuf (r.params 1).memref.buffer)

/-- The request of `tee_info`. -/
def infoRequest : Request where
  cmdId := taQaiCmdGetInfo
  paramTypes := teeParamTypes teeParamTypeMemrefOutput teeParamTypeNone teeParamTypeNone
    teeParamTypeNone
  params := Function.update (fun _ => ⟨⟨fun _ => 0, 0⟩, 0, 0⟩) 0
    ⟨clearedMemref sizeofQaiInfo, 0, 0⟩

/-- `tee_info`; `none` is the result `-1`. -/
def teeInfo (T : Teec σ) : HostM σ (Option QaiInfo) := do
  let r ← teecInvokeCommand T infoRequest
  if r.res ≠ 0 then do
    printLine (.infoFailed r.res r.origin)
    return none
  else return some (QaiInfo.ofBuf (r.params 0).memref.buffer)

/-- The request of `--kernel-bench`. -/
def kernelRequest (n : Int32) : Request where
  cmdId := taQaiCmdBenchFidelity
  paramTypes := teeParamTypes teeParamTypeValueInput teeParamTypeMemrefOutput teeParamTypeNone
    teeParamTypeNone
  params := Function.update (Function.update (fun _ => ⟨⟨fun _ => 0, 0⟩, 0, 0⟩) 0
    ⟨⟨fun _ => 0, 0⟩, n.toUInt32, 0⟩) 1 ⟨clearedMemref sizeofQaiFidelityBench, 0, 0⟩

/-! ## `main` -/

/-- `in`. -/
def demoInput : QaiInput where
  numFeatures := UInt32.ofNat qaiFeatureCount
  features := fun i => ([10, 20, -5, 3] : List Int32).getD i 0

/-- The labels `done` and `fail`. -/
def finish (code : Nat) : HostM σ HostExit := do
  teecCall .closeSession
  teecCall .finalizeContext
  return .exit code

/-- The loop of `--bench` with `n` iterations left. The result is `tmp`, which `ree_infer`
    writes after `tee_infer`, or `none` for `goto fail`. -/
def benchLoop (T : Teec σ) (o : HostOpts) (tmp : QaiOutput) : Nat → HostM σ (Option QaiOutput)
  | 0 => return some tmp
  | n + 1 => do
    let r ← runTeeInfer T o.model o.protectedMode demoInput
    let tmp := reeInfer o.model demoInput.features demoInput.numFeatures
    r.elim (pure none) fun _ => benchLoop T o tmp n

/-- `if (do_info)`. -/
def mainInfo (T : Teec σ) : HostM σ HostExit := do
  let r ← teeInfo T
  r.elim (pure ()) fun info => printLine (.info info)
  finish 0

/-- `if (do_kernel)`. -/
def mainKernel (T : Teec σ) (o : HostOpts) : HostM σ HostExit := do
  printLine (.kernelStart o.benchN)
  let r ← teecInvokeCommand T (kernelRequest o.benchN)
  if r.res ≠ 0 then do
    printLine (.kernelFailed r.res r.origin)
    finish 1
  else do
    printLine (.kernel (QaiFidelityBench.ofBuf (r.params 1).memref.buffer))
    finish 0

/-- The end of a bench: both averages are divided by `bench_n`, and `tmp` is printed. -/
def mainBenchEnd (o : HostOpts) (tmp : QaiOutput) : HostM σ HostExit :=
  if o.benchN = 0 then return .undefined
  else do
    printLine (.benchEnd tmp.prediction tmp.confidence)
    finish 0

/-- `if (do_bench)`. A negative `bench_n` makes no iterations. -/
def mainBench (T : Teec σ) (o : HostOpts) (tmp : QaiOutput) : HostM σ HostExit := do
  printLine (.benchStart o.model o.benchN)
  let r ← benchLoop T o tmp o.benchN.toInt.toNat
  r.elim (finish 1) (mainBenchEnd o)

/-- `if (do_ree)`. -/
def mainRee (o : HostOpts) : HostM σ Unit :=
  if o.doRee then
    let out := reeInfer o.model demoInput.features demoInput.numFeatures
    printLine (.ree out.prediction out.confidence)
  else pure ()

/-- The rest of `main`. -/
def mainInfer (T : Teec σ) (o : HostOpts) : HostM σ HostExit := do
  mainRee o
  let r ← runTeeInfer T o.model o.protectedMode demoInput
  r.elim (finish 1) fun out => do
    printLine (.result out o.protectedMode)
    finish 0

/-- `main` between `tee_open` and the labels. -/
def mainSession (T : Teec σ) (o : HostOpts) (tmp : QaiOutput) : HostM σ HostExit :=
  if o.doInfo then mainInfo T
  else if o.doKernel then mainKernel T o
  else if o.doBench then mainBench T o tmp
  else mainInfer T o

/-- `main` after the loop over the options. -/
def hostRun (T : Teec σ) (o : HostOpts) (tmp : QaiOutput) : HostM σ HostExit := do
  printLine .banner
  printLine (.input ((List.range demoInput.numFeatures.toNat).map demoInput.features))
  let opened ← teeOpen T
  if opened then mainSession T o tmp
  else return .exit 1

/-- `main`. -/
def hostMain (T : Teec σ) (tmp : QaiOutput) (args : List (List Char)) : HostM σ HostExit :=
  match parseArgs .init args with
  | .usage code => do
    printLine .usage
    return .exit code
  | .run o => hostRun T o tmp

end Program

/-! ## The TA behind the API -/

/-- The result codes, as the client sees them. -/
def TeeResult.code : TeeResult → UInt32
  | success => 0
  | badParameters => 0xffff0006
  | shortBuffer => 0xffff0010

section Ta

variable {D : Type} [RatCast D] [Add D] [Sub D] [Mul D] [Neg D] [Div D] [LT D]
  [DecidableLT D] [FloatConv D]

/-- `TEEC_ORIGIN_TRUSTED_APP`. -/
def teecOriginTrustedApp : UInt32 := 4

/-- The TA instance behind the API, with the number of calls so far. -/
def taTeec (env : CallEnv D) : Teec (Statics D × Nat) where
  initRes := 0
  openRes := 0
  openOrigin := teecOriginTrustedApp
  answer := fun s req =>
    let ta := serve s.1 (env s.2).1
    let r := invoke ta (env s.2).2 req
    (⟨r.1.code, teecOriginTrustedApp, r.2.params⟩, (r.2.statics, s.2 + 1))

end Ta

end OpteeRpi5.Native
