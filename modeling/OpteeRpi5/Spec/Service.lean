import OpteeRpi5.Spec.BenchCorrect
import OpteeRpi5.Spec.HaiCorrect
import OpteeRpi5.Spec.InferenceCorrect

/-!
# The TA as a service

What a request is answered with is a function of the request, of `rng_state` and of the
elapsed time: `answer`. Static arrays, the width selected by an earlier call and
uninitialised locals do not enter it. This file states the answer of every command and
proves that the handlers give it, stay in bounds and store exactly the bytes of the
reply.

## Key results

- `answer`, `nextRng`: the abstract service, with `rng_state` as its only state
- `Serves`: a call gives an answer and touches nothing else
- `invoke_serves`: every invocation serves its answer
-/

namespace OpteeRpi5.Spec

open OpteeRpi5.Native

variable {D : Type}

/-! ## Answers -/

/-- What a request is answered with. A reply stores `size` bytes at the start of
    memref `p` and sets its size. -/
inductive Answer where
  | badParameters
  | shortBuffer
  | reply (p : Fin 4) (bytes : Buf) (size : Nat)

namespace Answer

/-- The result code. -/
def result : Answer → TeeResult
  | badParameters => .badParameters
  | shortBuffer => .shortBuffer
  | reply _ _ _ => .success

/-- The parameters after the call. -/
def params : Answer → (Fin 4 → TeeParam) → Fin 4 → TeeParam
  | badParameters, params => params
  | shortBuffer, params => params
  | reply p bytes size, params => Function.update params p { params p with
      memref := ⟨(params p).memref.buffer.copy 0 bytes 0 size, size⟩ }

/-- What becomes of a parameter depends on that parameter only. -/
theorem params_congr (ans : Answer) {ps ps' : Fin 4 → TeeParam} {p : Fin 4} (h : ps p = ps' p) :
    ans.params ps p = ans.params ps' p := by
  cases ans with
  | badParameters => exact h
  | shortBuffer => exact h
  | reply q bytes size =>
    by_cases hq : p = q
    · subst hq
      rw [params, params, Function.update_self, Function.update_self, h]
    · rw [params, params, Function.update_of_ne hq, Function.update_of_ne hq, h]

/-- The bytes a call stores. -/
def Stores : Answer → Fin 4 → Nat → Prop
  | badParameters, _, _ => False
  | shortBuffer, _, _ => False
  | reply p _ size, p', off => p' = p ∧ off < size

/-- A reply goes to an output memref that is long enough. -/
def Fits (pt : UInt32) (params : Fin 4 → TeeParam) : Answer → Prop
  | badParameters => True
  | shortBuffer => True
  | reply p _ size => teeParamTypeGet pt p = teeParamTypeMemrefOutput ∧
      size ≤ (params p).memref.size

end Answer

/-- The answer to an inference, given the outcome of the model dispatch. -/
def outputAnswer (params : Fin 4 → TeeParam) : Option QaiOutput → Answer
  | none => .badParameters
  | some out =>
    if (params 1).memref.size < sizeofQaiOutput then .shortBuffer
    else .reply 1 out.toBuf sizeofQaiOutput

/-- An output answer looks at the second parameter only. -/
theorem outputAnswer_congr {params params' : Fin 4 → TeeParam} (h : params 1 = params' 1)
    (out : Option QaiOutput) : outputAnswer params out = outputAnswer params' out := by
  cases out with
  | none => rfl
  | some out => rw [outputAnswer, outputAnswer, h]

/-- The answer to `INFER_BASELINE`, `INFER_TINYML` and `INFER_QAI`. -/
def plainAnswer (pt modelId : UInt32) (params : Fin 4 → TeeParam) : Answer :=
  let b := (params 0).memref.buffer
  if pt ≠ expMemrefs then .badParameters
  else if (params 0).memref.size < sizeofQaiInput then .badParameters
  else if b.le32 0 = 0 ∨ (b.le32 0).toNat > qaiMaxFeatures then .badParameters
  else outputAnswer params (inferModel modelId (inputFeatures b) (b.le32 0))

/-- The features of a protected message with `n` of them. -/
def protectedFeatures (b : Buf) (n : UInt32) : Nat → Int32 := fun i =>
  ((qaiXorCrypt b offQaiProtectedCipher (n * 4).toNat).le32
    (offQaiProtectedCipher + 4 * i)).toInt32

/-- The answer to `INFER_PROTECTED`. -/
def protectedAnswer (pt : UInt32) (params : Fin 4 → TeeParam) : Answer :=
  let b := (params 0).memref.buffer
  if pt ≠ expMemrefs then .badParameters
  else if (params 0).memref.size < sizeofQaiProtectedInput then .badParameters
  else if b.le32 0 = 0 ∨ (b.le32 0).toNat > qaiMaxFeatures then .badParameters
  else outputAnswer params (inferModel (b.le32 4) (protectedFeatures b (b.le32 0)) (b.le32 0))

/-- The answer to `GET_INFO`. -/
def infoAnswer (pt : UInt32) (params : Fin 4 → TeeParam) : Answer :=
  if pt ≠ teeParamTypes teeParamTypeMemrefOutput teeParamTypeNone teeParamTypeNone
    teeParamTypeNone then .badParameters
  else if (params 0).memref.size < sizeofQaiInfo then .shortBuffer
  else .reply 0 qaiInfo.toBuf sizeofQaiInfo

/-- The answer to `HAI_INFER`. -/
def haiAnswer (pt : UInt32) (params : Fin 4 → TeeParam) (elapsed : UInt32) : Answer :=
  let b := (params 0).memref.buffer
  let model := b.le32 0
  let n := b.le32 4
  let needIn : UInt32 := UInt32.ofNat sizeofQaiHaiInferIn + n * UInt32.ofNat qaiHaiFeat * 4
  let needOut : UInt32 := UInt32.ofNat sizeofQaiHaiInferOut + n
  if pt ≠ expMemrefs then .badParameters
  else if (params 0).memref.size < sizeofQaiHaiInferIn then .badParameters
  else if (params 0).memref.size < needIn.toNat ∨ (params 1).memref.size < needOut.toNat then
    .shortBuffer
  else if ¬ HaiArgs model n (if b.le32 8 ≠ 0 then b.le32 8 else 1) then .badParameters
  else .reply 1 ((blockOutBuf elapsed n).append sizeofQaiHaiInferOut
    (fun i => haiDecide model (haiRow b sizeofQaiHaiInferIn i)))
    (sizeofQaiHaiInferOut + n.toNat)

section Circuit

variable (D) [RatCast D] [Add D] [Sub D] [Mul D] [Neg D] [Div D] [LT D] [DecidableLT D]
  [FloatConv D]

/-- The answer to `BENCH_FIDELITY`. -/
def benchAnswer (pt : UInt32) (params : Fin 4 → TeeParam) (rng elapsed : UInt32) : Answer :=
  if pt ≠ teeParamTypes teeParamTypeValueInput teeParamTypeMemrefOutput teeParamTypeNone
    teeParamTypeNone then .badParameters
  else if (params 1).memref.size < sizeofQaiFidelityBench then .shortBuffer
  else if (params 0).a > 20000 then .badParameters
  else .reply 1 (benchResult D rng elapsed (params 0).a).toBuf sizeofQaiFidelityBench

/-- The generator state after `BENCH_FIDELITY`. -/
def benchRng (pt : UInt32) (params : Fin 4 → TeeParam) (rng : UInt32) : UInt32 :=
  if pt ≠ teeParamTypes teeParamTypeValueInput teeParamTypeMemrefOutput teeParamTypeNone
    teeParamTypeNone then rng
  else if (params 1).memref.size < sizeofQaiFidelityBench then rng
  else if (params 0).a > 20000 then rng
  else afterVectors (2 * (params 0).a.toNat + 1) rng

/-- The kernel values of a block, in query-major order. -/
def blockEntries (n reps : Nat) (inp : Buf) (query ref nRef : Nat) : Buf := fun i =>
  Buf.byteOf (kernelEntry D n reps inp query ref (i / 4 / nRef) (i / 4 % nRef)) (i % 4)

/-- The answer to `QOC_BLOCK` and `QMOC_BLOCK`. -/
def blockAnswer (pt reps : UInt32) (params : Fin 4 → TeeParam) (elapsed : UInt32) : Answer :=
  let b := (params 0).memref.buffer
  let nRef := b.le32 0
  let nQuery := b.le32 4
  let nQubits := b.le32 8
  let needIn : UInt32 := UInt32.ofNat sizeofQaiKernelBlockIn +
    (nRef + nQuery) * (nQubits * 2) * 4
  let needOut : UInt32 := UInt32.ofNat sizeofQaiKernelBlockOut + nRef * nQuery * 4
  if pt ≠ expMemrefs then .badParameters
  else if (params 0).memref.size < sizeofQaiKernelBlockIn then .badParameters
  else if nQubits ≠ 8 ∧ nQubits ≠ 16 then .badParameters
  else if (params 0).memref.size < needIn.toNat ∨ (params 1).memref.size < needOut.toNat then
    .shortBuffer
  else if ¬ BlockAccepts nRef nQuery reps nQubits then .badParameters
  else .reply 1 ((blockOutBuf elapsed (nRef * nQuery)).append sizeofQaiKernelBlockOut
    (blockEntries D nQubits.toNat reps.toNat b
      (sizeofQaiKernelBlockIn + 4 * (nRef.toNat * (2 * nQubits.toNat)))
      sizeofQaiKernelBlockIn nRef.toNat))
    (sizeofQaiKernelBlockOut + 4 * (nRef.toNat * nQuery.toNat))

/-- The answer to a request. -/
def answer (req : Request) (rng elapsed : UInt32) : Answer :=
  if req.cmdId = taQaiCmdInferBaseline then plainAnswer req.paramTypes qaiModelBaseline req.params
  else if req.cmdId = taQaiCmdInferTinyml then
    plainAnswer req.paramTypes qaiModelTinyml req.params
  else if req.cmdId = taQaiCmdInferQai then plainAnswer req.paramTypes qaiModelQai req.params
  else if req.cmdId = taQaiCmdInferProtected then protectedAnswer req.paramTypes req.params
  else if req.cmdId = taQaiCmdGetInfo then infoAnswer req.paramTypes req.params
  else if req.cmdId = taQaiCmdBenchFidelity then
    benchAnswer D req.paramTypes req.params rng elapsed
  else if req.cmdId = taQaiCmdQocBlock then blockAnswer D req.paramTypes 3 req.params elapsed
  else if req.cmdId = taQaiCmdHaiInfer then haiAnswer req.paramTypes req.params elapsed
  else if req.cmdId = taQaiCmdQmocBlock then blockAnswer D req.paramTypes 1 req.params elapsed
  else .badParameters

variable {D} {req : Request} (rng elapsed : UInt32)

/-- QOC uses three repetitions of the layer. -/
theorem answer_qocBlock (h : req.cmdId = taQaiCmdQocBlock) :
    answer D req rng elapsed = blockAnswer D req.paramTypes 3 req.params elapsed := by
  rw [answer, if_neg (by rw [h]; decide), if_neg (by rw [h]; decide),
    if_neg (by rw [h]; decide), if_neg (by rw [h]; decide), if_neg (by rw [h]; decide),
    if_neg (by rw [h]; decide), if_pos h]

/-- QMOC uses one. -/
theorem answer_qmocBlock (h : req.cmdId = taQaiCmdQmocBlock) :
    answer D req rng elapsed = blockAnswer D req.paramTypes 1 req.params elapsed := by
  rw [answer, if_neg (by rw [h]; decide), if_neg (by rw [h]; decide),
    if_neg (by rw [h]; decide), if_neg (by rw [h]; decide), if_neg (by rw [h]; decide),
    if_neg (by rw [h]; decide), if_neg (by rw [h]; decide), if_neg (by rw [h]; decide),
    if_pos h]

theorem answer_haiInfer (h : req.cmdId = taQaiCmdHaiInfer) :
    answer D req rng elapsed = haiAnswer req.paramTypes req.params elapsed := by
  rw [answer, if_neg (by rw [h]; decide), if_neg (by rw [h]; decide),
    if_neg (by rw [h]; decide), if_neg (by rw [h]; decide), if_neg (by rw [h]; decide),
    if_neg (by rw [h]; decide), if_neg (by rw [h]; decide), if_pos h]

/-- The three plain commands differ in the model. -/
theorem answer_inferBaseline (h : req.cmdId = taQaiCmdInferBaseline) :
    answer D req rng elapsed = plainAnswer req.paramTypes qaiModelBaseline req.params := by
  rw [answer, if_pos h]

theorem answer_inferTinyml (h : req.cmdId = taQaiCmdInferTinyml) :
    answer D req rng elapsed = plainAnswer req.paramTypes qaiModelTinyml req.params := by
  rw [answer, if_neg (by rw [h]; decide), if_pos h]

theorem answer_inferQai (h : req.cmdId = taQaiCmdInferQai) :
    answer D req rng elapsed = plainAnswer req.paramTypes qaiModelQai req.params := by
  rw [answer, if_neg (by rw [h]; decide), if_neg (by rw [h]; decide), if_pos h]

/-- The protected command takes the model from the message. -/
theorem answer_inferProtected (h : req.cmdId = taQaiCmdInferProtected) :
    answer D req rng elapsed = protectedAnswer req.paramTypes req.params := by
  rw [answer, if_neg (by rw [h]; decide), if_neg (by rw [h]; decide),
    if_neg (by rw [h]; decide), if_pos h]

end Circuit

/-- The generator state after a request. -/
def nextRng (req : Request) (rng : UInt32) : UInt32 :=
  if req.cmdId = taQaiCmdBenchFidelity then benchRng req.paramTypes req.params rng else rng

/-! ## Calls that serve an answer -/

/-- The memref sizes of a state. -/
def sizes (t : Ta D) : Fin 4 → Nat := fun p => (t.params p).memref.size

/-- A call that starts in `t₀` and ends with result code and state `r` serves `ans`. -/
structure Serves (pt : UInt32) (t₀ : Ta D) (ans : Answer) (rng : UInt32)
    (r : TeeResult × Ta D) : Prop where
  result : r.1 = ans.result
  params : r.2.params = ans.params t₀.params
  rngState : r.2.kern.rngState = rng
  safe : TaSafe pt (sizes t₀) r.2
  stores : ∀ p off, .store p off ∈ r.2.log ↔ ans.Stores p off
  fits : ans.Fits pt t₀.params

/-- A branch of the switch over the commands. -/
private theorem Serves.ite {pt rng : UInt32} {t₀ t : Ta D} {ans ans' : Answer} {c : Prop}
    [Decidable c] {m m' : TaM D TeeResult} (h : c → Serves pt t₀ ans rng (m.run t))
    (h' : ¬ c → Serves pt t₀ ans' rng (m'.run t)) :
    Serves pt t₀ (if c then ans else ans') rng ((if c then m else m').run t) := by
  by_cases hc : c
  · rw [if_pos hc, if_pos hc]
    exact h hc
  · rw [if_neg hc, if_neg hc]
    exact h' hc

/-- Up to `t` the call has changed no memref. -/
structure Quiet (pt : UInt32) (t₀ t : Ta D) : Prop where
  params : t.params = t₀.params
  rngState : t.kern.rngState = t₀.kern.rngState
  safe : TaSafe pt (sizes t₀) t
  noStore : ∀ p off, .store p off ∉ t.log

namespace Quiet

variable {pt : UInt32} {t₀ t : Ta D}

/-- Nothing has been read at the start of a call. -/
theorem enter (pt : UInt32) (st : Statics D) (stk : Stack D) (params : Fin 4 → TeeParam) :
    Quiet pt (Ta.enter st stk params) (Ta.enter st stk params) :=
  ⟨rfl, rfl, ⟨fun _ ha => (nomatch ha), fun _ ha => (nomatch ha)⟩, fun _ _ ha => (nomatch ha)⟩

/-- Reading inside an input parameter is quiet. -/
theorem load (h : Quiet pt t₀ t) (p : Fin 4) (off n : Nat)
    (hp : teeParamTypeGet pt p = teeParamTypeMemrefInput) (hn : off + n ≤ sizes t₀ p) :
    Quiet pt t₀ ((loadBytes p off n).run t).2 := by
  refine ⟨h.params, h.rngState, ⟨h.safe.1, ?_⟩, ?_⟩
  · intro a ha
    simp only [run_loadBytes, List.mem_append, List.mem_map, List.mem_range] at ha
    rcases ha with ⟨i, hi, rfl⟩ | ha
    · exact ⟨hp, by omega⟩
    · exact h.safe.2 a ha
  · intro p' off' ha
    simp only [run_loadBytes, List.mem_append, List.mem_map, reduceCtorEq, and_false,
      exists_false, false_or] at ha
    exact h.noStore p' off' ha

/-- Local structures are not memrefs. -/
theorem locals (h : Quiet pt t₀ t) (pin inp : Buf) :
    Quiet pt t₀ { t with pin := pin, inp := inp } :=
  ⟨h.params, h.rngState, h.safe, h.noStore⟩

/-- A quiet call may refuse its parameters. -/
theorem badParameters (h : Quiet pt t₀ t) :
    Serves pt t₀ .badParameters t₀.kern.rngState (.badParameters, t) :=
  ⟨rfl, h.params, h.rngState, h.safe, fun p off => iff_of_false (h.noStore p off) id, trivial⟩

/-- It may find the output buffer too short. -/
theorem shortBuffer (h : Quiet pt t₀ t) :
    Serves pt t₀ .shortBuffer t₀.kern.rngState (.shortBuffer, t) :=
  ⟨rfl, h.params, h.rngState, h.safe, fun p off => iff_of_false (h.noStore p off) id, trivial⟩

end Quiet

/-- The state after the stores and the size update of a reply. -/
structure Replied (pt : UInt32) (t₀ : Ta D) (p : Fin 4) (bytes : Buf) (n : Nat) (t : Ta D) :
    Prop where
  params : t.params = (Answer.reply p bytes n).params t₀.params
  safe : TaSafe pt (sizes t₀) t
  stores : ∀ p' off, .store p' off ∈ t.log ↔ p' = p ∧ off < n

/-- A call that has replied serves the reply. -/
theorem Replied.serves {pt rng : UInt32} {t₀ t : Ta D} {p : Fin 4} {bytes : Buf} {n : Nat}
    (h : Replied pt t₀ p bytes n t) (hrng : t.kern.rngState = rng)
    (hp : teeParamTypeGet pt p = teeParamTypeMemrefOutput) (hn : n ≤ sizes t₀ p) :
    Serves pt t₀ (.reply p bytes n) rng (.success, t) :=
  ⟨rfl, h.params, hrng, h.safe, h.stores, hp, hn⟩

/-- A reply in one `TEE_MemMove`. -/
theorem Replied.of_store {pt : UInt32} {t₀ t : Ta D} (p : Fin 4) (bytes : Buf) (n : Nat)
    (hparams : t.params = t₀.params) (hsafe : TaSafe pt (sizes t₀) t)
    (hno : ∀ p off, .store p off ∉ t.log)
    (hp : teeParamTypeGet pt p = teeParamTypeMemrefOutput) (hn : n ≤ sizes t₀ p) :
    Replied pt t₀ p bytes n
      ((setMemrefSize p n).run ((storeBytes p 0 bytes n).run t).2).2 := by
  simp only [run_storeBytes, run_setMemrefSize, Function.update_self, Function.update_idem,
    hparams]
  refine ⟨rfl, ⟨hsafe.1, ?_⟩, ?_⟩
  · intro a ha
    simp only [List.mem_append, List.mem_map, List.mem_range] at ha
    rcases ha with ⟨i, hi, rfl⟩ | ha
    · exact ⟨hp, by omega⟩
    · exact hsafe.2 a ha
  · intro p' off
    -- the stores of this copy are the only ones of the call
    simp only [List.mem_append, List.mem_map, List.mem_range, Access.store.injEq]
    constructor
    · rintro (⟨i, hi, rfl, rfl⟩ | ha)
      · exact ⟨rfl, by omega⟩
      · exact absurd ha (hno p' off)
    · rintro ⟨rfl, hoff⟩
      exact Or.inl ⟨off, hoff, rfl, by omega⟩

/-! ## Parameter types -/

theorem expMemrefs_zero : teeParamTypeGet expMemrefs 0 = teeParamTypeMemrefInput := by decide

theorem expMemrefs_one : teeParamTypeGet expMemrefs 1 = teeParamTypeMemrefOutput := by decide

/-! ## Inference -/

/-- `write_output`. -/
private theorem writeOutput_serves {t₀ t : Ta D} (h : Quiet expMemrefs t₀ t) (out : QaiOutput) :
    Serves expMemrefs t₀ (outputAnswer t₀.params (some out)) t₀.kern.rngState
      ((writeOutput 1 out).run t) := by
  unfold outputAnswer
  simp only [writeOutput, StateM.run_bind, run_memrefSize, StateM.run_ite, StateM.run_pure,
    h.params]
  split
  · exact h.shortBuffer
  · next hsize =>
    exact (Replied.of_store 1 out.toBuf sizeofQaiOutput h.params h.safe h.noStore
      expMemrefs_one (Nat.not_lt.mp hsize)).serves h.rngState expMemrefs_one (Nat.not_lt.mp hsize)

/-- The answer to the outcome of the model dispatch. -/
private theorem dispatch_serves {t₀ t : Ta D} (h : Quiet expMemrefs t₀ t)
    (out : Option QaiOutput) :
    Serves expMemrefs t₀ (outputAnswer t₀.params out) t₀.kern.rngState
      ((match out with
        | none => (pure .badParameters : TaM D TeeResult)
        | some out => writeOutput 1 out).run t) := by
  cases out with
  | none => exact h.badParameters
  | some out => exact writeOutput_serves h out

/-- The state after `copy_input` has copied. -/
private def inputCopied (t : Ta D) : Ta D :=
  let t' := ((loadBytes 0 0 sizeofQaiInput).run t).2
  { t' with inp := t.inp.copy 0 (bytesOf t 0) 0 sizeofQaiInput }

/-- The copy of the input holds its words. -/
private theorem le32_inputCopied (t : Ta D) {i : Nat} (hi : i + 4 ≤ sizeofQaiInput) :
    (inputCopied t).inp.le32 i = (bytesOf t 0).le32 i := by
  have h : (t.inp.copy 0 (bytesOf t 0) 0 sizeofQaiInput).le32 (0 + i) =
      (bytesOf t 0).le32 (0 + i) := Buf.le32_copy_inside t.inp (bytesOf t 0) hi
  rw [Nat.zero_add] at h
  exact h

/-- The checks of the plain input, before and after the copy. -/
private theorem run_copyInput (t : Ta D) : (copyInput 0).run t =
    if (t.params 0).memref.size < sizeofQaiInput then (.badParameters, t)
    else if (bytesOf t 0).le32 0 = 0 ∨ ((bytesOf t 0).le32 0).toNat > qaiMaxFeatures then
      (.badParameters, inputCopied t)
    else (.success, inputCopied t) := by
  have hsrc : (fun i => (t.params 0).memref.buffer (0 + i)) = bytesOf t 0 := by
    funext i
    rw [Nat.zero_add, bytesOf]
  by_cases hsize : (t.params 0).memref.size < sizeofQaiInput
  · simp only [copyInput, StateM.run_bind, run_memrefSize, if_pos hsize, StateM.run_pure]
  rw [← le32_inputCopied t (by decide)]
  simp only [copyInput, StateM.run_bind, run_memrefSize, if_neg hsize, StateM.run_pure,
    run_loadBytes, run_modifyInp, run_getInp, hsrc, StateM.run_ite]
  rfl

/-- `cmd_infer_plain`. -/
theorem cmdInferPlain_serves (pt modelId : UInt32) {t : Ta D} (h : Quiet pt t t) :
    Serves pt t (plainAnswer pt modelId t.params) t.kern.rngState
      ((cmdInferPlain pt modelId).run t) := by
  unfold plainAnswer
  by_cases hpt : pt ≠ expMemrefs
  · simp only [cmdInferPlain, if_pos hpt, StateM.run_pure]
    exact h.badParameters
  obtain rfl := not_not.mp hpt
  simp only [cmdInferPlain, if_neg hpt, StateM.run_bind, run_copyInput]
  by_cases hsize : (t.params 0).memref.size < sizeofQaiInput
  · simp only [if_pos hsize]
    exact h.badParameters
  have hcopied : Quiet expMemrefs t (inputCopied t) :=
    (h.load 0 0 _ expMemrefs_zero (by simp only [sizes]; omega)).locals _ _
  simp only [if_neg hsize]
  by_cases hn : (bytesOf t 0).le32 0 = 0 ∨ ((bytesOf t 0).le32 0).toNat > qaiMaxFeatures
  · have hn' := hn
    simp only [bytesOf] at hn'
    simp only [if_pos hn, if_pos hn']
    exact hcopied.badParameters
  have hn' := hn
  simp only [bytesOf] at hn'
  simp only [if_neg hn, if_neg hn']
  -- the models look at features of the copy that were copied
  have hmodel : inferModel modelId (inputFeatures (t.params 0).memref.buffer)
      ((t.params 0).memref.buffer.le32 0) =
      inferModel modelId (inputFeatures (inputCopied t).inp) ((inputCopied t).inp.le32 0) := by
    rw [le32_inputCopied t (by decide)]
    apply inferModel_congr
    intro i hi
    have hlim := featureLim_le_count ((t.params 0).memref.buffer.le32 0)
    simp only [qaiFeatureCount] at hlim
    simp only [inputFeatures]
    rw [le32_inputCopied t (by simp only [offQaiInputFeatures, sizeofQaiInput]; omega)]
    rfl
  have hok : ¬ (TeeResult.success ≠ TeeResult.success) := by decide
  simp only [if_neg hok, StateM.run_bind, run_getInp, hmodel, inferPlainSwitch_eq]
  exact dispatch_serves hcopied _

/-! ## Protected inference -/

/-- `pin` after the copy. -/
def pinCopied (t : Ta D) : Buf :=
  t.pin.copy 0 (bytesOf t 0) 0 sizeofQaiProtectedInput

/-- `pin` after the decryption of `n` features. -/
def pinPlain (t : Ta D) (n : UInt32) : Buf :=
  qaiXorCrypt (pinCopied t) offQaiProtectedCipher (n * 4).toNat

/-- The decrypted message. -/
private theorem pinPlain_eq (t : Ta D) (n : UInt32) :
    qaiXorCrypt (t.pin.copy 0 (bytesOf t 0) 0 sizeofQaiProtectedInput) offQaiProtectedCipher
      (n * 4).toNat = pinPlain t n := (rfl)

/-- `in` after the features of a decrypted message have been moved into it. -/
def inpPlain (inp pin : Buf) (len : Nat) : Buf :=
  ((inp.fill 0 sizeofQaiInput 0).putLe32 0 (pin.le32 0)).copy offQaiInputFeatures
    pin offQaiProtectedCipher len

/-- The plain input that is made of it. -/
private theorem inpPlain_eq (inp pin : Buf) (len : Nat) :
    ((inp.fill 0 sizeofQaiInput 0).putLe32 0 (pin.le32 0)).copy offQaiInputFeatures
      pin offQaiProtectedCipher len = inpPlain inp pin len := (rfl)

/-- The copy of the message is byte by byte. -/
private theorem pinCopied_apply (t : Ta D) {i : Nat} (hi : i < sizeofQaiProtectedInput) :
    pinCopied t i = bytesOf t 0 i := by
  have h : (t.pin.copy 0 (bytesOf t 0) 0 sizeofQaiProtectedInput) (0 + i) =
      bytesOf t 0 (0 + i) := Buf.copy_inside t.pin (bytesOf t 0) hi
  rw [Nat.zero_add] at h
  exact h

/-- The header of the message is not encrypted. -/
theorem le32_pinPlain_header (t : Ta D) (n : UInt32) {i : Nat} (hi : i + 4 ≤ 8) :
    (pinPlain t n).le32 i = (bytesOf t 0).le32 i := by
  apply Buf.le32_congr
  intro k hk
  rw [pinPlain, qaiXorCrypt_apply, if_neg (by simp only [offQaiProtectedCipher]; omega)]
  exact pinCopied_apply t (by simp only [sizeofQaiProtectedInput]; omega)

/-- The count is taken from the message. -/
theorem le32_inpPlain_zero (inp pin : Buf) (len : Nat) :
    (inpPlain inp pin len).le32 0 = pin.le32 0 := by
  rw [inpPlain, Buf.le32_copy_outside _ _ (Or.inl (by decide)), Buf.le32_putLe32]

/-- Every feature of the message reaches `in` decrypted. -/
private theorem inputFeatures_inpPlain (t : Ta D) {n : UInt32} (hn : n.toNat ≤ qaiMaxFeatures)
    {i : Nat} (hi : i < n.toNat) :
    inputFeatures (inpPlain t.inp (pinPlain t n) (n * 4).toNat) i =
      protectedFeatures (bytesOf t 0) n i := by
  have hlen : (n * 4).toNat = n.toNat * 4 :=
    UInt32.toNat_mul_of_le hn (Nat.le_refl 4) (by decide)
  simp only [inputFeatures, protectedFeatures, inpPlain]
  rw [Buf.le32_copy_inside _ _ (by omega)]
  congr 1
  apply Buf.le32_congr
  intro k hk
  -- the copy of the message agrees with the message on the whole cipher
  rw [pinPlain, qaiXorCrypt_apply, qaiXorCrypt_apply, pinCopied_apply t]
  simp only [qaiMaxFeatures] at hn
  simp only [offQaiProtectedCipher, sizeofQaiProtectedInput]
  omega

/-- What the models are run on, in terms of the message. -/
private theorem inferModel_inpPlain (t : Ta D)
    (hn : ((bytesOf t 0).le32 0).toNat ≤ qaiMaxFeatures) :
    let n := (bytesOf t 0).le32 0
    let inp := inpPlain t.inp (pinPlain t n) (n * 4).toNat
    inferModel ((pinPlain t n).le32 4) (inputFeatures inp) (inp.le32 0) =
      inferModel ((bytesOf t 0).le32 4) (protectedFeatures (bytesOf t 0) n) n := by
  intro n inp
  rw [le32_inpPlain_zero, le32_pinPlain_header t _ (by omega),
    le32_pinPlain_header t _ (by omega)]
  apply inferModel_congr
  intro i hi
  exact inputFeatures_inpPlain t hn (lt_of_lt_of_le hi (featureLim_le_toNat _))

/-- The end of `cmd_infer_protected`: the locals are wiped before the output is
    written. -/
private theorem wipe_serves {t₀ t : Ta D} (h : Quiet expMemrefs t₀ t)
    (out : Option QaiOutput) :
    Serves expMemrefs t₀ (outputAnswer t₀.params out) t₀.kern.rngState
      ((match out with
        | none => (pure .badParameters : TaM D TeeResult)
        | some out => do
          modifyInp fun inp => inp.fill 0 sizeofQaiInput 0
          modifyPin fun pin => pin.fill 0 sizeofQaiProtectedInput 0
          writeOutput 1 out).run t) := by
  cases out with
  | none => exact h.badParameters
  | some out =>
    simp only [StateM.run_bind, run_modifyInp, run_modifyPin]
    exact writeOutput_serves (h.locals _ _) out

/-- The checks of `cmd_infer_protected` before the decryption. -/
structure Decrypts (t : Ta D) : Prop where
  size : sizeofQaiProtectedInput ≤ (t.params 0).memref.size
  features : ¬ ((bytesOf t 0).le32 0 = 0 ∨ ((bytesOf t 0).le32 0).toNat > qaiMaxFeatures)

/-- The state of `cmd_infer_protected` at the dispatch on the model. -/
def decrypted (t : Ta D) : Ta D :=
  let n := (bytesOf t 0).le32 0
  { t with
    pin := pinPlain t n
    inp := inpPlain t.inp (pinPlain t n) (n * 4).toNat
    log := (List.range sizeofQaiProtectedInput).map (fun i => .load 0 (0 + i)) ++ t.log }

/-- What the copy of a message finds at its start. -/
private theorem le32_pinCopied_zero (t : Ta D) :
    (t.pin.copy 0 (bytesOf t 0) 0 sizeofQaiProtectedInput).le32 0 = (bytesOf t 0).le32 0 :=
  Buf.le32_congr fun k hk => pinCopied_apply t (by simp only [sizeofQaiProtectedInput]; omega)

/-- A message that passes the checks is decrypted, and the models are run on it. -/
theorem run_cmdInferProtected {t : Ta D} (h : Decrypts t) :
    (cmdInferProtected expMemrefs).run t =
      (match inferModel ((bytesOf t 0).le32 4)
          (protectedFeatures (bytesOf t 0) ((bytesOf t 0).le32 0)) ((bytesOf t 0).le32 0) with
        | none => (pure .badParameters : TaM D TeeResult)
        | some out => do
          modifyInp fun inp => inp.fill 0 sizeofQaiInput 0
          modifyPin fun pin => pin.fill 0 sizeofQaiProtectedInput 0
          writeOutput 1 out).run (decrypted t) := by
  have hpt : ¬ (expMemrefs ≠ expMemrefs) := not_not.mpr rfl
  have hsize : ¬ (t.params 0).memref.size < sizeofQaiProtectedInput := Nat.not_lt.mpr h.size
  have hsrc : (fun i => (t.params 0).memref.buffer (0 + i)) = bytesOf t 0 := by
    funext i
    rw [Nat.zero_add, bytesOf]
  rw [← inferModel_inpPlain t (Nat.not_lt.mp (not_or.mp h.features).2)]
  simp only [cmdInferProtected, if_neg hpt, StateM.run_bind, run_memrefSize, if_neg hsize,
    run_loadBytes, run_modifyPin, run_getPin, hsrc, le32_pinCopied_zero, if_neg h.features,
    pinPlain_eq, run_modifyInp, run_getInp, inferProtectedSwitch_eq, inpPlain_eq]
  rfl

/-- `cmd_infer_protected`. -/
theorem cmdInferProtected_serves (pt : UInt32) {t : Ta D} (h : Quiet pt t t) :
    Serves pt t (protectedAnswer pt t.params) t.kern.rngState
      ((cmdInferProtected pt).run t) := by
  unfold protectedAnswer
  by_cases hpt : pt ≠ expMemrefs
  · simp only [cmdInferProtected, if_pos hpt, StateM.run_pure]
    exact h.badParameters
  obtain rfl := not_not.mp hpt
  by_cases hsize : (t.params 0).memref.size < sizeofQaiProtectedInput
  · simp only [cmdInferProtected, if_neg hpt, StateM.run_bind, run_memrefSize, if_pos hsize,
      StateM.run_pure]
    exact h.badParameters
  -- the struct is copied before its count is checked
  have hload := h.load 0 0 _ expMemrefs_zero
    (by simp only [sizes, Nat.zero_add]; exact Nat.not_lt.mp hsize)
  simp only [run_loadBytes] at hload
  have hbuf : (t.params 0).memref.buffer = bytesOf t 0 := rfl
  simp only [if_neg hpt, if_neg hsize, hbuf]
  by_cases hn : (bytesOf t 0).le32 0 = 0 ∨ ((bytesOf t 0).le32 0).toNat > qaiMaxFeatures
  · have hsrc : (fun i => (t.params 0).memref.buffer (0 + i)) = bytesOf t 0 := by
      funext i
      rw [Nat.zero_add, bytesOf]
    simp only [cmdInferProtected, if_neg hpt, StateM.run_bind, run_memrefSize, if_neg hsize,
      run_loadBytes, run_modifyPin, run_getPin, hsrc, le32_pinCopied_zero, if_pos hn,
      StateM.run_pure]
    exact (hload.locals _ _).badParameters
  rw [if_neg hn, run_cmdInferProtected ⟨Nat.not_lt.mp hsize, hn⟩]
  exact wipe_serves (hload.locals _ _) _

/-! ## Information -/

/-- `cmd_get_info`. -/
theorem cmdGetInfo_serves (pt : UInt32) {t : Ta D} (h : Quiet pt t t) :
    Serves pt t (infoAnswer pt t.params) t.kern.rngState ((cmdGetInfo pt).run t) := by
  unfold infoAnswer
  by_cases hpt : pt ≠ teeParamTypes teeParamTypeMemrefOutput teeParamTypeNone teeParamTypeNone
      teeParamTypeNone
  · simp only [cmdGetInfo, if_pos hpt, StateM.run_pure]
    exact h.badParameters
  have hout : teeParamTypeGet pt 0 = teeParamTypeMemrefOutput := by
    rw [not_not.mp hpt]
    decide
  simp only [cmdGetInfo, if_neg hpt, StateM.run_bind, run_memrefSize]
  by_cases hsize : (t.params 0).memref.size < sizeofQaiInfo
  · simp only [if_pos hsize, StateM.run_pure]
    exact h.shortBuffer
  · simp only [if_neg hsize, StateM.run_bind, StateM.run_pure]
    exact (Replied.of_store 0 qaiInfo.toBuf sizeofQaiInfo rfl h.safe h.noStore hout
      (Nat.not_lt.mp hsize)).serves rfl hout (Nat.not_lt.mp hsize)

/-! ## HAI rows -/

/-- Loading the header of a request. -/
private theorem le32_loaded (t : Ta D) (n i : Nat) :
    Buf.le32 ((loadBytes 0 0 n).run t).1 i = (bytesOf t 0).le32 i := by
  apply Buf.le32_congr
  intro k _
  simp only [run_loadBytes, Nat.zero_add, bytesOf]

/-- The row loops keep a call quiet when the rows lie in the input memref. -/
private theorem HaiFrame.quiet {t₀ t t' : Ta D} {rows n : Nat} (hf : HaiFrame rows n t t')
    (h : Quiet expMemrefs t₀ t) (hn : n ≤ qaiHaiMaxRows)
    (hrows : rows + 4 * (n * qaiHaiFeat) ≤ sizes t₀ 0) : Quiet expMemrefs t₀ t' := by
  have hkern := hf.kern
  refine ⟨hf.params.trans h.params, by rw [hkern]; exact h.rngState,
    ⟨by rw [hkern]; exact h.safe.1, ?_⟩, ?_⟩
  · intro a ha
    rcases hf.log a ha with hold | ⟨i, hi, rfl | ⟨j, hj, rfl⟩⟩
    · exact h.safe.2 a hold
    · exact lt_of_lt_of_le hi hn
    · simp only [qaiHaiFeat] at hrows hj ⊢
      exact ⟨expMemrefs_zero, by omega⟩
  · intro p off ha
    rcases hf.log _ ha with hold | ⟨i, hi, hnew | ⟨j, hj, hnew⟩⟩
    · exact h.noStore p off hold
    · cases hnew
    · cases hnew

/-- `cmd_hai_infer` from the point where the decisions are in `pred`. -/
private theorem haiReply {t₀ t : Ta D} (h : Quiet expMemrefs t₀ t) (hdr : Buf) {n : Nat}
    (hn : n ≤ qaiHaiMaxRows) (hsize : sizeofQaiHaiInferOut + n ≤ sizes t₀ 1) :
    Replied expMemrefs t₀ 1 (hdr.append sizeofQaiHaiInferOut t.pred) (sizeofQaiHaiInferOut + n)
      ((do storeBytes 1 0 hdr sizeofQaiHaiInferOut
           let pred ← readPreds n
           storeBytes 1 sizeofQaiHaiInferOut pred n
           setMemrefSize 1 (sizeofQaiHaiInferOut + n) : TaM D Unit).run t).2 := by
  simp only [StateM.run_bind, run_storeBytes, run_readPreds, run_setMemrefSize,
    Function.update_self, Function.update_idem, h.params, Buf.copy_copy_append]
  refine ⟨rfl, ⟨h.safe.1, ?_⟩, ?_⟩
  · intro a ha
    simp only [List.mem_append, List.mem_map, List.mem_range] at ha
    rcases ha with ⟨i, hi, rfl⟩ | ⟨i, hi, rfl⟩ | ⟨i, hi, rfl⟩ | ha
    · exact ⟨expMemrefs_one, by omega⟩
    · exact lt_of_lt_of_le hi hn
    · exact ⟨expMemrefs_one, by omega⟩
    · exact h.safe.2 a ha
  · intro p off
    simp only [List.mem_append, List.mem_map, List.mem_range, Access.store.injEq, reduceCtorEq,
      and_false, exists_false, false_or]
    constructor
    · rintro (⟨i, hi, rfl, rfl⟩ | ⟨i, hi, rfl, rfl⟩ | ha)
      · exact ⟨rfl, by omega⟩
      · exact ⟨rfl, by omega⟩
      · exact absurd ha (h.noStore p off)
    · rintro ⟨rfl, hoff⟩
      by_cases hlow : off < sizeofQaiHaiInferOut
      · exact Or.inr (Or.inl ⟨off, hlow, rfl, by omega⟩)
      · exact Or.inl ⟨off - sizeofQaiHaiInferOut, by omega, rfl, by omega⟩

/-- `n` rows, as `uint32_t` sizes. -/
private theorem haiSizes {n : UInt32} (hn : n.toNat ≤ qaiHaiMaxRows) :
    (UInt32.ofNat sizeofQaiHaiInferIn + n * UInt32.ofNat qaiHaiFeat * 4).toNat =
      sizeofQaiHaiInferIn + 4 * (n.toNat * qaiHaiFeat) ∧
    (UInt32.ofNat sizeofQaiHaiInferOut + n).toNat = sizeofQaiHaiInferOut + n.toNat := by
  simp only [qaiHaiMaxRows] at hn
  simp only [sizeofQaiHaiInferIn, sizeofQaiHaiInferOut, qaiHaiFeat, UInt32.toNat_add,
    UInt32.toNat_mul, UInt32.toNat_ofNat', show (4 : UInt32).toNat = 4 from rfl]
  omega

/-- The answer to an HAI request that passes all checks. -/
theorem haiAnswer_accept (params : Fin 4 → TeeParam) {model n reps : UInt32}
    (hmodel : (params 0).memref.buffer.le32 0 = model)
    (hn : (params 0).memref.buffer.le32 4 = n)
    (hreps : (params 0).memref.buffer.le32 8 = reps) (h : HaiArgs model n reps)
    (hin : sizeofQaiHaiInferIn + 4 * (n.toNat * qaiHaiFeat) ≤ (params 0).memref.size)
    (hout : sizeofQaiHaiInferOut + n.toNat ≤ (params 1).memref.size) (elapsed : UInt32) :
    haiAnswer expMemrefs params elapsed =
      .reply 1 ((blockOutBuf elapsed n).append sizeofQaiHaiInferOut
        (fun i => haiDecide model (haiRow (params 0).memref.buffer sizeofQaiHaiInferIn i)))
        (sizeofQaiHaiInferOut + n.toNat) := by
  obtain ⟨hneedIn, hneedOut⟩ := haiSizes h.n_le
  have hheader : ¬ (params 0).memref.size < sizeofQaiHaiInferIn := by omega
  have hsizes : ¬ ((params 0).memref.size < sizeofQaiHaiInferIn + 4 * (n.toNat * qaiHaiFeat) ∨
      (params 1).memref.size < sizeofQaiHaiInferOut + n.toNat) := by
    omega
  unfold haiAnswer
  simp only [hmodel, hn, hreps, hneedIn, hneedOut, if_neg hheader, if_neg hsizes, ne_eq,
    h.reps_ne, not_true_eq_false, not_false_eq_true, if_true, if_false, h]

/-- A reply depends on the bytes below its size only. -/
private theorem Replied.congr {pt : UInt32} {t₀ t : Ta D} {p : Fin 4} {bytes : Buf}
    {n : Nat} (h : Replied pt t₀ p bytes n t) (bytes' : Buf)
    (hb : ∀ i < n, bytes i = bytes' i) :
    Replied pt t₀ p bytes' n t := by
  refine ⟨h.params.trans ?_, h.safe, h.stores⟩
  have hcopy : (t₀.params p).memref.buffer.copy 0 bytes 0 n =
      (t₀.params p).memref.buffer.copy 0 bytes' 0 n := by
    funext i
    simp only [Buf.copy, Nat.zero_add, Nat.sub_zero]
    split
    · next hi => exact hb i hi.2
    · rfl
  simp only [Answer.params, hcopy]

/-- `cmd_hai_infer`. -/
theorem cmdHaiInfer_serves (pt : UInt32) {t : Ta D} (h : Quiet pt t t) :
    Serves pt t (haiAnswer pt t.params (deltaMs t.t0 t.t1)) t.kern.rngState
      ((cmdHaiInfer pt).run t) := by
  unfold haiAnswer
  by_cases hpt : pt ≠ expMemrefs
  · simp only [cmdHaiInfer, if_pos hpt, StateM.run_pure]
    exact h.badParameters
  obtain rfl := not_not.mp hpt
  by_cases hhdr : (t.params 0).memref.size < sizeofQaiHaiInferIn
  · simp only [cmdHaiInfer, if_neg hpt, StateM.run_bind, run_memrefSize, if_pos hhdr,
      StateM.run_pure]
    exact h.badParameters
  have hload := h.load 0 0 _ expMemrefs_zero
    (by simp only [sizes, Nat.zero_add]; exact Nat.not_lt.mp hhdr)
  have hparams : ((loadBytes 0 0 sizeofQaiHaiInferIn).run t).2.params = t.params := hload.params
  have hbytes : bytesOf ((loadBytes 0 0 sizeofQaiHaiInferIn).run t).2 0 = bytesOf t 0 := by
    simp only [bytesOf, hparams]
  have hclock : ((loadBytes 0 0 sizeofQaiHaiInferIn).run t).2.t0 = t.t0 ∧
      ((loadBytes 0 0 sizeofQaiHaiInferIn).run t).2.t1 = t.t1 := ⟨rfl, rfl⟩
  have hbuf : (t.params 0).memref.buffer = bytesOf t 0 := rfl
  simp only [cmdHaiInfer, if_neg hpt, StateM.run_bind, run_memrefSize, if_neg hhdr,
    le32_loaded, hparams, hbuf]
  -- past the header only the three words and the sizes count
  generalize (loadBytes 0 0 sizeofQaiHaiInferIn).run t = loaded at hload hbytes hclock
  generalize hmodel : (bytesOf t 0).le32 0 = model
  generalize hn : (bytesOf t 0).le32 4 = n
  generalize (if (bytesOf t 0).le32 8 ≠ 0 then (bytesOf t 0).le32 8 else 1) = reps
  split
  · exact hload.shortBuffer
  next hsize =>
  rw [not_or, Nat.not_lt, Nat.not_lt] at hsize
  by_cases hargs : HaiArgs model n reps
  · rw [if_neg (not_not.mpr hargs)]
    obtain ⟨hin, hout⟩ := haiSizes hargs.n_le
    rw [hin, hout] at hsize
    obtain ⟨t', hrun, hf, hpred⟩ := haiInfer_run sizeofQaiHaiInferIn hargs loaded.2
    rw [hbytes] at hpred
    have hquiet := hf.quiet hload hargs.n_le hsize.1
    have hreply := (haiReply hquiet (blockOutBuf (deltaMs t.t0 t.t1) n) hargs.n_le
      hsize.2).congr ((blockOutBuf (deltaMs t.t0 t.t1) n).append sizeofQaiHaiInferOut
        (fun i => haiDecide model (haiRow (bytesOf t 0) sizeofQaiHaiInferIn i))) (by
      intro i hi
      simp only [Buf.append]
      split
      · rfl
      · exact hpred _ (by omega))
    simp only [StateM.run_bind, hrun, hclock.1, hclock.2, hout]
    exact hreply.serves hquiet.rngState expMemrefs_one hsize.2
  · rw [if_pos hargs]
    simp only [StateM.run_bind, haiInfer_reject sizeofQaiHaiInferIn hargs, StateM.run_pure]
    exact hload.badParameters

/-! ## The circuit commands -/

section Circuit

variable [RatCast D] [Add D] [Sub D] [Mul D] [Neg D] [Div D] [LT D] [DecidableLT D]
  [FloatConv D]

/-- `cmd_bench_fidelity`. -/
theorem cmdBenchFidelity_serves (pt : UInt32) {t : Ta D} (h : Quiet pt t t) :
    Serves pt t (benchAnswer D pt t.params t.kern.rngState (deltaMs t.t0 t.t1))
      (benchRng pt t.params t.kern.rngState) ((cmdBenchFidelity pt).run t) := by
  unfold benchAnswer benchRng
  by_cases hpt : pt ≠ teeParamTypes teeParamTypeValueInput teeParamTypeMemrefOutput
      teeParamTypeNone teeParamTypeNone
  · simp only [cmdBenchFidelity, if_pos hpt, StateM.run_pure]
    exact h.badParameters
  have hout : teeParamTypeGet pt 1 = teeParamTypeMemrefOutput := by
    rw [not_not.mp hpt]
    decide
  by_cases hsize : (t.params 1).memref.size < sizeofQaiFidelityBench
  · simp only [cmdBenchFidelity, if_neg hpt, StateM.run_bind, run_memrefSize, if_pos hsize,
      StateM.run_pure]
    exact h.shortBuffer
  have hrun := qaiFidelityBench_run t.t0 t.t1 (t.params 0).a t.kern
  have hsafe := qaiFidelityBench_safe t.t0 t.t1 (t.params 0).a h.safe.1
  simp only [cmdBenchFidelity, if_neg hpt, StateM.run_bind, run_memrefSize, if_neg hsize,
    StateM.run_get, run_liftKern]
  -- the bound on the evaluations is checked by the benchmark itself
  by_cases hevals : (t.params 0).a > 20000
  · rw [if_pos hevals] at hrun
    simp only [hrun, if_pos hevals, StateM.run_pure]
    exact h.badParameters
  · rw [if_neg hevals] at hrun
    simp only [hrun.1, if_neg hevals, StateM.run_bind, StateM.run_pure]
    have hparams : ({ t with
        kern := ((qaiFidelityBench t.t0 t.t1 (t.params 0).a).run t.kern).2 } : Ta D).params =
      t.params := rfl
    exact (Replied.of_store 1 _ sizeofQaiFidelityBench hparams ⟨hsafe, h.safe.2⟩ h.noStore hout
      (Nat.not_lt.mp hsize)).serves hrun.2 hout (Nat.not_lt.mp hsize)

/-- Sizes of a block that passes the checks, as `uint32_t`. -/
private theorem blockSizes {nRef nQuery reps nQubits : UInt32}
    (h : BlockAccepts nRef nQuery reps nQubits) :
    (UInt32.ofNat sizeofQaiKernelBlockIn + (nRef + nQuery) * (nQubits * 2) * 4).toNat =
      sizeofQaiKernelBlockIn + 4 * (nRef.toNat * (2 * nQubits.toNat)) +
        4 * (nQuery.toNat * (2 * nQubits.toNat)) ∧
    (UInt32.ofNat sizeofQaiKernelBlockOut + nRef * nQuery * 4).toNat =
      sizeofQaiKernelBlockOut + 4 * (nRef.toNat * nQuery.toNat) ∧
    (nRef * (nQubits * 2)).toNat = nRef.toNat * (2 * nQubits.toNat) := by
  have hr := h.nRef_le
  have hq := h.nQuery_le
  have hp := h.pairs_le
  -- with the width a literal the products with it are linear
  rcases h.qubits with rfl | rfl
  · simp only [sizeofQaiKernelBlockIn, sizeofQaiKernelBlockOut, UInt32.toNat_add,
      UInt32.toNat_mul, UInt32.toNat_ofNat', UInt32.reduceToNat]
    omega
  · simp only [sizeofQaiKernelBlockIn, sizeofQaiKernelBlockOut, UInt32.toNat_add,
      UInt32.toNat_mul, UInt32.toNat_ofNat', UInt32.reduceToNat]
    omega

/-- The answer to a block request that passes all checks. -/
theorem blockAnswer_accept (params : Fin 4 → TeeParam) {nRef nQuery reps nQubits : UInt32}
    (hnRef : (params 0).memref.buffer.le32 0 = nRef)
    (hnQuery : (params 0).memref.buffer.le32 4 = nQuery)
    (hnQubits : (params 0).memref.buffer.le32 8 = nQubits)
    (h : BlockAccepts nRef nQuery reps nQubits)
    (hin : sizeofQaiKernelBlockIn + 4 * (nRef.toNat * (2 * nQubits.toNat)) +
      4 * (nQuery.toNat * (2 * nQubits.toNat)) ≤ (params 0).memref.size)
    (hout : sizeofQaiKernelBlockOut + 4 * (nRef.toNat * nQuery.toNat) ≤ (params 1).memref.size)
    (elapsed : UInt32) :
    blockAnswer D expMemrefs reps params elapsed =
      .reply 1 ((blockOutBuf elapsed (nRef * nQuery)).append sizeofQaiKernelBlockOut
        (blockEntries D nQubits.toNat reps.toNat (params 0).memref.buffer
          (sizeofQaiKernelBlockIn + 4 * (nRef.toNat * (2 * nQubits.toNat)))
          sizeofQaiKernelBlockIn nRef.toNat))
        (sizeofQaiKernelBlockOut + 4 * (nRef.toNat * nQuery.toNat)) := by
  obtain ⟨hneedIn, hneedOut, -⟩ := blockSizes h
  have hqubits : ¬ (nQubits ≠ 8 ∧ nQubits ≠ 16) := fun hne => h.qubits.elim hne.1 hne.2
  have hheader : ¬ (params 0).memref.size < sizeofQaiKernelBlockIn := by omega
  have hsizes : ¬ ((params 0).memref.size < sizeofQaiKernelBlockIn +
      4 * (nRef.toNat * (2 * nQubits.toNat)) + 4 * (nQuery.toNat * (2 * nQubits.toNat)) ∨
      (params 1).memref.size < sizeofQaiKernelBlockOut + 4 * (nRef.toNat * nQuery.toNat)) := by
    omega
  unfold blockAnswer
  simp only [hnRef, hnQuery, hnQubits, hneedIn, hneedOut, if_neg hheader, if_neg hqubits,
    if_neg hsizes, ne_eq, not_true_eq_false, if_false, h]

/-- With the header in front of the entries the output memref holds the reply. -/
private theorem blockReply_bytes {b : BlockArgs} {t t' : Ta D} (hdr : Buf)
    (hk : b.outK = sizeofQaiKernelBlockOut)
    (h : BlockInv b t (b.nQuery.toNat * b.nRef.toNat) t') :
    (bytesOf t' 1).copy 0 hdr 0 sizeofQaiKernelBlockOut =
      (bytesOf t 1).copy 0 (hdr.append sizeofQaiKernelBlockOut
        (blockEntries D b.n b.reps.toNat (bytesOf t 0) b.query b.ref b.nRef.toNat)) 0
        (sizeofQaiKernelBlockOut + 4 * (b.nRef.toNat * b.nQuery.toNat)) := by
  have hnRef : 0 < b.nRef.toNat := Nat.pos_of_ne_zero fun h0 =>
    b.accepted.nRef_ne (UInt32.toNat_inj.mp h0)
  have hcomm : b.nQuery.toNat * b.nRef.toNat = b.nRef.toNat * b.nQuery.toNat := Nat.mul_comm _ _
  funext i
  simp only [Buf.copy, Buf.append, Nat.zero_add, Nat.sub_zero, Nat.zero_le, true_and]
  by_cases hi : i < sizeofQaiKernelBlockOut
  · rw [if_pos hi, if_pos (by omega), if_pos hi]
  rw [if_neg hi]
  by_cases hlast : i < sizeofQaiKernelBlockOut + 4 * (b.nRef.toNat * b.nQuery.toNat)
  · -- byte `i` is byte `i % 4` of entry `(i - 8) / 4`
    rw [if_pos hlast, if_neg hi, blockEntries]
    generalize hj : (i - sizeofQaiKernelBlockOut) / 4 = j
    have hpos : b.outK + 4 * j + (i - sizeofQaiKernelBlockOut) % 4 = i := by
      rw [hk]
      omega
    have hword := h.words (j / b.nRef.toNat) (j % b.nRef.toNat) (Nat.mod_lt _ hnRef)
      (by rw [Nat.mul_comm, Nat.div_add_mod]; omega)
    rw [Nat.mul_comm (j / b.nRef.toNat), Nat.div_add_mod] at hword
    rw [BlockArgs.entry] at hword
    rw [← hword, Buf.byteOf_le32 _ _ _ (by omega), hpos]
  · rw [if_neg hlast, h.outside i (by rw [hk]; omega)]

/-- Header and entries make up the reply. -/
private theorem blockReply {b : BlockArgs} {t₀ t t' : Ta D} (hdr : Buf)
    (hk : b.outK = sizeofQaiKernelBlockOut)
    (hquiet : Quiet expMemrefs t₀ t) (h : BlockInv b t (b.nQuery.toNat * b.nRef.toNat) t')
    (hsafe : TaSafe expMemrefs (sizes t₀) t')
    (hsize : sizeofQaiKernelBlockOut + 4 * (b.nRef.toNat * b.nQuery.toNat) ≤ sizes t₀ 1) :
    Replied expMemrefs t₀ 1
      (hdr.append sizeofQaiKernelBlockOut
        (blockEntries D b.n b.reps.toNat (bytesOf t₀ 0) b.query b.ref b.nRef.toNat))
      (sizeofQaiKernelBlockOut + 4 * (b.nRef.toNat * b.nQuery.toNat))
      ((setMemrefSize 1 (sizeofQaiKernelBlockOut + 4 * (b.nRef.toNat * b.nQuery.toNat))).run
        ((storeBytes 1 0 hdr sizeofQaiKernelBlockOut).run t').2).2 := by
  have hbytes : ∀ p, bytesOf t p = bytesOf t₀ p := fun p => by
    simp only [bytesOf, hquiet.params]
  have hbuf := blockReply_bytes hdr hk h
  rw [hbytes, hbytes] at hbuf
  have hmeta := h.outMeta
  rw [hquiet.params] at hmeta
  have hother : ∀ p ≠ 1, t'.params p = t₀.params p := fun p hp => by
    rw [h.params p hp, hquiet.params]
  simp only [run_storeBytes, run_setMemrefSize, Function.update_self, Function.update_idem]
  refine ⟨?_, ⟨hsafe.1, ?_⟩, ?_⟩
  · funext p
    by_cases hp : p = 1
    · subst hp
      have ha : (t'.params 1).a = (t₀.params 1).a := by rw [hmeta]
      have hb : (t'.params 1).b = (t₀.params 1).b := by rw [hmeta]
      simp only [Answer.params, Function.update_self, ha, hb]
      rw [← bytesOf, hbuf, bytesOf]
    · simp only [Answer.params, Function.update_of_ne hp, hother p hp]
  · intro a ha
    rw [List.mem_append, List.mem_map] at ha
    rcases ha with ⟨i, hi, rfl⟩ | ha
    · rw [List.mem_range] at hi
      exact ⟨expMemrefs_one, by omega⟩
    · exact hsafe.2 a ha
  · -- the loops have stored the entries, the command stores the header
    intro p off
    have hcomm : b.nQuery.toNat * b.nRef.toNat = b.nRef.toNat * b.nQuery.toNat := Nat.mul_comm _ _
    simp only [List.mem_append, List.mem_map, List.mem_range, Access.store.injEq, h.stores, hk]
    constructor
    · rintro (⟨i, hi, rfl, rfl⟩ | hold | ⟨rfl, -, hhi⟩)
      · exact ⟨rfl, by omega⟩
      · exact absurd hold (hquiet.noStore p off)
      · exact ⟨rfl, by omega⟩
    · rintro ⟨rfl, hoff⟩
      by_cases hlow : off < sizeofQaiKernelBlockOut
      · exact Or.inl ⟨off, hlow, rfl, by omega⟩
      · exact Or.inr (Or.inr ⟨rfl, by omega, by omega⟩)

/-- `cmd_kernel_block_reps`. -/
theorem cmdKernelBlockReps_serves (pt reps : UInt32) {t : Ta D} (h : Quiet pt t t) :
    Serves pt t (blockAnswer D pt reps t.params (deltaMs t.t0 t.t1)) t.kern.rngState
      ((cmdKernelBlockReps pt reps).run t) := by
  unfold blockAnswer
  by_cases hpt : pt ≠ expMemrefs
  · simp only [cmdKernelBlockReps, if_pos hpt, StateM.run_pure]
    exact h.badParameters
  obtain rfl := not_not.mp hpt
  by_cases hhdr : (t.params 0).memref.size < sizeofQaiKernelBlockIn
  · simp only [cmdKernelBlockReps, if_neg hpt, StateM.run_bind, run_memrefSize, if_pos hhdr,
      StateM.run_pure]
    exact h.badParameters
  have hload := h.load 0 0 _ expMemrefs_zero
    (by simp only [sizes, Nat.zero_add]; exact Nat.not_lt.mp hhdr)
  have hparams : ((loadBytes 0 0 sizeofQaiKernelBlockIn).run t).2.params = t.params :=
    hload.params
  have hclock : ((loadBytes 0 0 sizeofQaiKernelBlockIn).run t).2.t0 = t.t0 ∧
      ((loadBytes 0 0 sizeofQaiKernelBlockIn).run t).2.t1 = t.t1 := ⟨rfl, rfl⟩
  have hbuf : (t.params 0).memref.buffer = bytesOf t 0 := rfl
  simp only [cmdKernelBlockReps, if_neg hpt, StateM.run_bind, run_memrefSize, if_neg hhdr,
    le32_loaded, hbuf]
  generalize (loadBytes 0 0 sizeofQaiKernelBlockIn).run t = loaded at hload hparams hclock
  generalize (bytesOf t 0).le32 0 = nRef
  generalize (bytesOf t 0).le32 4 = nQuery
  generalize (bytesOf t 0).le32 8 = nQubits
  by_cases hqubits : nQubits ≠ 8 ∧ nQubits ≠ 16
  · simp only [if_pos hqubits, StateM.run_pure]
    exact hload.badParameters
  simp only [if_neg hqubits, StateM.run_bind, run_memrefSize, hparams]
  split
  · exact hload.shortBuffer
  next hsize =>
  rw [not_or, Nat.not_lt, Nat.not_lt] at hsize
  by_cases hargs : BlockAccepts nRef nQuery reps nQubits
  · rw [if_neg (not_not.mpr hargs)]
    obtain ⟨hin, hout, hquery⟩ := blockSizes hargs
    rw [hin, hout] at hsize
    -- the block as the TA lays it out: references, then queries, in the input memref
    let b : BlockArgs := ⟨sizeofQaiKernelBlockIn, nRef, sizeofQaiKernelBlockIn +
      4 * (nRef.toNat * (2 * nQubits.toNat)), nQuery, reps, nQubits, sizeofQaiKernelBlockOut,
      hargs⟩
    have hfits : BlockFits expMemrefs (sizes t) b := by
      refine ⟨expMemrefs_zero, expMemrefs_one, ?_, hsize.1, ?_⟩
      · exact le_trans (Nat.le_add_right _ _) hsize.1
      · change sizeofQaiKernelBlockOut + 4 * (nQuery.toNat * nRef.toNat) ≤ _
        rw [Nat.mul_comm nQuery.toNat]
        exact hsize.2
    obtain ⟨t', hrun, hinv⟩ := kernelBlock_run b loaded.2
    have hsafe := kernelBlock_safe hfits hload.safe
    rw [hrun] at hsafe
    simp only [b] at hrun
    have hreply := blockReply (blockOutBuf (deltaMs t.t0 t.t1) (nRef * nQuery)) rfl hload hinv
      hsafe hsize.2
    simp only [StateM.run_bind, hquery, hrun, hclock.1, hclock.2, hout]
    exact hreply.serves (hinv.rngState.trans hload.rngState) expMemrefs_one hsize.2
  · rw [if_pos hargs]
    have hreject := kernelBlock_reject sizeofQaiKernelBlockIn
      (sizeofQaiKernelBlockIn + 4 * (nRef * (nQubits * 2)).toNat) sizeofQaiKernelBlockOut hargs
      loaded.2
    simp only [StateM.run_bind, hreject, StateM.run_pure]
    exact hload.badParameters

/-! ## Invocations -/

/-- Every invocation serves the answer to its request. -/
theorem invoke_serves (st : Statics D) (stk : Stack D) (req : Request) :
    Serves req.paramTypes (Ta.enter st stk req.params)
      (answer D req st.rngState (deltaMs stk.t0 stk.t1)) (nextRng req st.rngState)
      (invoke st stk req) := by
  have h := Quiet.enter req.paramTypes st stk req.params
  by_cases hbench : req.cmdId = taQaiCmdBenchFidelity
  · unfold invoke taInvokeCommandEntryPoint answer nextRng
    simp only [hbench, show taQaiCmdBenchFidelity ≠ taQaiCmdInferBaseline by decide,
      show taQaiCmdBenchFidelity ≠ taQaiCmdInferTinyml by decide,
      show taQaiCmdBenchFidelity ≠ taQaiCmdInferQai by decide,
      show taQaiCmdBenchFidelity ≠ taQaiCmdInferProtected by decide,
      show taQaiCmdBenchFidelity ≠ taQaiCmdGetInfo by decide, if_false, if_true]
    exact cmdBenchFidelity_serves _ h
  · -- the other commands leave `rng_state` alone
    have hrng : nextRng req st.rngState = st.rngState := if_neg hbench
    rw [hrng]
    unfold invoke taInvokeCommandEntryPoint answer
    refine Serves.ite (fun _ => cmdInferPlain_serves _ _ h) fun _ => ?_
    refine Serves.ite (fun _ => cmdInferPlain_serves _ _ h) fun _ => ?_
    refine Serves.ite (fun _ => cmdInferPlain_serves _ _ h) fun _ => ?_
    refine Serves.ite (fun _ => cmdInferProtected_serves _ h) fun _ => ?_
    refine Serves.ite (fun _ => cmdGetInfo_serves _ h) fun _ => ?_
    refine Serves.ite (fun hc => absurd hc hbench) fun _ => ?_
    refine Serves.ite (fun _ => cmdKernelBlockReps_serves _ _ h) fun _ => ?_
    refine Serves.ite (fun _ => cmdHaiInfer_serves _ h) fun _ => ?_
    exact Serves.ite (fun _ => cmdKernelBlockReps_serves _ _ h) fun _ => h.badParameters

/-- An invocation that is answered with a reply succeeds and puts the reply in place. -/
theorem invoke_reply {st : Statics D} {stk : Stack D} {req : Request} {p : Fin 4} {bytes : Buf}
    {n : Nat} (h : answer D req st.rngState (deltaMs stk.t0 stk.t1) = .reply p bytes n) :
    (invoke st stk req).1 = .success ∧
    ∀ i < n, ((invoke st stk req).2.params p).memref.buffer i = bytes i := by
  have hserves := invoke_serves st stk req
  rw [h] at hserves
  refine ⟨hserves.result, fun i hi => ?_⟩
  have hcopy : (req.params p).memref.buffer.copy 0 bytes 0 n (0 + i) = bytes (0 + i) :=
    Buf.copy_inside _ _ hi
  rw [Nat.zero_add] at hcopy
  rw [hserves.params, Answer.params, Function.update_self]
  exact hcopy

end Circuit

end OpteeRpi5.Spec
