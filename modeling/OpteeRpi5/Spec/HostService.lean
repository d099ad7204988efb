import OpteeRpi5.Spec.BenchAccuracy
import OpteeRpi5.Spec.HostParity
import OpteeRpi5.Spec.HostProtocol

/-!
# The client program on the TA

The client program and the TA together, over exact real arithmetic. For every command line
and whatever the instance serves to other sessions in between: inference ends with the
output that the host computes itself, plain or protected; the info is that of the TA; a
bench of the kernel passes its self-check, and is refused exactly above 20000 evaluations,
a negative count among them. A bench of the inference with a negative count sends nothing,
and prints what the stack holds.

## Key results

- `taTeec_infer`, `taTeec_info`, `taTeec_kernel`: the answers to the requests of the client
- `hostMain_ta`: the exit status and all output of the program
-/

namespace OpteeRpi5.Spec

open OpteeRpi5.Native
open scoped RealConv

/-! ## Reading structures back -/

/-- The client reads the output that the TA has written. -/
theorem ofBuf_output {b : Buf} {out : QaiOutput}
    (h : ∀ i < sizeofQaiOutput, b i = out.toBuf i) : QaiOutput.ofBuf b = out := by
  have hword : ∀ k < 4, b.le32 (4 * k) = out.toBuf.le32 (4 * k) := by
    intro k hk
    refine Buf.le32_congr fun j hj => h _ ?_
    rw [sizeofQaiOutput]
    omega
  simp only [QaiOutput.toBuf, Buf.le32_ofWords] at hword
  unfold QaiOutput.ofBuf
  rw [hword 0 (by omega), hword 1 (by omega), hword 2 (by omega), hword 3 (by omega)]
  simp

/-- The client reads the info that the TA has written. -/
theorem ofBuf_info {b : Buf} {info : QaiInfo}
    (h : ∀ i < sizeofQaiInfo, b i = info.toBuf i) : QaiInfo.ofBuf b = info := by
  have hword : ∀ k < 7, b.le32 (4 * k) = info.toBuf.le32 (4 * k) := by
    intro k hk
    refine Buf.le32_congr fun j hj => h _ ?_
    rw [sizeofQaiInfo]
    omega
  simp only [QaiInfo.toBuf, Buf.le32_ofWords] at hword
  unfold QaiInfo.ofBuf
  rw [hword 0 (by omega), hword 1 (by omega), hword 2 (by omega), hword 3 (by omega),
    hword 4 (by omega), hword 5 (by omega), hword 6 (by omega)]
  simp

/-- A 64-bit number from its two words. -/
theorem int64OfWords_words (v : Int64) :
    int64OfWords v.toUInt64.toUInt32 (v.toUInt64 >>> 32).toUInt32 = v := by
  have hwords : v.toUInt64.toUInt32.toUInt64 + (v.toUInt64 >>> 32).toUInt32.toUInt64 * 0x100000000 =
      v.toUInt64 := by
    have hlt := v.toUInt64.toNat_lt
    apply UInt64.toNat_inj.mp
    simp only [UInt64.toNat_add, UInt64.toNat_mul, UInt32.toNat_toUInt64, UInt64.toNat_toUInt32,
      UInt64.toNat_shiftRight, UInt64.reduceToNat, Nat.shiftRight_eq_div_pow, Nat.reduceMod,
      Nat.reducePow]
    omega
  rw [int64OfWords, hwords]
  exact Int64.toInt64_toUInt64 v

/-- The client reads the record of the benchmark from its words. -/
theorem ofBuf_bench {b : Buf} {kb : QaiFidelityBench}
    (h : ∀ k < 6, b.le32 (4 * k) = kb.toBuf.le32 (4 * k)) : QaiFidelityBench.ofBuf b = kb := by
  simp only [QaiFidelityBench.toBuf, Buf.le32_ofWords] at h
  unfold QaiFidelityBench.ofBuf
  rw [h 0 (by omega), h 1 (by omega), h 2 (by omega), h 3 (by omega), h 4 (by omega),
    h 5 (by omega)]
  simp [wordsOfInt64, int64OfWords_words]

/-! ## Answers -/

/-- The TA has every model of the host, with the same output. -/
theorem inferModel_eq_ree (m : QaiModel) (x : Nat → Int32) (n : UInt32) :
    inferModel m.id x n = some (reeInfer m.id x n) := by
  cases m with
  | baseline =>
    simp only [QaiModel.id, inferModel, reeInfer, if_true, baseline_narrow]
    rfl
  | tinyml => rfl
  | qai => rfl

section Answers

variable {D : Type} [RatCast D] [Add D] [Sub D] [Mul D] [Neg D] [Div D] [LT D] [DecidableLT D]
  [FloatConv D]

/-- A reply of the TA, as the client sees it. -/
theorem taTeec_reply (env : CallEnv D) (s : Statics D × Nat) {req : Request} {p : Fin 4}
    {bytes : Buf} {n : Nat} (h : ∀ rng elapsed, answer D req rng elapsed = .reply p bytes n) :
    ((taTeec env).answer s req).1.res = 0 ∧
      ∀ i < n, (((taTeec env).answer s req).1.params p).memref.buffer i = bytes i := by
  have hreply := h (serve s.1 (env s.2).1).rngState (deltaMs (env s.2).2.t0 (env s.2).2.t1)
  obtain ⟨hok, hbytes⟩ := invoke_reply hreply
  refine ⟨?_, hbytes⟩
  show (invoke (serve s.1 (env s.2).1) (env s.2).2 req).1.code = 0
  rw [hok]
  rfl

/-- Inference, plain or protected. -/
theorem taTeec_infer (env : CallEnv D) (s : Statics D × Nat) (m : QaiModel) (protectedMode : Bool)
    (inp : HostInput) :
    let r := (taTeec env).answer s
      (teeInfer m.id protectedMode inp.toQaiInput (clearedMemref sizeofQaiOutput))
    r.1.res = 0 ∧ QaiOutput.ofBuf (r.1.params 1).memref.buffer =
      reeInfer m.id inp.features inp.numFeatures := by
  have hanswer : ∀ rng elapsed,
      answer D (teeInfer m.id protectedMode inp.toQaiInput (clearedMemref sizeofQaiOutput)) rng
        elapsed = .reply 1 (reeInfer m.id inp.features inp.numFeatures).toBuf sizeofQaiOutput := by
    intro rng elapsed
    cases protectedMode with
    | false => rw [answer_plain, inferModel_eq_ree]; rfl
    | true => rw [answer_protected, inferModel_eq_ree]; rfl
  obtain ⟨hok, hbytes⟩ := taTeec_reply env s hanswer
  exact ⟨hok, ofBuf_output hbytes⟩

/-- The answer of the TA to `--info`. -/
theorem taTeec_info (env : CallEnv D) (s : Statics D × Nat) :
    let r := (taTeec env).answer s infoRequest
    r.1.res = 0 ∧ QaiInfo.ofBuf (r.1.params 0).memref.buffer = qaiInfo := by
  have hanswer : ∀ rng elapsed,
      answer D infoRequest rng elapsed = .reply 0 qaiInfo.toBuf sizeofQaiInfo := by
    intro rng elapsed
    rfl
  obtain ⟨hok, hbytes⟩ := taTeec_reply env s hanswer
  exact ⟨hok, ofBuf_info hbytes⟩

end Answers

/-- The bench of the kernel. A negative count is a large one. -/
theorem taTeec_kernel (env : CallEnv ℝ) (s : Statics ℝ × Nat) (n : Int32) :
    let r := (taTeec env).answer s (kernelRequest n)
    if 20000 < n.toUInt32 then
      r.1.res = TeeResult.badParameters.code ∧ r.1.origin = teecOriginTrustedApp
    else r.1.res = 0 ∧ ∃ rng elapsed, QaiFidelityBench.ofBuf (r.1.params 1).memref.buffer =
      benchResult ℝ rng elapsed n.toUInt32 := by
  intro r
  split
  · next hlarge =>
    have hserves := invoke_serves (serve s.1 (env s.2).1) (env s.2).2 (kernelRequest n)
    -- the TA refuses the number of evaluations, after the checks on the parameters
    have hanswer : ∀ rng elapsed, answer ℝ (kernelRequest n) rng elapsed = .badParameters := by
      intro rng elapsed
      show benchAnswer ℝ (kernelRequest n).paramTypes (kernelRequest n).params rng elapsed = _
      have htypes : (kernelRequest n).paramTypes = teeParamTypes teeParamTypeValueInput
        teeParamTypeMemrefOutput teeParamTypeNone teeParamTypeNone := rfl
      have hsize : ¬ ((kernelRequest n).params 1).memref.size < sizeofQaiFidelityBench :=
        Nat.lt_irrefl _
      rw [benchAnswer, if_neg (not_not.mpr htypes), if_neg hsize]
      exact if_pos hlarge
    rw [hanswer] at hserves
    exact ⟨congrArg TeeResult.code hserves.result, rfl⟩
  · next hsmall =>
    have haccepted : BenchAccepted (kernelRequest n) :=
      ⟨rfl, rfl, Nat.le_refl _, UInt32.not_lt.mp hsmall⟩
    obtain ⟨hok, hwords⟩ := invoke_bench (serve s.1 (env s.2).1) (env s.2).2 haccepted
    exact ⟨congrArg TeeResult.code hok, _, _, ofBuf_bench hwords⟩

/-! ## Options -/

/-- The options choose one of the models. -/
theorem parseArgs_model {o o' : HostOpts} {args : List (List Char)} (h : parseArgs o args = .run o')
    (hmodel : ∃ m : QaiModel, o.model = m.id) : ∃ m : QaiModel, o'.model = m.id := by
  fun_induction parseArgs o args with
  | case1 | case8 | case11 =>
    -- the end of the options
    cases h
    exact hmodel
  | case2 =>
    rename_i ih
    exact ih h ⟨.baseline, rfl⟩
  | case3 =>
    rename_i ih
    exact ih h ⟨.tinyml, rfl⟩
  | case4 =>
    rename_i ih
    exact ih h ⟨.qai, rfl⟩
  | case5 | case6 | case7 | case9 | case10 | case12 | case13 =>
    -- an option that leaves the model alone
    rename_i ih
    exact ih h hmodel
  | case14 | case15 => cases h

/-! ## Sessions -/

/-- The features of the program are an input that the TA accepts. -/
def demoHostInput : HostInput where
  toQaiInput := demoInput
  nonempty := by decide
  bounded := by decide

/-- A loop whose commands all succeed sends them all. -/
theorem benchLoop_lines {σ : Type} {T : Teec σ} {o : HostOpts}
    (hok : ∀ tee, (T.answer tee
      (teeInfer o.model o.protectedMode demoInput (clearedMemref sizeofQaiOutput))).1.res = 0)
    (n : Nat) (tmp : QaiOutput) (s : HostState σ) :
    ((benchLoop T o tmp n).run s).1 = some (if n = 0 then tmp else reeOutput o) ∧
      ((benchLoop T o tmp n).run s).2.out = s.out ++ List.replicate n .sending := by
  induction n generalizing tmp s with
  | zero =>
    rw [benchLoop, StateM.run_pure]
    exact ⟨rfl, (List.append_nil s.out).symm⟩
  | succ n ih =>
    simp only [benchLoop, StateM.run_bind, run_runTeeInfer, hok, if_true, Option.elim_some]
    obtain ⟨hvalue, hlines⟩ := ih (reeOutput o) _
    refine ⟨hvalue.trans ?_, hlines.trans ?_⟩
    · simp
    · simp [List.replicate_succ]

/-- The exit status with the TA behind the API. -/
def taExit (o : HostOpts) : HostExit :=
  if ZeroBench o then .undefined
  else if o.doInfo = false ∧ o.doKernel = true ∧ 20000 < o.benchN.toUInt32 then .exit 1
  else .exit 0

/-- What a bench prints at its end: `tmp`, if no iteration has written it. -/
def lastOutput (o : HostOpts) (tmp : QaiOutput) : QaiOutput :=
  if o.benchN.toInt.toNat = 0 then tmp else reeOutput o

/-- The lines after the banner and the input, with the TA behind the API and `kb` the report
    of its kernel. -/
def sessionLines (o : HostOpts) (tmp : QaiOutput) (kb : QaiFidelityBench) : List HostLine :=
  if o.doInfo then [.info qaiInfo]
  else if o.doKernel then [.kernelStart o.benchN, if 20000 < o.benchN.toUInt32 then
    .kernelFailed TeeResult.badParameters.code teecOriginTrustedApp else .kernel kb]
  else if o.doBench then
    .benchStart o.model o.benchN :: (List.replicate o.benchN.toInt.toNat .sending ++
      if o.benchN = 0 then []
      else [.benchEnd (lastOutput o tmp).prediction (lastOutput o tmp).confidence])
  else (if o.doRee then [.ree (reeOutput o).prediction (reeOutput o).confidence] else []) ++
    [.sending, .result (reeOutput o) o.protectedMode]

section Session

variable (env : CallEnv ℝ) (o : HostOpts) (tmp : QaiOutput) (s : HostState (Statics ℝ × Nat))

/-- What a session with the TA ends with. -/
def Reports (r : HostExit × HostState (Statics ℝ × Nat)) : Prop :=
  r.1 = taExit o ∧ ∃ rng elapsed,
    r.2.out = s.out ++ sessionLines o tmp (benchResult ℝ rng elapsed o.benchN.toUInt32)

/-- `--info` prints what the TA is. -/
theorem mainInfo_reports (hinfo : o.doInfo = true) :
    Reports o tmp s ((mainInfo (taTeec env)).run s) := by
  obtain ⟨hok, hvalue⟩ := taTeec_info env s.tee
  rw [run_mainInfo]
  simp [Reports, taExit, ZeroBench, sessionLines, hinfo, hok, hvalue]

/-- `--kernel-bench` prints the self check, or the refusal. -/
theorem mainKernel_reports (hinfo : o.doInfo = false) (hkernel : o.doKernel = true) :
    Reports o tmp s ((mainKernel (taTeec env) o).run s) := by
  have hanswer := taTeec_kernel env s.tee o.benchN
  rw [run_mainKernel]
  by_cases hlarge : 20000 < o.benchN.toUInt32
  · simp only [hlarge, if_true] at hanswer
    have hcode : TeeResult.badParameters.code ≠ 0 := by decide
    refine ⟨?_, 0, 0, ?_⟩
    · simp [taExit, ZeroBench, hinfo, hkernel, hlarge, hanswer.1, hcode]
    · simp [sessionLines, hinfo, hkernel, hlarge, hanswer.1, hanswer.2, hcode]
  · simp only [hlarge, if_false] at hanswer
    obtain ⟨hok, rng, elapsed, hvalue⟩ := hanswer
    refine ⟨?_, rng, elapsed, ?_⟩
    · simp [taExit, ZeroBench, hinfo, hkernel, hlarge, hok]
    · simp [sessionLines, hinfo, hkernel, hlarge, hok, hvalue]

variable {o} (hmodel : ∃ m : QaiModel, o.model = m.id)
include hmodel

/-- The answer to the inference of the program. -/
theorem taTeec_demo (tee : Statics ℝ × Nat) :
    let r := (taTeec env).answer tee
      (teeInfer o.model o.protectedMode demoInput (clearedMemref sizeofQaiOutput))
    r.1.res = 0 ∧ QaiOutput.ofBuf (r.1.params 1).memref.buffer = reeOutput o := by
  obtain ⟨m, hm⟩ := hmodel
  have h := taTeec_infer env tee m o.protectedMode demoHostInput
  rw [← hm] at h
  exact h

/-- An inference prints the output of the reference. -/
theorem mainInfer_reports (hinfo : o.doInfo = false) (hkernel : o.doKernel = false)
    (hbench : o.doBench = false) : Reports o tmp s ((mainInfer (taTeec env) o).run s) := by
  obtain ⟨hok, hvalue⟩ := taTeec_demo env hmodel s.tee
  rw [run_mainInfer]
  refine ⟨?_, 0, 0, ?_⟩
  · simp [taExit, ZeroBench, hkernel, hbench, hok]
  · simp [sessionLines, hinfo, hkernel, hbench, hok, hvalue]

/-- `--bench` prints the output of the reference, or of the uninitialised buffer. -/
theorem mainBench_reports (hinfo : o.doInfo = false) (hkernel : o.doKernel = false)
    (hbench : o.doBench = true) : Reports o tmp s ((mainBench (taTeec env) o tmp).run s) := by
  obtain ⟨hvalue, hlines⟩ := benchLoop_lines (fun tee => (taTeec_demo env hmodel tee).1)
    o.benchN.toInt.toNat tmp { s with out := s.out ++ [.benchStart o.model o.benchN] }
  rw [← lastOutput] at hvalue
  simp only [mainBench, StateM.run_bind, run_printLine, hvalue, Option.elim_some, mainBenchEnd,
    StateM.run_ite, StateM.run_pure, run_finish]
  refine ⟨?_, 0, 0, ?_⟩
  · by_cases hn : o.benchN = 0
    · rw [if_pos hn, taExit, if_pos ⟨hinfo, hkernel, hbench, hn⟩]
    · rw [if_neg hn, taExit, if_neg fun h => hn h.2.2.2, if_neg (by simp [hkernel])]
  · simp only [sessionLines, hinfo, hkernel, hbench, Bool.false_eq_true, if_false, if_true]
    by_cases hn : o.benchN = 0
    · rw [if_pos hn, if_pos hn, hlines]
      simp
    · rw [if_neg hn, if_neg hn]
      simp only [hlines]
      simp

/-- Whatever the mode, the session prints what the reference says. -/
theorem mainSession_reports : Reports o tmp s ((mainSession (taTeec env) o tmp).run s) := by
  apply mainSession_cases
  · exact mainInfo_reports env o tmp s
  · exact mainKernel_reports env o tmp s
  · exact mainBench_reports env tmp s hmodel
  · exact mainInfer_reports env tmp s hmodel

end Session

/-! ## The program -/

/-- Every run of the program on a TA instance in any state, with any command line: the exit
    status and all that is printed. -/
theorem hostMain_ta (env : CallEnv ℝ) (st : Statics ℝ) (tmp : QaiOutput)
    (args : List (List Char)) :
    let r := (hostMain (taTeec env) tmp args).run ⟨(st, 0), [], []⟩
    (∃ code, parseArgs .init args = .usage code ∧ r.1 = .exit code ∧ r.2.out = [.usage]) ∨
      ∃ o kb, parseArgs .init args = .run o ∧ r.1 = taExit o ∧
        kb.evals = o.benchN.toUInt32 ∧ kb.selfExpMicro = 2718281 ∧
        r.2.out = .banner :: .input [10, 20, -5, 3] :: sessionLines o tmp kb := by
  intro r
  cases hparse : parseArgs .init args with
  | usage code =>
    refine .inl ⟨code, rfl, ?_⟩
    simp only [r, hostMain, hparse, StateM.run_bind, run_printLine, StateM.run_pure]
    exact ⟨trivial, rfl⟩
  | run o =>
    have hmodel := parseArgs_model hparse ⟨.baseline, rfl⟩
    obtain ⟨hexit, rng, elapsed, hlines⟩ := mainSession_reports env tmp
      ⟨(st, 0), [.initializeContext 0] ++ [.openSession 0],
        [.banner, .input [10, 20, -5, 3]]⟩ hmodel
    have hr : r = (mainSession (taTeec env) o tmp).run
        ⟨(st, 0), [.initializeContext 0] ++ [.openSession 0],
          [.banner, .input [10, 20, -5, 3]]⟩ := by
      simp only [r, hostMain, hparse]
      rfl
    rw [← hr] at hexit hlines
    exact .inr ⟨o, _, rfl, hexit, rfl, selfExpMicro_eq rng elapsed _, hlines⟩

end OpteeRpi5.Spec
