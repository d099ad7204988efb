import OpteeRpi5.ForStd.Run
import OpteeRpi5.ForStd.StateM
import OpteeRpi5.Native.HostProgram

/-!
# The calls of the client program

For every command line, and whatever is behind the client API: each call is made in a
state in which the API allows it, and a program that exits has closed the session it
opened and finalized the context it initialized, each once. The exit status tells whether
all calls have succeeded, except for `--info`, which ignores the answer. A bench with the
count zero divides by it, with the session still open.

## Key results

- `mainSession_ends`: what happens in an open session
- `hostMain_protocol`: the calls and the exit status of the program
-/

namespace OpteeRpi5.Spec

open OpteeRpi5.Native

variable {σ : Type}

/-! ## The states of the API -/

/-- What the program holds: nothing, a context, or a context and a session. -/
inductive TeecState where
  | closed
  | context
  | session
  deriving DecidableEq

/-- The state after a call; `none` if the API does not allow the call. -/
def TeecState.step (s : TeecState) (c : TeecCall) : Option TeecState :=
  match s, c with
  | .closed, .initializeContext res => some (if res = 0 then .context else .closed)
  | .context, .openSession res => some (if res = 0 then .session else .context)
  | .session, .invokeCommand _ _ => some .session
  | .session, .closeSession => some .context
  | .context, .finalizeContext => some .closed
  | _, _ => none

/-- The call has succeeded. -/
def Succeeds : TeecCall → Prop
  | .initializeContext res => res = 0
  | .openSession res => res = 0
  | .invokeCommand _ res => res = 0
  | .closeSession => True
  | .finalizeContext => True

def isCommand : TeecCall → Bool
  | .invokeCommand _ _ => true
  | _ => false

/-- The commands of a session, with their results. -/
def commandCalls (reqs : List (Request × UInt32)) : List TeecCall :=
  reqs.map fun q => .invokeCommand q.1 q.2

/-- Commands are allowed in a session and keep it open. -/
theorem exec_commandCalls (reqs : List (Request × UInt32)) :
    Run.exec TeecState.step .session (commandCalls reqs) = some .session := by
  induction reqs with
  | nil => rfl
  | cons q reqs ih => exact ih

/-- One call for each command. -/
theorem countP_commandCalls (reqs : List (Request × UInt32)) :
    (commandCalls reqs).countP isCommand = reqs.length := by
  rw [commandCalls, List.countP_map]
  exact List.countP_eq_length.mpr fun _ _ => rfl

/-- The commands succeed if all their results are zero. -/
theorem succeeds_commandCalls (reqs : List (Request × UInt32)) :
    (∀ c ∈ commandCalls reqs, Succeeds c) ↔ ∀ q ∈ reqs, q.2 = 0 :=
  List.forall_mem_map

/-- A bench with the count zero. -/
def ZeroBench (o : HostOpts) : Prop :=
  o.doInfo = false ∧ o.doKernel = false ∧ o.doBench = true ∧ o.benchN = 0

instance (o : HostOpts) : Decidable (ZeroBench o) :=
  inferInstanceAs (Decidable (_ ∧ _ ∧ _ ∧ _))

/-- The number of commands of a program that gets to its end. -/
def commandCount (o : HostOpts) : Nat :=
  if o.doInfo = false ∧ o.doKernel = false ∧ o.doBench = true then o.benchN.toInt.toNat else 1

/-! ## Runs -/

section Runs

@[simp] theorem run_printLine (l : HostLine) (s : HostState σ) :
    (printLine l).run s = ((), { s with out := s.out ++ [l] }) := (rfl)

@[simp] theorem run_teecCall (c : TeecCall) (s : HostState σ) :
    (teecCall c).run s = ((), { s with calls := s.calls ++ [c] }) := (rfl)

@[simp] theorem run_teecInvokeCommand (T : Teec σ) (req : Request) (s : HostState σ) :
    (teecInvokeCommand T req).run s = ((T.answer s.tee req).1, { s with
      tee := (T.answer s.tee req).2
      calls := s.calls ++ [.invokeCommand req (T.answer s.tee req).1.res] }) := (rfl)

@[simp] theorem run_finish (code : Nat) (s : HostState σ) :
    (finish code).run s = (.exit code, { s with
      calls := s.calls ++ [.closeSession] ++ [.finalizeContext] }) := (rfl)

end Runs

/-! ## Inside a session -/

variable (T : Teec σ) (o : HostOpts) (tmp : QaiOutput) (s : HostState σ)

/-- The output of the host's own inference, which the bench prints. -/
def reeOutput (o : HostOpts) : QaiOutput :=
  reeInfer o.model demoInput.features demoInput.numFeatures

/-- `tee_infer` makes one command, and returns its output if it succeeds. -/
theorem run_runTeeInfer (model : UInt32) (protectedMode : Bool) (inp : QaiInput) :
    let req := teeInfer model protectedMode inp (clearedMemref sizeofQaiOutput)
    let r := T.answer s.tee req
    (runTeeInfer T model protectedMode inp).run s =
      (if r.1.res = 0 then some (QaiOutput.ofBuf (r.1.params 1).memref.buffer) else none,
        { tee := r.2
          calls := s.calls ++ [.invokeCommand req r.1.res]
          out := s.out ++ [.sending] ++
            if r.1.res = 0 then [] else [.invokeFailed r.1.res r.1.origin] }) := by
  intro req r
  simp only [runTeeInfer, StateM.run_bind, run_printLine, run_teecInvokeCommand, StateM.run_ite,
    StateM.run_pure]
  by_cases hres : r.1.res = 0
  · simp [hres, req, r]
  · simp [hres, req, r]

/-- `--info`: one command, and the exit status is zero whatever it returns. -/
theorem run_mainInfo :
    let r := T.answer s.tee infoRequest
    (mainInfo T).run s = (.exit 0,
      { tee := r.2
        calls := s.calls ++ [.invokeCommand infoRequest r.1.res] ++ [.closeSession] ++
          [.finalizeContext]
        out := s.out ++ [if r.1.res = 0 then .info (QaiInfo.ofBuf (r.1.params 0).memref.buffer)
          else .infoFailed r.1.res r.1.origin] }) := by
  intro r
  simp only [mainInfo, teeInfo, StateM.run_bind, run_teecInvokeCommand, StateM.run_ite,
    StateM.run_pure, run_printLine, run_finish]
  by_cases hres : (T.answer s.tee infoRequest).1.res = 0
  · simp only [hres, ne_eq, not_true_eq_false, if_false, if_true, Option.elim_some, run_printLine,
      r]
  · simp only [hres, ne_eq, not_false_eq_true, if_false, if_true, Option.elim_none, StateM.run_pure,
      r]

/-- `--kernel-bench`: one command, and the exit status 1 if it fails. -/
theorem run_mainKernel :
    let r := T.answer s.tee (kernelRequest o.benchN)
    (mainKernel T o).run s = (.exit (if r.1.res = 0 then 0 else 1),
      { tee := r.2
        calls := s.calls ++ [.invokeCommand (kernelRequest o.benchN) r.1.res] ++ [.closeSession] ++
          [.finalizeContext]
        out := s.out ++ [.kernelStart o.benchN] ++
          [if r.1.res = 0 then .kernel (QaiFidelityBench.ofBuf (r.1.params 1).memref.buffer)
            else .kernelFailed r.1.res r.1.origin] }) := by
  intro r
  simp only [mainKernel, StateM.run_bind, run_teecInvokeCommand, StateM.run_ite, run_printLine,
    run_finish]
  by_cases hres : (T.answer s.tee (kernelRequest o.benchN)).1.res = 0
  · simp only [hres, ne_eq, not_true_eq_false, if_false, if_true, r]
  · simp only [hres, ne_eq, not_false_eq_true, if_false, if_true, r]

/-- The output of the reference in the normal world. -/
theorem run_mainRee :
    (mainRee o).run s = ((), { s with out := s.out ++
      if o.doRee then [.ree (reeOutput o).prediction (reeOutput o).confidence] else [] }) := by
  unfold mainRee
  cases o.doRee with
  | false => simp only [Bool.false_eq_true, if_false, StateM.run_pure, List.append_nil]
  | true => simp only [if_true, run_printLine, reeOutput]

/-- Inference: one command, and the exit status 1 if it fails. -/
theorem run_mainInfer :
    let req := teeInfer o.model o.protectedMode demoInput (clearedMemref sizeofQaiOutput)
    let r := T.answer s.tee req
    (mainInfer T o).run s = (.exit (if r.1.res = 0 then 0 else 1),
      { tee := r.2
        calls := s.calls ++ [.invokeCommand req r.1.res] ++ [.closeSession] ++ [.finalizeContext]
        out := s.out ++
          (if o.doRee then [.ree (reeOutput o).prediction (reeOutput o).confidence] else []) ++
          [.sending] ++
          [if r.1.res = 0 then
              .result (QaiOutput.ofBuf (r.1.params 1).memref.buffer) o.protectedMode
            else .invokeFailed r.1.res r.1.origin] }) := by
  intro req r
  simp only [mainInfer, StateM.run_bind, run_mainRee, run_runTeeInfer]
  by_cases hres : (T.answer s.tee (teeInfer o.model o.protectedMode demoInput
    (clearedMemref sizeofQaiOutput))).1.res = 0
  · simp only [hres, if_true, Option.elim_some, StateM.run_bind, run_printLine, run_finish, r, req,
      List.append_nil]
  · simp only [hres, if_false, Option.elim_none, run_finish, r, req]

/-- The loop of the bench stops at the first command that fails, and otherwise makes all of
    them. -/
theorem benchLoop_calls (n : Nat) (tmp : QaiOutput) (s : HostState σ) :
    ∃ reqs, ((benchLoop T o tmp n).run s).2.calls = s.calls ++ commandCalls reqs ∧
      ((∃ q ∈ reqs, q.2 ≠ 0) ∧ ((benchLoop T o tmp n).run s).1 = none ∨
        (∀ q ∈ reqs, q.2 = 0) ∧ reqs.length = n ∧
          ((benchLoop T o tmp n).run s).1 = some (if n = 0 then tmp else reeOutput o)) := by
  induction n generalizing tmp s with
  | zero =>
    refine ⟨[], ?_, .inr ⟨by simp, rfl, rfl⟩⟩
    rw [benchLoop, StateM.run_pure]
    exact (List.append_nil s.calls).symm
  | succ n ih =>
    -- the first command, then the rest of the loop from the state it leaves
    have hrun := run_runTeeInfer T s o.model o.protectedMode demoInput
    simp only at hrun
    set req := teeInfer o.model o.protectedMode demoInput (clearedMemref sizeofQaiOutput)
    set r := T.answer s.tee req
    simp only [benchLoop, StateM.run_bind, hrun]
    by_cases hres : r.1.res = 0
    · simp only [hres, if_true, Option.elim_some]
      obtain ⟨reqs, hcalls, hend⟩ := ih (reeOutput o)
        ⟨r.2, s.calls ++ [.invokeCommand req 0], s.out ++ [.sending] ++ []⟩
      refine ⟨(req, 0) :: reqs, ?_, ?_⟩
      · show ((benchLoop T o (reeOutput o) n).run _).2.calls = _
        rw [hcalls]
        simp [commandCalls]
      · rcases hend with ⟨⟨q, hq, hne⟩, hnone⟩ | ⟨hall, hlen, hsome⟩
        · exact .inl ⟨⟨q, List.mem_cons_of_mem _ hq, hne⟩, hnone⟩
        · refine .inr ⟨by simpa using hall, by simp [hlen], ?_⟩
          show ((benchLoop T o (reeOutput o) n).run _).1 = _
          rw [hsome]
          simp
    · simp only [hres, if_false, Option.elim_none]
      exact ⟨[(req, r.1.res)], rfl, .inl ⟨⟨_, List.mem_singleton_self _, hres⟩, rfl⟩⟩

/-- The four modes, in the order in which they are looked for. -/
theorem mainSession_cases {P : HostExit × HostState σ → Prop}
    (info : o.doInfo = true → P ((mainInfo T).run s))
    (kernel : o.doInfo = false → o.doKernel = true → P ((mainKernel T o).run s))
    (bench : o.doInfo = false → o.doKernel = false → o.doBench = true →
      P ((mainBench T o tmp).run s))
    (infer : o.doInfo = false → o.doKernel = false → o.doBench = false →
      P ((mainInfer T o).run s)) : P ((mainSession T o tmp).run s) := by
  unfold mainSession
  cases hinfo : o.doInfo with
  | true => exact info hinfo
  | false =>
    cases hkernel : o.doKernel with
    | true => exact kernel hinfo hkernel
    | false =>
      cases hbench : o.doBench with
      | true => exact bench hinfo hkernel hbench
      | false => exact infer hinfo hkernel hbench

/-! ## The end of a session -/

/-- How an open session ends. -/
def Ends (o : HostOpts) (s : HostState σ) (r : HostExit × HostState σ) : Prop :=
  if ZeroBench o then r.1 = .undefined ∧ r.2.calls = s.calls
  else ∃ reqs : List (Request × UInt32),
    r.2.calls = s.calls ++ commandCalls reqs ++ [.closeSession] ++ [.finalizeContext] ∧
    (r.1 = .exit 0 ∧ reqs.length = commandCount o ∧ (o.doInfo = true ∨ ∀ q ∈ reqs, q.2 = 0) ∨
      r.1 = .exit 1 ∧ o.doInfo = false ∧ ∃ q ∈ reqs, q.2 ≠ 0)

/-- The end of a session with a single command, whose result is the exit status. -/
theorem Ends.of_single {r : HostExit × HostState σ} {req : Request} {res : UInt32}
    (hzero : ¬ ZeroBench o) (hcount : commandCount o = 1) (hinfo : o.doInfo = false)
    (hexit : r.1 = .exit (if res = 0 then 0 else 1))
    (hcalls : r.2.calls = s.calls ++ [.invokeCommand req res] ++ [.closeSession] ++
      [.finalizeContext]) : Ends o s r := by
  rw [Ends, if_neg hzero]
  refine ⟨[(req, res)], hcalls, ?_⟩
  by_cases hres : res = 0
  · exact .inl ⟨by rw [hexit, if_pos hres], hcount.symm, .inr (by simpa using hres)⟩
  · exact .inr ⟨by rw [hexit, if_neg hres], hinfo, _, List.mem_singleton_self _, hres⟩

theorem mainInfo_ends (hinfo : o.doInfo = true) : Ends o s ((mainInfo T).run s) := by
  have hzero : ¬ ZeroBench o := fun h => by simp [h.1] at hinfo
  rw [Ends, if_neg hzero, run_mainInfo]
  exact ⟨[(infoRequest, (T.answer s.tee infoRequest).1.res)], rfl,
    .inl ⟨rfl, by simp [commandCount, hinfo], .inl hinfo⟩⟩

theorem mainKernel_ends (hinfo : o.doInfo = false) (hkernel : o.doKernel = true) :
    Ends o s ((mainKernel T o).run s) := by
  have hzero : ¬ ZeroBench o := fun h => by simp [h.2.1] at hkernel
  rw [run_mainKernel]
  exact Ends.of_single o s hzero (by simp [commandCount, hkernel]) hinfo rfl rfl

theorem mainInfer_ends (hinfo : o.doInfo = false) (hbench : o.doBench = false) :
    Ends o s ((mainInfer T o).run s) := by
  have hzero : ¬ ZeroBench o := fun h => by simp [h.2.2.1] at hbench
  rw [run_mainInfer]
  exact Ends.of_single o s hzero (by simp [commandCount, hbench]) hinfo rfl rfl

/-- How `--bench` ends: with the count zero it does not exit. -/
theorem mainBench_ends (hinfo : o.doInfo = false) (hkernel : o.doKernel = false)
    (hbench : o.doBench = true) : Ends o s ((mainBench T o tmp).run s) := by
  have hcount : commandCount o = o.benchN.toInt.toNat := if_pos ⟨hinfo, hkernel, hbench⟩
  obtain ⟨reqs, hcalls, hend⟩ := benchLoop_calls T o o.benchN.toInt.toNat tmp
    { s with out := s.out ++ [.benchStart o.model o.benchN] }
  simp only [mainBench, StateM.run_bind, run_printLine]
  unfold Ends
  by_cases hn : o.benchN = 0
  · -- the loop is not entered
    rw [if_pos ⟨hinfo, hkernel, hbench, hn⟩, show o.benchN.toInt.toNat = 0 by rw [hn]; rfl]
    simp only [benchLoop, StateM.run_pure, Option.elim_some, mainBenchEnd, if_pos hn, and_self]
  · rw [if_neg fun h => hn h.2.2.2]
    rcases hend with ⟨hfail, hnone⟩ | ⟨hall, hlen, hsome⟩
    · rw [hnone, Option.elim_none, run_finish]
      exact ⟨reqs, by rw [hcalls], .inr ⟨rfl, hinfo, hfail⟩⟩
    · rw [hsome, Option.elim_some, mainBenchEnd, if_neg hn, StateM.run_bind, run_printLine,
        run_finish]
      exact ⟨reqs, by rw [hcalls], .inl ⟨rfl, hlen.trans hcount.symm, .inr hall⟩⟩

/-- What happens in an open session. -/
theorem mainSession_ends : Ends o s ((mainSession T o tmp).run s) := by
  apply mainSession_cases
  · exact mainInfo_ends T o s
  · exact mainKernel_ends T o s
  · exact mainBench_ends T o tmp s
  · exact fun hinfo _ hbench => mainInfer_ends T o s hinfo hbench

/-! ## The program -/

/-- The calls and the exit status of a run with the options `o`. -/
structure HostProtocol (T : Teec σ) (o : HostOpts) (r : HostExit × HostState σ) : Prop where
  session : Run.exec TeecState.step .closed r.2.calls =
    some (if r.1 = .undefined then .session else .closed)
  exit : r.1 = .undefined ∨ r.1 = .exit 0 ∨ r.1 = .exit 1
  undefined_iff : r.1 = .undefined ↔ T.initRes = 0 ∧ T.openRes = 0 ∧ ZeroBench o
  exit_zero_iff : r.1 = .exit 0 ↔ T.initRes = 0 ∧ T.openRes = 0 ∧ ¬ ZeroBench o ∧
    (o.doInfo = true ∨ ∀ c ∈ r.2.calls, Succeeds c)
  commands : r.1 = .exit 0 → r.2.calls.countP isCommand = commandCount o

/-- A run that ends with the exit status 1. -/
theorem HostProtocol.of_exit_one {T : Teec σ} {o : HostOpts} {r : HostExit × HostState σ}
    (hexit : r.1 = .exit 1)
    (hclosed : Run.exec TeecState.step .closed r.2.calls = some .closed)
    (hzero : ¬ (T.initRes = 0 ∧ T.openRes = 0 ∧ ZeroBench o))
    (hfail : T.initRes = 0 → T.openRes = 0 →
      o.doInfo = false ∧ ¬ ∀ c ∈ r.2.calls, Succeeds c) : HostProtocol T o r where
  session := by rw [hclosed, hexit]; rfl
  exit := .inr (.inr hexit)
  undefined_iff := iff_of_false (by rw [hexit]; decide) hzero
  exit_zero_iff := by
    refine iff_of_false (by rw [hexit]; decide) fun ⟨hinit, hopen, _, hok⟩ => ?_
    obtain ⟨hinfo, hsome⟩ := hfail hinit hopen
    exact hok.elim (fun htrue => by simp [hinfo] at htrue) hsome
  commands h := by rw [hexit] at h; cases h

/-- A run in which no session is opened. -/
theorem HostProtocol.of_failed {T : Teec σ} {o : HostOpts} {r : HostExit × HostState σ}
    (hopen : ¬ (T.initRes = 0 ∧ T.openRes = 0)) (hexit : r.1 = .exit 1)
    (hclosed : Run.exec TeecState.step .closed r.2.calls = some .closed) : HostProtocol T o r :=
  .of_exit_one hexit hclosed (fun h => hopen ⟨h.1, h.2.1⟩) fun hinit h => absurd ⟨hinit, h⟩ hopen

/-- All calls of a run that gets to the session and out of it. -/
def sessionCalls (reqs : List (Request × UInt32)) : List TeecCall :=
  [.initializeContext 0] ++ [.openSession 0] ++ commandCalls reqs ++ [.closeSession] ++
    [.finalizeContext]

/-- The calls from the first to the last are allowed in their order. -/
theorem exec_sessionCalls (reqs : List (Request × UInt32)) :
    Run.exec TeecState.step .closed (sessionCalls reqs) = some .closed := by
  rw [sessionCalls, List.append_assoc, Run.exec_append, Run.exec_append]
  show ((Run.exec TeecState.step .session (commandCalls reqs)).bind _) = _
  rw [exec_commandCalls]
  rfl

/-- The commands are the only invocations. -/
theorem countP_sessionCalls (reqs : List (Request × UInt32)) :
    (sessionCalls reqs).countP isCommand = reqs.length := by
  simp [sessionCalls, List.countP_append, countP_commandCalls, isCommand]

/-- Opening and closing have succeeded if the session was open. -/
theorem succeeds_sessionCalls (reqs : List (Request × UInt32)) :
    (∀ c ∈ sessionCalls reqs, Succeeds c) ↔ ∀ q ∈ reqs, q.2 = 0 := by
  rw [← succeeds_commandCalls]
  simp only [sessionCalls, List.forall_mem_append, List.forall_mem_singleton]
  exact ⟨fun h => h.1.1.2, fun h => ⟨⟨⟨⟨rfl, rfl⟩, h⟩, trivial⟩, trivial⟩⟩

/-- A run that gets to the session. -/
theorem HostProtocol.of_ends {T : Teec σ} {o : HostOpts} {s : HostState σ}
    {r : HostExit × HostState σ} (hinit : T.initRes = 0) (hopen : T.openRes = 0)
    (hcalls : s.calls = [.initializeContext 0] ++ [.openSession 0]) (h : Ends o s r) :
    HostProtocol T o r := by
  unfold Ends at h
  -- a bench of zero turns divides by zero before the session is closed
  by_cases hzero : ZeroBench o
  · rw [if_pos hzero, hcalls] at h
    obtain ⟨hexit, hr⟩ := h
    exact {
      session := by rw [hr, hexit]; rfl
      exit := .inl hexit
      undefined_iff := iff_of_true hexit ⟨hinit, hopen, hzero⟩
      exit_zero_iff := iff_of_false (by rw [hexit]; decide) fun h => h.2.2.1 hzero
      commands := fun h => by rw [hexit] at h; cases h }
  · rw [if_neg hzero, hcalls] at h
    obtain ⟨reqs, hr, hend⟩ := h
    change r.2.calls = sessionCalls reqs at hr
    have hall := succeeds_sessionCalls reqs
    rw [← hr] at hall
    have hclosed := exec_sessionCalls reqs
    rw [← hr] at hclosed
    rcases hend with ⟨hexit, hlen, hok⟩ | ⟨hexit, hinfo, q, hq, hne⟩
    · exact {
        session := by rw [hclosed, hexit]; rfl
        exit := .inr (.inl hexit)
        undefined_iff := iff_of_false (by rw [hexit]; decide) fun h => hzero h.2.2
        exit_zero_iff := iff_of_true hexit ⟨hinit, hopen, hzero, hok.imp_right hall.mpr⟩
        commands := fun _ => by rw [hr, countP_sessionCalls, hlen] }
    · exact .of_exit_one hexit hclosed (fun h => hzero h.2.2)
        fun _ _ => ⟨hinfo, fun hsucc => hne (hall.mp hsucc q hq)⟩

/-- A run with parsed options follows the protocol. -/
theorem hostRun_protocol (tee : σ) :
    HostProtocol T o ((hostRun T o tmp).run ⟨tee, [], []⟩) := by
  simp only [hostRun, teeOpen, StateM.run_bind, run_printLine, run_teecCall, StateM.run_ite,
    StateM.run_pure]
  by_cases hinit : T.initRes = 0
  · by_cases hopen : T.openRes = 0
    · simp only [hinit, hopen, ne_eq, not_true_eq_false, if_false, if_true]
      exact HostProtocol.of_ends hinit hopen rfl (mainSession_ends T o tmp _)
    · simp only [hinit, hopen, ne_eq, not_true_eq_false, not_false_eq_true, if_false, if_true,
        Bool.false_eq_true]
      refine HostProtocol.of_failed (fun h => hopen h.2) rfl ?_
      show (Run.exec TeecState.step .context [.openSession T.openRes, .finalizeContext]) = _
      simp only [Run.exec, TeecState.step, if_neg hopen, Option.bind_some]
  · simp only [hinit, ne_eq, not_false_eq_true, if_true, if_false, Bool.false_eq_true]
    refine HostProtocol.of_failed (fun h => hinit h.1) rfl ?_
    show Run.exec TeecState.step .closed [.initializeContext T.initRes] = _
    simp only [Run.exec, TeecState.step, if_neg hinit, Option.bind_some]

/-- Every run of the program, with every command line and whatever answers its calls: it
    prints its usage, nothing else, and makes no calls, or it follows the protocol of the
    API. -/
theorem hostMain_protocol (T : Teec σ) (tmp : QaiOutput) (args : List (List Char)) (tee : σ) :
    let r := (hostMain T tmp args).run ⟨tee, [], []⟩
    (∃ code, parseArgs .init args = .usage code ∧ r.1 = .exit code ∧ r.2.calls = [] ∧
        r.2.out = [.usage]) ∨
      ∃ o, parseArgs .init args = .run o ∧ HostProtocol T o r := by
  intro r
  cases hparse : parseArgs .init args with
  | usage code =>
    refine .inl ⟨code, rfl, ?_⟩
    simp only [r, hostMain, hparse, StateM.run_bind, run_printLine, StateM.run_pure,
      List.nil_append, and_self]
  | run o =>
    refine .inr ⟨o, rfl, ?_⟩
    simp only [r, hostMain, hparse]
    exact hostRun_protocol T o tmp tee

/-- A count that is not a number is zero. -/
example : parseArgs .init ["--qai".toList, "--bench".toList, "ten".toList] =
    .run { HostOpts.init with model := qaiModelQai, doBench := true, benchN := 0 } := by decide

end OpteeRpi5.Spec
