import OpteeRpi5.Spec.Service

/-!
# No residue between requests

The statevector, the scratch arrays and the selected width are globals that survive a
call, and a call finds arbitrary bytes on its stack. None of it reaches an output: a
request gets the reply it would get from a freshly started instance, apart from the
elapsed milliseconds. The one thing a request can tell of the requests before it is
`rng_state`, and only `BENCH_FIDELITY` can.

## Key results

- `serve_rngState`: `rng_state` after a history is a function of the requests alone
- `invoke_noResidue`: a served history is invisible to the next request
-/

namespace OpteeRpi5.Spec

open OpteeRpi5.Native

variable {D : Type}

/-! ## Replies up to the elapsed time -/

/-- The bytes of the output memref that hold the elapsed milliseconds. -/
def elapsedField (cmdId : UInt32) (off : Nat) : Prop :=
  if cmdId = taQaiCmdQocBlock ∨ cmdId = taQaiCmdQmocBlock ∨ cmdId = taQaiCmdHaiInfer then
    off < 4
  else cmdId = taQaiCmdBenchFidelity ∧ 4 ≤ off ∧ off < 8

/-- Two calls end with the same result code, the same sizes and values, and the same
    bytes except those of the elapsed time. -/
structure SameReply (cmdId : UInt32) (r r' : TeeResult × Ta D) : Prop where
  result : r.1 = r'.1
  sizes : ∀ p, (r.2.params p).memref.size = (r'.2.params p).memref.size
  values : ∀ p, (r.2.params p).a = (r'.2.params p).a ∧ (r.2.params p).b = (r'.2.params p).b
  bytes : ∀ p off, ¬ (p = 1 ∧ elapsedField cmdId off) →
    (r.2.params p).memref.buffer off = (r'.2.params p).memref.buffer off

/-- Two answers differ in the elapsed time only. -/
inductive SameAnswer (cmdId : UInt32) : Answer → Answer → Prop where
  | refl (ans : Answer) : SameAnswer cmdId ans ans
  | reply (bytes bytes' : Buf) (size : Nat)
      (h : ∀ off, ¬ elapsedField cmdId off → bytes off = bytes' off) :
      SameAnswer cmdId (.reply 1 bytes size) (.reply 1 bytes' size)

/-- Answers that branch on the same condition. -/
theorem SameAnswer.ite {cmdId : UInt32} {c : Prop} [Decidable c] {a a' b b' : Answer}
    (ha : c → SameAnswer cmdId a a') (hb : SameAnswer cmdId b b') :
    SameAnswer cmdId (if c then a else b) (if c then a' else b') := by
  split
  · next hc => exact ha hc
  · exact hb

/-- Calls that serve answers which differ in the elapsed time only end alike. -/
theorem SameAnswer.sameReply {cmdId pt rng rng' : UInt32} {t₀ t₀' : Ta D} {ans ans' : Answer}
    {r r' : TeeResult × Ta D} (h : SameAnswer cmdId ans ans') (hr : Serves pt t₀ ans rng r)
    (hr' : Serves pt t₀' ans' rng' r') (hparams : t₀.params = t₀'.params) :
    SameReply cmdId r r' := by
  cases h with
  | refl ans =>
    have heq : r.2.params = r'.2.params := by rw [hr.params, hr'.params, hparams]
    exact ⟨hr.result.trans hr'.result.symm, fun p => by rw [heq], fun p => by rw [heq]; simp,
      fun p off _ => by rw [heq]⟩
  | reply bytes bytes' size hb =>
    have hp := hr.params
    have hp' := hr'.params
    rw [← hparams] at hp'
    rw [Answer.params] at hp hp'
    -- only parameter 1 is written, so the others are those of the request
    have hrest : ∀ p, p ≠ 1 → r.2.params p = r'.2.params p := by
      intro p h1
      rw [hp, hp', Function.update_of_ne h1, Function.update_of_ne h1]
    refine ⟨hr.result.trans hr'.result.symm, ?_, ?_, ?_⟩
    · intro p
      by_cases h1 : p = 1
      · rw [h1, hp, hp', Function.update_self, Function.update_self]
      · rw [hrest p h1]
    · intro p
      by_cases h1 : p = 1
      · rw [h1, hp, hp', Function.update_self, Function.update_self]
        exact ⟨rfl, rfl⟩
      · rw [hrest p h1]
        exact ⟨rfl, rfl⟩
    · intro p off hoff
      by_cases h1 : p = 1
      · rw [h1, hp, hp', Function.update_self, Function.update_self]
        simp only [Buf.copy, Nat.zero_add, Nat.sub_zero, hb off (fun hf => hoff ⟨h1, hf⟩)]
      · rw [hrest p h1]

/-! ## The answers -/

/-- Past its first word the header of a block does not show the elapsed time. -/
private theorem blockOutBuf_elapsed (e e' n : UInt32) {i : Nat} (hi : ¬ i < 4) :
    blockOutBuf e n i = blockOutBuf e' n i := by
  obtain ⟨j, rfl⟩ := Nat.exists_eq_add_of_le' (Nat.not_lt.mp hi)
  simp only [blockOutBuf, Buf.ofWords_cons_add]

/-- Only the second word of a bench result shows the elapsed time. -/
private theorem benchBuf_elapsed (o : QaiFidelityBench) (e : UInt32) {i : Nat}
    (hi : ¬ (4 ≤ i ∧ i < 8)) :
    o.toBuf i = { o with teeElapsedMs := e }.toBuf i := by
  simp only [QaiFidelityBench.toBuf, List.cons_append, List.nil_append]
  by_cases h4 : i < 4
  · exact Buf.ofWords_cons_of_lt _ _ _ h4
  · obtain ⟨j, rfl⟩ := Nat.exists_eq_add_of_le' (show 8 ≤ i by omega)
    have h8 : j + 8 = j + 4 + 4 := rfl
    simp only [h8, Buf.ofWords_cons_add]

/-- The time is the only word that differs. -/
private theorem haiAnswer_elapsed {cmdId : UInt32} (hcmd : cmdId = taQaiCmdHaiInfer)
    (pt : UInt32) (params : Fin 4 → TeeParam) (e e' : UInt32) :
    SameAnswer cmdId (haiAnswer pt params e) (haiAnswer pt params e') := by
  refine .ite (fun _ => .refl _) (.ite (fun _ => .refl _) (.ite (fun _ => .refl _)
    (.ite (fun _ => .refl _) ?_)))
  refine SameAnswer.reply _ _ _ (fun off hoff => ?_)
  rw [elapsedField, if_pos (Or.inr (Or.inr hcmd))] at hoff
  simp only [Buf.append, blockOutBuf_elapsed e e' _ hoff]

section Circuit

variable [RatCast D] [Add D] [Sub D] [Mul D] [Neg D] [Div D] [LT D] [DecidableLT D]
  [FloatConv D]

private theorem blockAnswer_elapsed {cmdId : UInt32}
    (hcmd : cmdId = taQaiCmdQocBlock ∨ cmdId = taQaiCmdQmocBlock) (pt reps : UInt32)
    (params : Fin 4 → TeeParam) (e e' : UInt32) :
    SameAnswer cmdId (blockAnswer D pt reps params e) (blockAnswer D pt reps params e') := by
  refine .ite (fun _ => .refl _) (.ite (fun _ => .refl _) (.ite (fun _ => .refl _)
    (.ite (fun _ => .refl _) (.ite (fun _ => .refl _) ?_))))
  refine SameAnswer.reply _ _ _ (fun off hoff => ?_)
  rw [elapsedField, if_pos (by tauto)] at hoff
  simp only [Buf.append, blockOutBuf_elapsed e e' _ hoff]

private theorem benchAnswer_elapsed {cmdId : UInt32} (hcmd : cmdId = taQaiCmdBenchFidelity)
    (pt : UInt32) (params : Fin 4 → TeeParam) (rng e e' : UInt32) :
    SameAnswer cmdId (benchAnswer D pt params rng e) (benchAnswer D pt params rng e') := by
  refine .ite (fun _ => .refl _) (.ite (fun _ => .refl _) (.ite (fun _ => .refl _) ?_))
  refine SameAnswer.reply _ _ _ (fun off hoff => ?_)
  rw [elapsedField, if_neg (by rw [hcmd]; decide)] at hoff
  exact benchBuf_elapsed (benchResult D rng e (params 0).a) e' (fun h => hoff ⟨hcmd, h⟩)

/-- The answer to a request shows the elapsed time in its field only, and `rng_state`
    only if the request is `BENCH_FIDELITY`. -/
theorem answer_elapsed (req : Request) {rng rng' : UInt32}
    (hrng : req.cmdId = taQaiCmdBenchFidelity → rng = rng') (e e' : UInt32) :
    SameAnswer req.cmdId (answer D req rng e) (answer D req rng' e') := by
  have hbench (h : req.cmdId = taQaiCmdBenchFidelity) : SameAnswer req.cmdId
      (benchAnswer D req.paramTypes req.params rng e)
      (benchAnswer D req.paramTypes req.params rng' e') := by
    rw [hrng h]
    exact benchAnswer_elapsed h _ _ _ _ _
  unfold answer
  -- the commands without a clock, in the order of the switch
  refine .ite (fun _ => .refl _) (.ite (fun _ => .refl _) (.ite (fun _ => .refl _)
    (.ite (fun _ => .refl _) (.ite (fun _ => .refl _) ?_))))
  refine .ite hbench ?_
  refine .ite (fun h => blockAnswer_elapsed (Or.inl h) _ _ _ _ _) ?_
  refine .ite (fun h => haiAnswer_elapsed h _ _ _ _) ?_
  exact .ite (fun h => blockAnswer_elapsed (Or.inr h) _ _ _ _ _) (.refl _)

/-! ## Histories -/

/-- `rng_state` after a history is a function of the requests alone. -/
theorem serve_rngState (st : Statics D) (hist : List (Stack D × Request)) :
    (serve st hist).rngState = hist.foldl (fun rng sr => nextRng sr.2 rng) st.rngState := by
  induction hist generalizing st with
  | nil => rfl
  | cons sr rest ih =>
    obtain ⟨stk, req⟩ := sr
    rw [serve, ih, List.foldl_cons]
    have hnext : (invoke st stk req).2.statics.rngState = nextRng req st.rngState :=
      (invoke_serves st stk req).rngState
    rw [hnext]

/-- A freshly started instance to compare with: `BENCH_FIDELITY` is given the
    `rng_state` the history has left. -/
def freshFor (cmdId : UInt32) (rng : UInt32) : Statics D :=
  if cmdId = taQaiCmdBenchFidelity then { Statics.init with rngState := rng }
  else Statics.init

/-- No residue: after any history of requests, whatever the stacks held, a request is
    answered as by a freshly started instance, elapsed time aside. -/
theorem invoke_noResidue (hist : List (Stack D × Request)) (stk stk' : Stack D)
    (req : Request) :
    SameReply req.cmdId (invoke (serve Statics.init hist) stk req)
      (invoke (freshFor req.cmdId (serve Statics.init hist).rngState) stk' req) := by
  have hrng : req.cmdId = taQaiCmdBenchFidelity → (serve Statics.init hist).rngState =
      (freshFor req.cmdId (serve Statics.init hist).rngState : Statics D).rngState := by
    intro h
    rw [freshFor, if_pos h]
  exact (answer_elapsed req hrng _ _).sameReply (invoke_serves _ stk req)
    (invoke_serves _ stk' req) rfl

end Circuit

end OpteeRpi5.Spec
