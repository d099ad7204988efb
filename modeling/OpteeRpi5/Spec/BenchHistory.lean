import OpteeRpi5.ForMathlib.Lcg
import OpteeRpi5.Spec.NoResidue

/-!
# The generator over the life of an instance

`rng_state` is the only static that a reply depends on. Accepted requests for the bench
advance it, and nothing else does. The constants of the generator give it the full period
of `2 ^ 32`, so the vectors of two benches are drawn from different states until that many
numbers have been drawn in between.

## Key results

- `lcg_iterate_eq_iff`: the period of the generator
- `bench_states_distinct`: when two benches of one instance start from the same state
-/

namespace OpteeRpi5.Spec

open OpteeRpi5.Native

/-! ## The period -/

/-- A state as a number modulo `2 ^ 32`. -/
def rngZMod (r : UInt32) : ZMod (2 ^ 32) := (r.toNat : ZMod (2 ^ 32))

/-- The states of the generator are residues. -/
theorem rngZMod_injective : Function.Injective rngZMod := by
  intro r s h
  have hmod := (ZMod.natCast_eq_natCast_iff' _ _ _).mp h
  rw [Nat.mod_eq_of_lt r.toNat_lt, Nat.mod_eq_of_lt s.toNat_lt] at hmod
  exact UInt32.toNat_inj.mp hmod

/-- The generator of the benchmark, with its multiplier and increment. -/
theorem rngZMod_lcg (r : UInt32) :
    rngZMod (lcg r) = Lcg.step ((1664525 : ℤ) : ZMod (2 ^ 32)) (1013904223 : ℤ) (rngZMod r) := by
  rw [rngZMod, rngZMod, lcg, Lcg.step, UInt32.toNat_add, UInt32.toNat_mul]
  rw [Nat.mod_add_mod, ZMod.natCast_mod]
  push_cast
  rfl

/-- The generator comes back to a state after the multiples of `2 ^ 32` steps only. -/
theorem lcg_iterate_eq_iff (r : UInt32) (n : Nat) : lcg^[n] r = r ↔ 2 ^ 32 ∣ n := by
  have hiter : rngZMod (lcg^[n] r) =
      (Lcg.step ((1664525 : ℤ) : ZMod (2 ^ 32)) (1013904223 : ℤ))^[n] (rngZMod r) :=
    (Function.Semiconj.iterate_right rngZMod_lcg n) r
  rw [← rngZMod_injective.eq_iff, hiter]
  exact Lcg.iterate_step_eq_self_iff (by decide) (by decide) (rngZMod r) n

/-! ## Histories -/

/-- A request for the bench that passes its checks. -/
def BenchAccepted (req : Request) : Prop :=
  req.cmdId = taQaiCmdBenchFidelity ∧
  req.paramTypes = teeParamTypes teeParamTypeValueInput teeParamTypeMemrefOutput teeParamTypeNone
    teeParamTypeNone ∧
  sizeofQaiFidelityBench ≤ (req.params 1).memref.size ∧ (req.params 0).a ≤ 20000

instance (req : Request) : Decidable (BenchAccepted req) :=
  inferInstanceAs (Decidable (_ ∧ _ ∧ _ ∧ _))

/-- How many numbers a request draws: a vector of 16 angles for the self-fidelity, and two for
    each evaluation. -/
def drawsOf (req : Request) : Nat :=
  if BenchAccepted req then 16 * (2 * (req.params 0).a.toNat + 1) else 0

/-- A request steps the generator once for each number it draws. -/
theorem nextRng_eq (req : Request) (rng : UInt32) : nextRng req rng = lcg^[drawsOf req] rng := by
  by_cases hcmd : req.cmdId = taQaiCmdBenchFidelity
  · rw [nextRng, if_pos hcmd, benchRng]
    -- the checks of the command in their order; a refused call draws nothing
    by_cases htypes : req.paramTypes = teeParamTypes teeParamTypeValueInput
        teeParamTypeMemrefOutput teeParamTypeNone teeParamTypeNone
    · by_cases hsize : (req.params 1).memref.size < sizeofQaiFidelityBench
      · have hno : ¬ BenchAccepted req := fun h => absurd h.2.2.1 (by omega)
        simp [drawsOf, hno, htypes, hsize]
      · by_cases hevals : (req.params 0).a > 20000
        · have hno : ¬ BenchAccepted req := fun h => absurd h.2.2.2 (UInt32.not_le.mpr hevals)
          simp [drawsOf, hno, htypes, hsize, hevals]
        · have hyes : BenchAccepted req :=
            ⟨hcmd, htypes, Nat.le_of_not_lt hsize, UInt32.not_lt.mp hevals⟩
          rw [if_neg (not_not.mpr htypes), if_neg hsize, if_neg hevals, drawsOf, if_pos hyes]
          rfl
    · have hno : ¬ BenchAccepted req := fun h => htypes h.2.1
      simp [drawsOf, hno, htypes]
  · have hno : ¬ BenchAccepted req := fun h => hcmd h.1
    simp [nextRng, drawsOf, hno, hcmd]

variable {D : Type}

/-- The numbers drawn over a history. -/
def draws (hist : List (Stack D × Request)) : Nat := (hist.map fun sr => drawsOf sr.2).sum

/-- The accepted benches of a history. -/
def benches (hist : List (Stack D × Request)) : Nat := hist.countP fun sr => BenchAccepted sr.2

theorem draws_cons (sr : Stack D × Request) (hist : List (Stack D × Request)) :
    draws (sr :: hist) = drawsOf sr.2 + draws hist := by
  simp [draws]

/-- The draws of a history add up. -/
theorem draws_append (hist hist' : List (Stack D × Request)) :
    draws (hist ++ hist') = draws hist + draws hist' := by
  simp [draws]

/-- Every bench draws something, and none more than 640016 numbers. -/
theorem draws_bounds (hist : List (Stack D × Request)) :
    16 * benches hist ≤ draws hist ∧ draws hist ≤ 640016 * benches hist := by
  induction hist with
  | nil => simp [draws, benches]
  | cons sr hist ih =>
    rw [draws_cons, benches, List.countP_cons]
    rw [benches] at ih
    by_cases h : BenchAccepted sr.2
    · have hevals : (sr.2.params 0).a.toNat ≤ 20000 := h.2.2.2
      simp only [drawsOf, h, if_true, decide_true]
      omega
    · simp only [drawsOf, h, if_false, decide_false, Bool.false_eq_true]
      omega

section History

variable [RatCast D] [Add D] [Sub D] [Mul D] [Neg D] [Div D] [LT D] [DecidableLT D]
  [FloatConv D]

/-- The generator after a history. -/
theorem serve_rngState_eq (st : Statics D) (hist : List (Stack D × Request)) :
    (serve st hist).rngState = lcg^[draws hist] st.rngState := by
  rw [serve_rngState]
  generalize st.rngState = r
  induction hist generalizing r with
  | nil => rfl
  | cons sr hist ih =>
    rw [List.foldl_cons, nextRng_eq, ih, draws_cons, Nat.add_comm, Function.iterate_add_apply]

/-- A bench starts from the state of an earlier one of the same instance exactly when the
    numbers drawn from the one to the other are a multiple of `2 ^ 32`, which takes more
    than 6710 benches. -/
theorem bench_states_distinct (st : Statics D) (hist hist' : List (Stack D × Request)) :
    ((serve st (hist ++ hist')).rngState = (serve st hist).rngState ↔ 2 ^ 32 ∣ draws hist') ∧
    (0 < benches hist' → benches hist' ≤ 6710 →
      (serve st (hist ++ hist')).rngState ≠ (serve st hist).rngState) := by
  have hperiod : (serve st (hist ++ hist')).rngState = (serve st hist).rngState ↔
      2 ^ 32 ∣ draws hist' := by
    rw [serve_rngState_eq, serve_rngState_eq, draws_append, Nat.add_comm,
      Function.iterate_add_apply]
    exact lcg_iterate_eq_iff _ _
  refine ⟨hperiod, ?_⟩
  intro hpos hle heq
  obtain ⟨hlow, hhigh⟩ := draws_bounds hist'
  have hlt := Nat.le_of_dvd (by omega) (hperiod.mp heq)
  omega

end History

end OpteeRpi5.Spec
