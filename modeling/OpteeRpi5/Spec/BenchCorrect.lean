import OpteeRpi5.Spec.KernelBlockCorrect

/-!
# The fidelity bench

`qai_fidelity_bench` draws feature vectors from a linear congruential generator and
sums kernel values. Its only input besides the number of evaluations is `rng_state`.

## Key results

- `qaiFidelityBench_run`: what the bench returns, as a function of `rng_state`
- `qaiFidelityBench_safe`: the bench stays in bounds
-/

namespace OpteeRpi5.Spec

open OpteeRpi5.Native

variable {D : Type}

/-! ## The generator -/

/-- One step of `rng_state`. -/
def lcg (r : UInt32) : UInt32 := r * 1664525 + 1013904223

section Generator

variable [RatCast D] [Add D] [Sub D] [Mul D] [Div D]

/-- The angle made from a generator state. -/
def angle (r : UInt32) : D :=
  lit (r >>> 8).toNat * (lit 1 / lit 16777216) * (lit 2 * qaiPi) - qaiPi

/-- The vector `fill_vec` draws from generator state `r`. -/
def angles (r : UInt32) : Nat → D := fun i => angle (lcg^[i + 1] r)

/-- What the first `k` iterations of `fill_vec` do. -/
structure FillInv (v : Loc) (s₀ : Kern D) (k : Nat) (s : Kern D) : Prop where
  kernNq : s.kernNq = s₀.kernNq
  kernDim : s.kernDim = s₀.kernDim
  rngState : s.rngState = lcg^[k] s₀.rngState
  row : ∀ i < k, s.loc v i = angles s₀.rngState i
  other : ∀ a ≠ v, s.loc a = s₀.loc a
  log : ∀ a ∈ s.log, a ∈ s₀.log ∨ ∃ i < k, a = .writeLoc v i

omit [Add D] in
/-- One draw: the generator steps, and the angle is made of its new state. -/
theorem run_nextAngle (s : Kern D) : (nextAngle : KernM D D).run s =
    (angle (lcg s.rngState), { s with rngState := lcg s.rngState }) := by
  simp only [nextAngle, StateM.run_bind, StateM.run_modify, StateM.run_get, StateM.run_pure]
  rfl

omit [Add D] in
/-- `fill_vec`. -/
theorem fillVec_run (v : Loc) (s : Kern D) :
    FillInv v s qaiNfeat8 ((fillVec v).run s).2 := by
  apply Loop.up_inv (fun k (_ : Unit) s' => FillInv v s k s')
  · exact ⟨rfl, rfl, rfl, fun i hi => by omega, fun _ _ => rfl, fun _ ha => Or.inl ha⟩
  · intro k _ s' _ h
    simp only [StateM.run_bind, run_nextAngle, run_writeLoc, h.rngState,
      ← Function.iterate_succ_apply']
    -- the angle that is written is the first draw that the invariant does not cover
    refine ⟨h.kernNq, h.kernDim, rfl, ?_, ?_, ?_⟩
    · intro i hi
      by_cases hik : i = k
      · subst hik
        simp only [Function.update_self, angles]
      · simp only [Function.update_self, Function.update_of_ne hik]
        exact h.row i (by omega)
    · intro a ha
      simp only [Function.update_of_ne ha]
      exact h.other a ha
    · intro a ha
      rw [List.mem_cons] at ha
      rcases ha with rfl | ha
      · exact Or.inr ⟨k, by omega, rfl⟩
      · rcases h.log a ha with hold | ⟨i, hi, rfl⟩
        · exact Or.inl hold
        · exact Or.inr ⟨i, by omega, rfl⟩

omit [Add D] in
/-- Filling a vector does not touch the width. -/
theorem FillInv.width {v : Loc} {s s' : Kern D} {k n : Nat} (h : FillInv v s k s')
    (hw : WidthOk n s) : WidthOk n s' :=
  ⟨h.kernNq.trans hw.1, h.kernDim.trans hw.2.1, hw.2.2⟩

omit [Add D] in
/-- All stores of the loop are inside the vector. -/
theorem FillInv.safe {v : Loc} {s s' : Kern D} {k : Nat} (h : FillInv v s k s')
    (hk : k ≤ v.cap) {pt : UInt32} {size : Fin 4 → Nat} (hs : Safe pt size s) :
    Safe pt size s' := by
  intro a ha
  rcases h.log a ha with hold | ⟨i, hi, rfl⟩
  · exact hs a hold
  · exact lt_of_lt_of_le hi hk

end Generator

/-! ## The bench -/

section Bench

variable [RatCast D] [Add D] [Sub D] [Mul D] [Neg D] [Div D] [LT D] [DecidableLT D]

/-- Kernel value of the vectors drawn from generator states `r` and `r'`. -/
def benchValue (r r' : UInt32) : D :=
  fidelityValue 8 kTrig (angles r) (angles r') qaiReps.toNat

/-- Generator state after `k` vectors. -/
def afterVectors (k : Nat) (r : UInt32) : UInt32 := lcg^[qaiNfeat8 * k] r

/-- The sum over the first `k` evaluations; the first vector is the one of the
    self-fidelity. -/
def benchSum (r : UInt32) (k : Nat) : D :=
  Loop.fold k (fun i acc =>
    acc + benchValue (afterVectors (2 * i + 1) r) (afterVectors (2 * i + 2) r)) (lit 0)

/-- A vector takes sixteen draws. -/
theorem afterVectors_succ (k : Nat) (r : UInt32) :
    afterVectors (k + 1) r = lcg^[qaiNfeat8] (afterVectors k r) := by
  rw [afterVectors, Nat.mul_succ, Nat.add_comm, Function.iterate_add_apply]
  rfl

/-- `fidelity_exp` on two vectors of the bench. -/
private theorem fidelityExp_run (x y : Loc) {r r' : UInt32} (s : Kern D) (hw : WidthOk 8 s)
    (hx : ∀ i < 16, s.loc x i = angles r i) (hy : ∀ i < 16, s.loc y i = angles r' i) :
    ((fidelityExp x y).run s).1 = benchValue r r' ∧
      SameFrame s ((fidelityExp x y).run s).2 := by
  obtain ⟨hv, hf⟩ := fidelityExpReps_run (by omega) kTrig x y qaiReps s hw
  refine ⟨hv.trans ?_, hf⟩
  exact fidelityValue_congr kTrig qaiReps.toNat hx hy

/-- The state before evaluation `k`. -/
structure BenchInv (r : UInt32) (k : Nat) (acc : D) (s : Kern D) : Prop where
  width : WidthOk 8 s
  rngState : s.rngState = afterVectors (2 * k + 1) r
  acc : acc = benchSum r k

/-- One evaluation of the bench. -/
def benchEval (acc : D) : KernM D D := do
  fillVec .benchX
  fillVec .benchY
  return acc + (← fidelityExp .benchX .benchY)

/-- One evaluation keeps the invariant of the loop. -/
private theorem benchEval_inv {r : UInt32} {k : Nat} {acc : D} {s : Kern D}
    (h : BenchInv r k acc s) :
    BenchInv r (k + 1) ((benchEval acc).run s).1 ((benchEval acc).run s).2 := by
  simp only [benchEval, StateM.run_bind, StateM.run_pure]
  have hx := fillVec_run .benchX s
  generalize ((fillVec Loc.benchX).run s).2 = s₁ at hx ⊢
  have hy := fillVec_run .benchY s₁
  generalize ((fillVec Loc.benchY).run s₁).2 = s₂ at hy ⊢
  have hr₁ : s₁.rngState = afterVectors (2 * k + 2) r := by
    rw [hx.rngState, h.rngState]
    exact (afterVectors_succ (2 * k + 1) r).symm
  have hw := hy.width (hx.width h.width)
  -- the second `fill_vec` leaves the first vector alone
  have hrowX : ∀ i < 16, s₂.loc .benchX i = angles (afterVectors (2 * k + 1) r) i := by
    intro i hi
    rw [hy.other .benchX (by decide), hx.row i hi, h.rngState]
  have hrowY : ∀ i < 16, s₂.loc .benchY i = angles (afterVectors (2 * k + 2) r) i := by
    intro i hi
    rw [hy.row i hi, hr₁]
  obtain ⟨hv, hf⟩ := fidelityExp_run .benchX .benchY s₂ hw hrowX hrowY
  refine ⟨hw.of_frame hf, ?_, ?_⟩
  · rw [hf.rngState, hy.rngState, hr₁, ← afterVectors_succ]
    rfl
  · rw [hv, h.acc]
    rfl

variable [FloatConv D]

/-- What `qai_fidelity_bench` returns when started with `rng_state = r`. -/
def benchResult (D : Type) [RatCast D] [Add D] [Sub D] [Mul D] [Neg D] [Div D] [LT D]
    [DecidableLT D] [FloatConv D] (r : UInt32) (elapsed evals : UInt32) :
    QaiFidelityBench where
  evals := evals
  teeElapsedMs := elapsed
  selfExpMicro := FloatConv.toInt64 (benchValue r r * lit 1000000 : D)
  batchSumMicro := FloatConv.toInt64 (benchSum r evals.toNat * lit 1000000 : D)

/-- The benchmark with a count that it accepts. -/
private theorem run_bench {t0 t1 : TeeTime} {evals : UInt32} (he : ¬ evals > 20000)
    (s : Kern D) :
    (qaiFidelityBench t0 t1 evals).run s =
      let s₁ := ((fillVec .selfX).run ((kernelSelect 8).run s).2).2
      let self := (fidelityExp .selfX .selfX).run s₁
      let sum := (Loop.up evals.toNat (fun _ acc => benchEval acc) (lit 0)).run self.2
      (.ok
        { evals := evals
          teeElapsedMs := deltaMs t0 t1
          selfExpMicro := FloatConv.toInt64 (self.1 * lit 1000000)
          batchSumMicro := FloatConv.toInt64 (sum.1 * lit 1000000) }, sum.2) := by
  simp only [qaiFidelityBench, if_neg he, StateM.run_bind, StateM.run_pure]
  rfl

/-- `qai_fidelity_bench`: more than 20000 evaluations are refused, and otherwise the
    result is a function of `rng_state` alone. -/
theorem qaiFidelityBench_run (t0 t1 : TeeTime) (evals : UInt32) (s : Kern D) :
    if evals > 20000 then
      (qaiFidelityBench t0 t1 evals).run s = (.error .badParameters, s)
    else
      ((qaiFidelityBench t0 t1 evals).run s).1 =
        .ok (benchResult D s.rngState (deltaMs t0 t1) evals) ∧
      ((qaiFidelityBench t0 t1 evals).run s).2.rngState =
        afterVectors (2 * evals.toNat + 1) s.rngState := by
  split
  · next he => simp only [qaiFidelityBench, if_pos he, StateM.run_pure]
  · next he =>
    rw [run_bench he]
    have hsel : WidthOk 8 ((kernelSelect 8).run s).2 := ⟨rfl, rfl, by decide⟩
    have hx := fillVec_run .selfX ((kernelSelect 8).run s).2
    have hself : ∀ i < 16, ((fillVec .selfX).run ((kernelSelect 8).run s).2).2.loc .selfX i =
        angles s.rngState i := fun i hi => hx.row i hi
    obtain ⟨hv, hf⟩ := fidelityExp_run .selfX .selfX _ (hx.width hsel) hself hself
    -- the loop starts with the generator after the vector of the self-fidelity
    have hsum := Loop.up_inv (n := evals.toNat) (a := (lit 0 : D)) (BenchInv s.rngState)
      ⟨(hx.width hsel).of_frame hf, hf.rngState.trans hx.rngState, rfl⟩
      (fun _ _ _ _ h => benchEval_inv h)
    refine ⟨?_, hsum.rngState⟩
    simp only [hv, hsum.acc]
    rfl

/-! ## Safety -/

omit [FloatConv D] in
/-- The kernel of two vectors of the benchmark stays inside its arrays. -/
private theorem fidelityExp_safe (x y : Loc) (hx : 16 ≤ x.cap) (hy : 16 ≤ y.cap) {pt : UInt32}
    {size : Fin 4 → Nat} {s : Kern D} (hw : WidthOk 8 s) (hs : Safe pt size s) :
    WidthOk 8 ((fidelityExp x y).run s).2 ∧ Safe pt size ((fidelityExp x y).run s).2 :=
  ⟨hw.of_frame (fidelityExpReps_run (by omega) kTrig x y qaiReps s hw).2,
    fidelityExpReps_safe (by omega) kTrig x y qaiReps hx hy s hw hs⟩

/-- `qai_fidelity_bench` stays in bounds. -/
theorem qaiFidelityBench_safe (t0 t1 : TeeTime) (evals : UInt32) {pt : UInt32}
    {size : Fin 4 → Nat} {s : Kern D} (hs : Safe pt size s) :
    Safe pt size ((qaiFidelityBench t0 t1 evals).run s).2 := by
  by_cases he : evals > 20000
  · simp only [qaiFidelityBench, if_pos he, StateM.run_pure]
    exact hs
  rw [run_bench he]
  have hsel : WidthOk 8 ((kernelSelect 8).run s).2 := ⟨rfl, rfl, by decide⟩
  have hx := fillVec_run .selfX ((kernelSelect 8).run s).2
  have hself := fidelityExp_safe .selfX .selfX (by decide) (by decide) (hx.width hsel)
    (hx.safe (by decide) hs)
  refine (Loop.up_inv (fun _ (_ : D) s => WidthOk 8 s ∧ Safe pt size s) hself ?_).2
  intro _ acc s' _ h
  simp only [benchEval, StateM.run_bind, StateM.run_pure]
  have h₁ := fillVec_run .benchX s'
  have h₂ := fillVec_run .benchY ((fillVec .benchX).run s').2
  exact fidelityExp_safe .benchX .benchY (by decide) (by decide) (h₂.width (h₁.width h.1))
    (h₂.safe (by decide) (h₁.safe (by decide) h.2))

end Bench

end OpteeRpi5.Spec
