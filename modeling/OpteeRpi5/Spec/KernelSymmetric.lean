import OpteeRpi5.ForMathlib.Binary32
import OpteeRpi5.Native.HaiScore
import OpteeRpi5.Spec.CircuitMirror
import OpteeRpi5.Spec.KernelClientCorrect

/-!
# Exact values and symmetry of the kernel

What the mirror image of `CircuitMirror` means for the code, over exact real arithmetic:
the circuit of a vector with itself ends in a multiple of the first basis vector, and
exchanging the vectors conjugates the first amplitude. So the kernel of a vector with
itself is known, and the kernel is symmetric, from one call of `fidelity_exp_reps` to
the matrix that the scorer reads.

## Key results

- `selfFidelity_exact`: the statevector and the kernel value of a vector with itself
- `kernel_symmetric`: symmetry of the kernel and of the matrices made with it
-/

namespace OpteeRpi5.Spec

open OpteeRpi5.Native Matrix
open scoped Numerals

/-! ## Widths -/

/-- The numbers of qubits that the TA supports. -/
inductive Width where
  | eight
  | sixteen

namespace Width

/-- The number of qubits. -/
def n : Width → Nat
  | eight => 8
  | sixteen => 16

theorem two_le_n (w : Width) : 2 ≤ w.n := by
  cases w <;> decide

theorem n_le (w : Width) : w.n ≤ qaiNqMax := by
  cases w <;> decide

end Width

/-- The state after `kernel_select`. -/
def select {D : Type} (w : Width) (s : Kern D) : Kern D := ((kernelSelect w.n).run s).2

/-- `kernel_select` establishes the width. -/
theorem select_width {D : Type} (w : Width) (s : Kern D) : WidthOk w.n (select w s) :=
  ⟨rfl, Nat.one_shiftLeft w.n, w.n_le⟩

/-- It does not touch the feature vectors. -/
theorem select_loc {D : Type} (w : Width) (s : Kern D) : (select w s).loc = s.loc := rfl

/-- The two clamps, in one formula. -/
theorem clampUnit_eq (p : ℝ) : clampUnit p = min 1 (max 0 p) := by
  have h0 : (if p < lit 0 then lit 0 else p) = max 0 p := by
    rw [lit_zero_real]
    rcases lt_or_ge p 0 with h | h
    · rw [if_pos h, max_eq_left h.le]
    · rw [if_neg h.not_gt, max_eq_right h]
  simp only [clampUnit, h0, lit_one_real]
  rcases lt_or_ge 1 (max 0 p) with h | h
  · rw [if_pos h, min_eq_left h.le]
  · rw [if_neg h.not_gt, min_eq_right h]

/-! ## A vector with itself -/

section Self

variable (t : ParityTrig)

/-- The amplitudes of the circuit of a vector with itself. -/
theorem circuitAct_self_apply {n : Nat} (hn : 2 ≤ n) (x : Nat → ℝ) (reps : Nat) {i : Nat}
    (hi : i < 2 ^ n) : circuitAct n t.toTrig x x reps i =
      if i = 0 then (circuitNorm t n x reps, 0) else (0, 0) := by
  have h := congrFun (circuitAct_self t hn x reps) ⟨i, hi⟩
  rw [Pi.smul_apply, vec_basisZero, smul_eq_mul] at h
  by_cases h0 : i = 0
  · subst h0
    rw [Pi.single_eq_same, mul_one] at h
    rw [if_pos rfl]
    exact Prod.ext (congrArg Complex.re h) (congrArg Complex.im h)
  · have hne : (⟨i, hi⟩ : Fin (2 ^ n)) ≠ ⟨0, Nat.two_pow_pos n⟩ := fun he => h0 (Fin.ext_iff.mp he)
    rw [Pi.single_eq_of_ne hne, mul_zero] at h
    rw [if_neg h0]
    exact Prod.ext (congrArg Complex.re h) (congrArg Complex.im h)

/-- The kernel value of a vector with itself. -/
theorem fidelityValue_self {n : Nat} (hn : 2 ≤ n) (x : Nat → ℝ) (reps : Nat) :
    fidelityValue n t.toTrig x x reps =
      kExpUnit (min 1 (max 0 (circuitNorm t n x reps ^ 2))) := by
  rw [fidelityValue, circuitAct_self_apply t hn x reps (Nat.two_pow_pos n), if_pos rfl,
    clampUnit_eq, mul_zero, add_zero, ← sq]

end Self

/-- `k_cos(a)^2 + k_sin(a)^2`. -/
noncomputable def kNormSq (a : ℝ) : ℝ := kCos a ^ 2 + kSin a ^ 2

/-- The product over the qubits of the factors of their rotations. -/
noncomputable def selfAmplitude (w : Width) (x : Nat → ℝ) (reps : Nat) : ℝ :=
  ∏ q ∈ Finset.range w.n,
    (kNormSq (x (2 * q) / 2) * kNormSq (x (2 * q + 1) / 2)) ^ (2 * reps)

/-- The circuit of a vector `x` with itself ends with the amplitudes `(P, 0, .., 0)`, and
    its kernel value is `k_exp_unit` of `P` squared, clamped. Only the parity of `k_sin`
    and `k_cos` enters, through `kParity`. -/
theorem selfFidelity_exact (w : Width) (s : Kern ℝ) (x : Loc) (reps : UInt32) :
    (∀ i < 2 ^ w.n, amp ((fidelityCircuit kTrig x x reps).run (select w s)).2 i =
      if i = 0 then (selfAmplitude w (s.loc x) reps.toNat, 0) else (0, 0)) ∧
    ((fidelityExpReps kTrig x x reps).run (select w s)).1 =
      kExpUnit (min 1 (max 0 (selfAmplitude w (s.loc x) reps.toNat ^ 2))) := by
  have hnorm : circuitNorm kParity w.n (s.loc x) reps.toNat =
      selfAmplitude w (s.loc x) reps.toNat := rfl
  constructor
  · intro i hi
    rw [fidelityCircuit_amp w.two_le_n kTrig x x reps _ (select_width w s) hi, select_loc]
    exact circuitAct_self_apply kParity w.two_le_n (s.loc x) reps.toNat hi
  · rw [(fidelityExpReps_run w.two_le_n kTrig x x reps _ (select_width w s)).1, select_loc]
    exact fidelityValue_self kParity w.two_le_n (s.loc x) reps.toNat

/-! ## Two vectors -/

section Exchange

variable (t : ParityTrig)

/-- Exchanging the vectors conjugates the first amplitude. -/
theorem circuitAct_exchange {n : Nat} (hn : 2 ≤ n) (x y : Nat → ℝ) (reps : Nat) :
    circuitAct n t.toTrig y x reps 0 =
      ((circuitAct n t.toTrig x y reps 0).1, -(circuitAct n t.toTrig x y reps 0).2) := by
  have h : vec n (circuitAct n t.toTrig y x reps) ⟨0, Nat.two_pow_pos n⟩ =
      star (vec n (circuitAct n t.toTrig x y reps) ⟨0, Nat.two_pow_pos n⟩) := by
    rw [circuitAct_overlap t hn, circuitAct_overlap t hn, star_dotProduct]
  exact Prod.ext (congrArg Complex.re h) (congrArg Complex.im h)

/-- The kernel value does not depend on the order of the vectors. -/
theorem fidelityValue_comm {n : Nat} (hn : 2 ≤ n) (x y : Nat → ℝ) (reps : Nat) :
    fidelityValue n t.toTrig x y reps = fidelityValue n t.toTrig y x reps := by
  rw [fidelityValue, fidelityValue, circuitAct_exchange t hn x y reps]
  simp only [neg_mul_neg]

end Exchange

/-! ## Matrices -/

/-- `sym_gram` leaves the entries of a symmetric matrix off the diagonal alone. -/
theorem symGram_of_comm {k : Nat → Nat → ℝ} {i j : Nat} (h : k i j = k j i) (hij : i ≠ j) :
    symGram k i j = k i j := by
  simp only [symGram, if_neg hij, h, lit_real]
  push_cast
  ring

section Gram

variable [FloatConv ℝ]

/-- A call of the kernel block with the same rows as references and as queries. -/
structure GramCall where
  args : BlockArgs
  state : Ta ℝ
  square : args.nQuery = args.nRef
  rows : ∀ i < args.nRef.toNat * (2 * args.n),
    (bytesOf state 0).le32 (args.query + 4 * i) = (bytesOf state 0).le32 (args.ref + 4 * i)

/-- A job of the kernel client with the same rows as references and as queries. -/
structure GramJob extends ValidJob where
  square : nQuery = nRef
  rows : ∀ i < nRef.toNat * (2 * qubits mode), query.le32 (4 * i) = ref.le32 (4 * i)

/-- The kernel of two rows is symmetric if the queries at `off` in `b` are the references
    at `off'` in `b'`. -/
private theorem fidelityValue_rows_comm (b b' : Buf) (off off' : Nat) {n rows : Nat}
    (hn : 2 ≤ n)
    (hrows : ∀ i < rows * (2 * n), b.le32 (off + 4 * i) = b'.le32 (off' + 4 * i)) {q r : Nat}
    (hq : q < rows) (hr : r < rows) (reps : Nat) :
    fidelityValue n kParity.toTrig (floatRow b (off + 4 * (q * (2 * n))))
        (floatRow b' (off' + 4 * (r * (2 * n)))) reps =
      fidelityValue n kParity.toTrig (floatRow b (off + 4 * (r * (2 * n))))
        (floatRow b' (off' + 4 * (q * (2 * n)))) reps := by
  -- row `i` of the queries is row `i` of the references
  have hrow : ∀ i < rows, ∀ j < 2 * n,
      floatRow (D := ℝ) b (off + 4 * (i * (2 * n))) j =
        floatRow b' (off' + 4 * (i * (2 * n))) j := by
    intro i hi j hj
    have hend := rowEnd_le (w := 2 * n) hi
    have hword := hrows (i * (2 * n) + j) (by omega)
    rw [floatRow, floatRow, Nat.add_assoc, Nat.add_assoc, ← Nat.mul_add, hword]
  rw [fidelityValue_comm kParity hn]
  exact fidelityValue_congr kParity.toTrig reps (fun j hj => (hrow r hr j hj).symm) (hrow q hq)

/-- The entries of a call with equal rows are symmetric. -/
theorem GramCall.entry_comm (g : GramCall) {q r : Nat} (hq : q < g.args.nRef.toNat)
    (hr : r < g.args.nRef.toNat) :
    g.args.entry ℝ (bytesOf g.state 0) q r = g.args.entry ℝ (bytesOf g.state 0) r q :=
  congrArg FloatConv.toFloat (fidelityValue_rows_comm _ _ g.args.query g.args.ref
    g.args.two_le_n g.rows hq hr g.args.reps.toNat)

/-- The entries of a job with equal rows are symmetric. -/
theorem GramJob.entry_comm (g : GramJob) {q r : Nat} (hq : q < g.nRef.toNat)
    (hr : r < g.nRef.toNat) :
    jobEntry ℝ g.toKernelJob q r = jobEntry ℝ g.toKernelJob r q := by
  have htwo : 2 ≤ qubits g.mode := by cases g.mode <;> decide
  have hcomm := fidelityValue_rows_comm g.query g.ref 0 0 htwo
    (by simpa only [Nat.zero_add] using g.rows) hq hr (kernelReps g.mode).toNat
  simp only [Nat.zero_add] at hcomm
  exact congrArg FloatConv.toFloat hcomm

/-- The matrix that the scorer reads from the output of the client. -/
def gramOf (job : KernelJob) (out : Buf) (q r : Nat) : ℝ :=
  FloatConv.ofFloat (out.le32 (4 * (q * job.nRef.toNat + r)))

/-- Symmetry of the kernel. Exchanging the vectors keeps the value of `fidelity_exp_reps`
    and conjugates `psi[0]`; the words that the kernel block stores for equal rows form a
    symmetric matrix, and so do those that the client collects; averaging that matrix
    with its transpose changes nothing off the diagonal. -/
theorem kernel_symmetric (w : Width) (s : Kern ℝ) (x y : Loc) (reps : UInt32) (call : GramCall)
    (job : GramJob) (env : CallEnv ℝ) (client : KernelClient ℝ) :
    ((fidelityExpReps kTrig x y reps).run (select w s)).1 =
      ((fidelityExpReps kTrig y x reps).run (select w s)).1 ∧
    amp ((fidelityCircuit kTrig y x reps).run (select w s)).2 0 =
      ((amp ((fidelityCircuit kTrig x y reps).run (select w s)).2 0).1,
        -(amp ((fidelityCircuit kTrig x y reps).run (select w s)).2 0).2) ∧
    (∃ ms t, (qaiFidelityKernelBlock call.args.ref call.args.nRef call.args.query
        call.args.nQuery call.args.reps call.args.nQubits call.args.outK).run call.state =
        (.ok ms, t) ∧
      ∀ q < call.args.nRef.toNat, ∀ r < call.args.nRef.toNat,
        (bytesOf t 1).le32 (call.args.outK + 4 * (q * call.args.nRef.toNat + r)) =
          (bytesOf t 1).le32 (call.args.outK + 4 * (r * call.args.nRef.toNat + q))) ∧
    (∀ q < job.nRef.toNat, ∀ r < job.nRef.toNat,
      let gram := gramOf job.toKernelJob ((kernelLoop job.toKernelJob env).run client).2.out
      gram q r = gram r q ∧ (q ≠ r → symGram gram q r = gram q r)) := by
  have hw := select_width w s
  have hcomm := fidelityValue_comm kParity w.two_le_n (s.loc x) (s.loc y) reps.toNat
  have hexch := circuitAct_exchange kParity w.two_le_n (s.loc x) (s.loc y) reps.toNat
  refine ⟨?_, ?_, ?_, ?_⟩
  · rw [(fidelityExpReps_run w.two_le_n kTrig x y reps _ hw).1,
      (fidelityExpReps_run w.two_le_n kTrig y x reps _ hw).1, select_loc]
    exact hcomm
  · rw [fidelityCircuit_amp w.two_le_n kTrig y x reps _ hw (Nat.two_pow_pos _),
      fidelityCircuit_amp w.two_le_n kTrig x y reps _ hw (Nat.two_pow_pos _), select_loc]
    exact hexch
  · obtain ⟨t, hrun, hinv⟩ := kernelBlock_run call.args call.state
    refine ⟨_, t, hrun, ?_⟩
    intro q hq r hr
    -- both words are entries of the block
    have hpos : ∀ i < call.args.nRef.toNat, ∀ j < call.args.nRef.toNat,
        i * call.args.nRef.toNat + j < call.args.nQuery.toNat * call.args.nRef.toNat := by
      intro i hi j hj
      have hend := rowEnd_le (w := call.args.nRef.toNat) hi
      rw [call.square]
      omega
    rw [hinv.words q r hr (hpos q hq r hr), hinv.words r q hq (hpos r hr q hq)]
    exact call.entry_comm hq hr
  · intro q hq r hr gram
    have hsquare : job.nQuery.toNat = job.nRef.toNat := by rw [job.square]
    have hinv := (kernelLoop_inv job.toValidJob env client).2
    have hsym : gram q r = gram r q := by
      have hqr := hinv.entry (hq.trans_eq hsquare.symm) hr
      have hrq := hinv.entry (hr.trans_eq hsquare.symm) hq
      exact congrArg FloatConv.ofFloat (hqr.trans ((job.entry_comm hq hr).trans hrq.symm))
    exact ⟨hsym, symGram_of_comm hsym⟩

end Gram

namespace RealConv

/-- Doubles are reals, a float is its value, and a conversion to an integer drops the
    fraction. -/
noncomputable scoped instance floatConv : FloatConv ℝ where
  ofFloat w := (Binary32.value w : ℝ)
  toFloat := Binary32.round
  toInt64 x := Int64.ofInt (⌊max x 0⌋ + ⌈min x 0⌉)

end RealConv

/-- Two rows of sixteen floats: zeros, and zeros but for a 1 at the start. -/
def twoRowBuf : Buf := fun i =>
  if i = 66 then 0x80 else if i = 67 then 0x3f else 0

/-- A job with these rows. -/
def twoRowJob : GramJob where
  mode := .qmoc8
  nRef := 2
  nQuery := 2
  ref := twoRowBuf
  query := twoRowBuf
  nRef_le := by decide
  nQuery_le := by decide
  nRef_ne := by decide
  nQuery_ne := by decide
  square := rfl
  rows _ _ := rfl

/-- A call with these rows, as references and behind them as queries. -/
noncomputable def twoRowCall : GramCall where
  args := ⟨0, 2, 128, 2, 1, 8, 0, by decide⟩
  state :=
    { kern := ⟨fun _ _ => 0, fun _ _ => 0, 8, 256, 0, []⟩
      params := fun p =>
        match p with
        | 0 => ⟨⟨fun i => twoRowBuf (i % 128), 256⟩, 0, 0⟩
        | 1 => ⟨⟨fun _ => 0, 16⟩, 0, 0⟩
        | _ => ⟨⟨fun _ => 0, 0⟩, 0, 0⟩
      pred := fun _ => 0
      pin := fun _ => 0
      inp := fun _ => 0
      t0 := ⟨0, 0⟩
      t1 := ⟨0, 0⟩
      log := [] }
  square := rfl
  rows := by decide

/-- No other session, and a stack of zeros in every call. -/
def quietCalls : CallEnv ℝ := fun _ =>
  ([], ⟨fun _ _ => 0, fun _ => 0, fun _ => 0, fun _ => 0, ⟨0, 0⟩, ⟨0, 0⟩⟩)

/-- A client before its first call. -/
noncomputable def newClient : KernelClient ℝ :=
  ⟨Statics.init, fun _ => 0, fun _ => 0, fun _ => 0, 0, 0⟩

open scoped RealConv in
/-- The two entries off the diagonal, in a call of the TA and in the matrix of the client. -/
theorem kernel_symmetric_twoRows :
    twoRowBuf.le32 0 ≠ twoRowBuf.le32 64 ∧
    (∃ ms t, (qaiFidelityKernelBlock 0 2 128 2 1 8 0).run twoRowCall.state = (.ok ms, t) ∧
      (bytesOf t 1).le32 4 = (bytesOf t 1).le32 8) ∧
    gramOf twoRowJob.toKernelJob
        ((kernelLoop twoRowJob.toKernelJob quietCalls).run newClient).2.out 0 1 =
      gramOf twoRowJob.toKernelJob
        ((kernelLoop twoRowJob.toKernelJob quietCalls).run newClient).2.out 1 0 := by
  obtain ⟨-, -, ⟨ms, t, hrun, hwords⟩, hgram⟩ :=
    kernel_symmetric .eight twoRowCall.state.kern .qv .rv 1 twoRowCall twoRowJob quietCalls
      newClient
  exact ⟨by decide, ⟨ms, t, hrun, hwords 0 Nat.zero_lt_two 1 Nat.one_lt_two⟩,
    (hgram 0 Nat.zero_lt_two 1 Nat.one_lt_two).1⟩

end OpteeRpi5.Spec
