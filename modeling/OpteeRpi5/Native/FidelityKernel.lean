import Mathlib.Data.Rat.Init
import OpteeRpi5.ForStd.Loop
import OpteeRpi5.Native.TaMachine

/-!
# The fidelity kernel

`ta/fidelity_kernel.c`: the local trigonometry, the gates on the statevector, the
circuit and its mirror image, the bench and the kernel block.

The type `D` of doubles is a parameter. Every C operator is the operator of the same
name on `D`, a literal is the cast of its decimal value, and nothing is assumed of
them here. The gates take the sine and cosine they use as an argument `Trig`; the TA
passes `kTrig`, the polynomials of the file.
-/

namespace OpteeRpi5.Native

/-- The sine and cosine a circuit is built with. -/
structure Trig (D : Type) where
  sin : D → D
  cos : D → D

/-- Conversions between doubles and the other C types. A `float` is its 32-bit
    pattern. -/
class FloatConv (D : Type) where
  ofFloat : UInt32 → D
  toFloat : D → UInt32
  toInt64 : D → Int64

/-- `QAI_REPS`. -/
def qaiReps : UInt32 := 3

/-! ## Local trigonometry and exponential -/

section Scalar

variable {D : Type} [RatCast D]

/-- A floating-point literal. -/
def lit (q : ℚ) : D := (q : D)

/-- `QAI_PI`. -/
def qaiPi : D := lit (314159265358979323846 / 100000000000000000000)

variable [Add D] [Sub D] [Mul D] [Div D] [Neg D] [LT D] [DecidableLT D]

/-- `k_sin`. -/
def kSin (x : D) : D :=
  let neg := x < lit 0
  let x := if neg then -x else x
  let x := if qaiPi < x then lit 2 * qaiPi - x else x
  let x := if qaiPi * lit (1 / 2) < x then qaiPi - x else x
  let x2 := x * x
  let s := x * (lit 1
    + x2 * (lit (-1) / lit 6
    + x2 * (lit 1 / lit 120
    + x2 * (lit (-1) / lit 5040
    + x2 * (lit 1 / lit 362880
    + x2 * (lit (-1) / lit 39916800
    + x2 * (lit 1 / lit 6227020800
    + x2 * (lit (-1) / lit 1307674368000))))))))
  if neg then -s else s

/-- `k_cos`. -/
def kCos (x : D) : D :=
  let ax := if x < lit 0 then -x else x
  if qaiPi * lit (1 / 2) < ax then -kSin (ax - qaiPi * lit (1 / 2))
  else
    let x2 := ax * ax
    lit 1
      + x2 * (lit (-1 / 2)
      + x2 * (lit 1 / lit 24
      + x2 * (lit (-1) / lit 720
      + x2 * (lit 1 / lit 40320
      + x2 * (lit (-1) / lit 3628800
      + x2 * (lit 1 / lit 479001600
      + x2 * (lit (-1) / lit 87178291200)))))))

/-- The trigonometry of the TA. -/
def kTrig : Trig D where
  sin := kSin
  cos := kCos

omit [Sub D] [Neg D] [LT D] [DecidableLT D] in
/-- `k_exp_unit`: `(sum, term)` after the terms `k = 1, .., 16`. -/
def kExpUnit (p : D) : D :=
  let r := Loop.fold 16
    (fun i (st : D × D) =>
      let term := st.2 * (p / lit (i + 1 : ℕ))
      (st.1 + term, term)) (lit 1, lit 1)
  r.1

end Scalar

/-! ## Gates -/

/-- The 2x2 gate of `apply_1q`, real and imaginary parts of its entries. -/
structure Gate (D : Type) where
  g00r : D
  g00i : D
  g01r : D
  g01i : D
  g10r : D
  g10i : D
  g11r : D
  g11i : D

section Gates

variable {D : Type}

/-- Body of the first loop of `apply_1q`: move amplitude `i` to `tmp[n0]` and its
    partner to `i`. -/
def apply1qStash (bit i n0 : Nat) : KernM D Nat := do
  if i &&& bit ≠ 0 then return n0
  let j := i ||| bit
  writeStat .tmpRe n0 (← readStat .psiRe i)
  writeStat .tmpIm n0 (← readStat .psiIm i)
  writeStat .psiRe i (← readStat .psiRe j)
  writeStat .psiIm i (← readStat .psiIm j)
  return n0 + 1

/-- Body of the second loop of `apply_1q`: mix the stashed amplitude with its
    partner. -/
def apply1qMix [Add D] [Sub D] [Mul D] (bit : Nat) (g : Gate D) (i n0 : Nat) :
    KernM D Nat := do
  if i &&& bit ≠ 0 then return n0
  let j := i ||| bit
  let ar ← readStat .tmpRe n0
  let ai ← readStat .tmpIm n0
  let br ← readStat .psiRe i
  let bi ← readStat .psiIm i
  writeStat .psiRe i (g.g00r * ar - g.g00i * ai + g.g01r * br - g.g01i * bi)
  writeStat .psiIm i (g.g00r * ai + g.g00i * ar + g.g01r * bi + g.g01i * br)
  writeStat .psiRe j (g.g10r * ar - g.g10i * ai + g.g11r * br - g.g11i * bi)
  writeStat .psiIm j (g.g10r * ai + g.g10i * ar + g.g11r * bi + g.g11i * br)
  return n0 + 1

/-- `apply_1q`. -/
def apply1q [Add D] [Sub D] [Mul D] (q : Nat) (g : Gate D) : KernM D Unit := do
  let dim := (← get).kernDim
  let bit := 1 <<< q
  let _ ← Loop.up dim (apply1qStash bit) 0
  let _ ← Loop.up dim (apply1qMix bit g) 0

/-- Body of the loop of `cnot_pair`. -/
def cnotPairStep (cbit tbit i : Nat) : KernM D Unit := do
  if i &&& cbit = 0 ∨ i &&& tbit ≠ 0 then return
  let j := i ||| tbit
  let tr ← readStat .psiRe i
  let ti ← readStat .psiIm i
  writeStat .psiRe i (← readStat .psiRe j)
  writeStat .psiIm i (← readStat .psiIm j)
  writeStat .psiRe j tr
  writeStat .psiIm j ti

/-- `cnot_pair`. -/
def cnotPair (ctrl tgt : Nat) : KernM D Unit := do
  let dim := (← get).kernDim
  Loop.up dim (fun i _ => cnotPairStep (1 <<< ctrl) (1 <<< tgt) i) ()

/-- `cnot_ring`. -/
def cnotRing (reverse : Bool) : KernM D Unit := do
  let nq := (← get).kernNq
  if !reverse then
    Loop.up nq (fun q _ => cnotPair q ((q + 1) % nq)) ()
  else
    Loop.down nq (fun q _ => cnotPair q ((q + 1) % nq)) ()

/-- `kernel_select`. -/
def kernelSelect (nq : Nat) : KernM D Unit :=
  modify fun s => { s with kernNq := nq, kernDim := 1 <<< nq }

end Gates

/-! ## The circuit -/

section Circuit

variable {D : Type} [RatCast D] [Add D] [Sub D] [Mul D] [Neg D]

/-- The gate of `apply_ry`. -/
def ryGate (trig : Trig D) (theta : D) : Gate D :=
  let c := trig.cos (theta * lit (1 / 2))
  let s := trig.sin (theta * lit (1 / 2))
  { g00r := c, g00i := lit 0, g01r := -s, g01i := lit 0
    g10r := s, g10i := lit 0, g11r := c, g11i := lit 0 }

/-- The gate of `apply_rz`: `diag(exp(-i a), exp(+i a))`. -/
def rzGate (trig : Trig D) (phi : D) : Gate D :=
  let a := phi * lit (1 / 2)
  let c := trig.cos a
  let s := trig.sin a
  { g00r := c, g00i := -s, g01r := lit 0, g01i := lit 0
    g10r := lit 0, g10i := lit 0, g11r := c, g11i := s }

/-- `apply_ry`. -/
def applyRy (trig : Trig D) (q : Nat) (theta : D) : KernM D Unit :=
  apply1q q (ryGate trig theta)

/-- `apply_rz`. -/
def applyRz (trig : Trig D) (q : Nat) (phi : D) : KernM D Unit :=
  apply1q q (rzGate trig phi)

/-- Body of the two rotation loops of `layer_fwd`. -/
def rotFwd (trig : Trig D) (x : Loc) (q : Nat) : KernM D Unit := do
  applyRy trig q (← readLoc x (2 * q))
  applyRz trig q (← readLoc x (2 * q + 1))

/-- Body of the two rotation loops of `layer_inv`. -/
def rotInv (trig : Trig D) (y : Loc) (q : Nat) : KernM D Unit := do
  applyRz trig q (-(← readLoc y (2 * q + 1)))
  applyRy trig q (-(← readLoc y (2 * q)))

/-- `layer_fwd`. -/
def layerFwd (trig : Trig D) (x : Loc) : KernM D Unit := do
  let nq := (← get).kernNq
  Loop.up nq (fun q _ => rotFwd trig x q) ()
  cnotRing false
  Loop.up nq (fun q _ => rotFwd trig x q) ()

/-- `layer_inv`. -/
def layerInv (trig : Trig D) (y : Loc) : KernM D Unit := do
  let nq := (← get).kernNq
  Loop.down nq (fun q _ => rotInv trig y q) ()
  cnotRing true
  Loop.down nq (fun q _ => rotInv trig y q) ()

omit [Add D] [Sub D] [Mul D] [Neg D] in
/-- `reset_psi`. -/
def resetPsi : KernM D Unit := do
  let dim := (← get).kernDim
  Loop.up dim (fun i _ => do
    writeStat .psiRe i (lit 0)
    writeStat .psiIm i (lit 0)) ()
  writeStat .psiRe 0 (lit 1)

/-- The circuit of `fidelity_exp_reps`: `U(x)`, then the mirror image of `U(y)`. -/
def fidelityCircuit (trig : Trig D) (x y : Loc) (reps : UInt32) : KernM D Unit := do
  resetPsi
  Loop.up reps.toNat (fun _ _ => layerFwd trig x) ()
  Loop.up reps.toNat (fun _ _ => layerInv trig y) ()

variable [Div D] [LT D] [DecidableLT D]

omit [Add D] [Sub D] [Mul D] [Neg D] [Div D] in
/-- The two clamps of `fidelity_exp_reps`. -/
def clampUnit (p : D) : D :=
  let p := if p < lit 0 then lit 0 else p
  if lit 1 < p then lit 1 else p

/-- `fidelity_exp_reps`. -/
def fidelityExpReps (trig : Trig D) (x y : Loc) (reps : UInt32) : KernM D D := do
  fidelityCircuit trig x y reps
  let re := (← readStat .psiRe 0) * (← readStat .psiRe 0)
  let im := (← readStat .psiIm 0) * (← readStat .psiIm 0)
  return kExpUnit (clampUnit (re + im))

/-- `fidelity_exp`. -/
def fidelityExp (x y : Loc) : KernM D D :=
  fidelityExpReps kTrig x y qaiReps

/-! ## Bench and kernel block -/

omit [LT D] [DecidableLT D] [Neg D] in
/-- `next_angle`. -/
def nextAngle : KernM D D := do
  modify fun s => { s with rngState := s.rngState * 1664525 + 1013904223 }
  let w := (← get).rngState >>> 8
  return lit w.toNat * (lit 1 / lit 16777216) * (lit 2 * qaiPi) - qaiPi

omit [LT D] [DecidableLT D] [Neg D] in
/-- `fill_vec`. -/
def fillVec (v : Loc) : KernM D Unit :=
  Loop.up qaiNfeat8 (fun i _ => do writeLoc v i (← nextAngle)) ()

/-- `delta_ms`. -/
def deltaMs (t0 t1 : TeeTime) : UInt32 :=
  let sec := t1.seconds - t0.seconds
  let ms := t1.millis.toInt32 - t0.millis.toInt32
  if ms < 0 then (sec - 1) * 1000 + (ms + 1000).toUInt32
  else sec * 1000 + ms.toUInt32

variable [FloatConv D]

/-- `qai_fidelity_bench`; an error leaves `out` alone. -/
def qaiFidelityBench (t0 t1 : TeeTime) (evals : UInt32) :
    KernM D (Except TeeResult QaiFidelityBench) := do
  if evals > 20000 then return .error .badParameters
  kernelSelect 8
  fillVec .selfX
  let selfExp ← fidelityExp .selfX .selfX
  let acc ← Loop.up evals.toNat (fun _ acc => do
    fillVec .benchX
    fillVec .benchY
    return acc + (← fidelityExp .benchX .benchY)) (lit 0)
  return .ok
    { evals := evals
      teeElapsedMs := deltaMs t0 t1
      selfExpMicro := FloatConv.toInt64 (selfExp * lit 1000000)
      batchSumMicro := FloatConv.toInt64 (acc * lit 1000000) }

omit [RatCast D] [Add D] [Sub D] [Mul D] [Neg D] [Div D] [LT D] [DecidableLT D] in
/-- `load_feat`: `src` is a byte offset into the input memref. -/
def loadFeat (src : Nat) (dst : Loc) (nFeat : UInt32) : TaM D Unit :=
  Loop.up nFeat.toNat (fun i _ => do
    let w ← loadBytes 0 (src + 4 * i) 4
    liftKern (writeLoc dst i (FloatConv.ofFloat (w.le32 0)))) ()

/-- Body of the inner loop of `qai_fidelity_kernel_block`. -/
def kernelBlockPair (ref : Nat) (nRef nFeat reps : UInt32) (outK q r : Nat) :
    TaM D Unit := do
  loadFeat (ref + 4 * (UInt32.ofNat r * nFeat).toNat) .rv nFeat
  let v ← liftKern (fidelityExpReps kTrig .qv .rv reps)
  let idx := UInt32.ofNat q * nRef + UInt32.ofNat r
  storeBytes 1 (outK + 4 * idx.toNat) (Buf.ofWords [FloatConv.toFloat v]) 4

/-- Body of the outer loop of `qai_fidelity_kernel_block`. -/
def kernelBlockQuery (ref : Nat) (nRef : UInt32) (query : Nat) (nFeat reps : UInt32)
    (outK q : Nat) : TaM D Unit := do
  loadFeat (query + 4 * (UInt32.ofNat q * nFeat).toNat) .qv nFeat
  Loop.up nRef.toNat (fun r _ => kernelBlockPair ref nRef nFeat reps outK q r) ()

/-- `qai_fidelity_kernel_block`: `ref` and `query` are byte offsets into the input
    memref, `outK` is one into the output memref. Returns `*elapsed_ms`. -/
def qaiFidelityKernelBlock (ref : Nat) (nRef : UInt32) (query : Nat)
    (nQuery reps nQubits : UInt32) (outK : Nat) : TaM D (Except TeeResult UInt32) := do
  if nRef = 0 ∨ nQuery = 0 ∨ reps = 0 ∨ reps > qaiReps then return .error .badParameters
  if nQubits ≠ 8 ∧ nQubits ≠ 16 then return .error .badParameters
  if nRef > qaiKernelMaxPairs ∨ nQuery > qaiKernelMaxPairs then return .error .badParameters
  if nRef * nQuery > qaiKernelMaxPairs then return .error .badParameters
  liftKern (kernelSelect nQubits.toNat)
  let nFeat := nQubits * 2
  Loop.up nQuery.toNat (fun q _ => kernelBlockQuery ref nRef query nFeat reps outK q) ()
  let t ← get
  return .ok (deltaMs t.t0 t.t1)

end Circuit

end OpteeRpi5.Native
