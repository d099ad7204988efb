import Mathlib.Logic.Function.Basic
import OpteeRpi5.Native.QaiAbi

/-!
# The memory one TA call runs on

A call of the TA reads and writes four kinds of memory: the static arrays of
`fidelity_kernel.c`, the arrays and structures on its stack, the memrefs of the
caller and the scalar statics. `Kern` is the part the circuit works on, `Ta` the
whole of it.

Arrays and buffers are total functions, so that an index past the end has a value
like it has in C. Every access is recorded in a log, and safety is a statement about
the log.
-/

namespace OpteeRpi5.Native

/-! ## Arrays and accesses -/

def qaiNqMax : Nat := 16
def qaiDimMax : Nat := 1 <<< qaiNqMax
def qaiNfeat8 : Nat := 16

/-- The static arrays of `fidelity_kernel.c`. -/
inductive Stat where
  | psiRe
  | psiIm
  | tmpRe
  | tmpIm
  deriving DecidableEq, Repr

/-- The feature vectors on the stack: `qv`, `rv` of `qai_fidelity_kernel_block` and
    `x`, `y`, `self_x` of `qai_fidelity_bench`. -/
inductive Loc where
  | qv
  | rv
  | benchX
  | benchY
  | selfX
  deriving DecidableEq, Repr

/-- The declared length of a static array. -/
def Stat.cap : Stat → Nat
  | .psiRe | .psiIm => qaiDimMax
  | .tmpRe | .tmpIm => qaiDimMax / 2

/-- The declared length of a stack array. -/
def Loc.cap : Loc → Nat
  | .qv | .rv => qaiKernelFeatMax
  | .benchX | .benchY | .selfX => qaiNfeat8

/-- One access to an array element or to one byte of a memref. -/
inductive Access where
  | readStat (a : Stat) (i : Nat)
  | writeStat (a : Stat) (i : Nat)
  | readLoc (a : Loc) (i : Nat)
  | writeLoc (a : Loc) (i : Nat)
  | readPred (i : Nat)
  | writePred (i : Nat)
  | load (p : Fin 4) (off : Nat)
  | store (p : Fin 4) (off : Nat)
  deriving DecidableEq, Repr

/-- An access is in bounds when it stays inside the array, and for a memref when the
    parameter is one of that direction and the offset is below its size `size p`. -/
def Access.InBounds (paramTypes : UInt32) (size : Fin 4 → Nat) : Access → Prop
  | .readStat a i | .writeStat a i => i < a.cap
  | .readLoc a i | .writeLoc a i => i < a.cap
  | .readPred i | .writePred i => i < qaiHaiMaxRows
  | .load p off => teeParamTypeGet paramTypes p = teeParamTypeMemrefInput ∧ off < size p
  | .store p off => teeParamTypeGet paramTypes p = teeParamTypeMemrefOutput ∧ off < size p

/-! ## The kernel state -/

/-- The statics of `fidelity_kernel.c` and the feature vectors the circuit reads, over
    a type `D` of doubles. -/
structure Kern (D : Type) where
  stat : Stat → Nat → D
  loc : Loc → Nat → D
  kernNq : Nat
  kernDim : Nat
  rngState : UInt32
  /-- Accesses so far, latest first. -/
  log : List Access

abbrev KernM (D : Type) := StateM (Kern D)

section Kernel

variable {D : Type}

def readStat (a : Stat) (i : Nat) : KernM D D :=
  modifyGet fun s => (s.stat a i, { s with log := .readStat a i :: s.log })

def writeStat (a : Stat) (i : Nat) (v : D) : KernM D Unit :=
  modify fun s => { s with
    stat := Function.update s.stat a (Function.update (s.stat a) i v)
    log := .writeStat a i :: s.log }

def readLoc (a : Loc) (i : Nat) : KernM D D :=
  modifyGet fun s => (s.loc a i, { s with log := .readLoc a i :: s.log })

def writeLoc (a : Loc) (i : Nat) (v : D) : KernM D Unit :=
  modify fun s => { s with
    loc := Function.update s.loc a (Function.update (s.loc a) i v)
    log := .writeLoc a i :: s.log }

@[simp] theorem run_readStat (a : Stat) (i : Nat) (s : Kern D) :
    (readStat a i).run s = (s.stat a i, { s with log := .readStat a i :: s.log }) := (rfl)

@[simp] theorem run_writeStat (a : Stat) (i : Nat) (v : D) (s : Kern D) :
    (writeStat a i v).run s = ((), { s with
      stat := Function.update s.stat a (Function.update (s.stat a) i v)
      log := .writeStat a i :: s.log }) := (rfl)

@[simp] theorem run_readLoc (a : Loc) (i : Nat) (s : Kern D) :
    (readLoc a i).run s = (s.loc a i, { s with log := .readLoc a i :: s.log }) := (rfl)

@[simp] theorem run_writeLoc (a : Loc) (i : Nat) (v : D) (s : Kern D) :
    (writeLoc a i v).run s = ((), { s with
      loc := Function.update s.loc a (Function.update (s.loc a) i v)
      log := .writeLoc a i :: s.log }) := (rfl)

end Kernel

/-! ## The state of a call -/

/-- A memory reference: where it points and how long it is. -/
structure Memref where
  buffer : Buf
  size : Nat

/-- `TEE_Param`. The C type is a union; `param_types` says which member is meant. -/
structure TeeParam where
  memref : Memref
  a : UInt32
  b : UInt32

/-- Everything one call of `TA_InvokeCommandEntryPoint` can touch. -/
structure Ta (D : Type) where
  kern : Kern D
  params : Fin 4 → TeeParam
  /-- `int8_t pred[QAI_HAI_MAX_ROWS]` of `cmd_hai_infer`. -/
  pred : Nat → UInt8
  /-- `struct qai_protected_input pin` of `cmd_infer_protected`. -/
  pin : Buf
  /-- `struct qai_input in` of `cmd_infer_plain` and `cmd_infer_protected`. -/
  inp : Buf
  /-- What the two `TEE_GetSystemTime` calls of a timed command return. -/
  t0 : TeeTime
  t1 : TeeTime
  log : List Access

abbrev TaM (D : Type) := StateM (Ta D)

/-- Accesses of a call, those of the circuit included. -/
def Ta.trace {D : Type} (t : Ta D) : List Access :=
  t.kern.log ++ t.log

section Call

variable {D : Type}

/-- Run circuit code inside a call. -/
def liftKern {α : Type} (m : KernM D α) : TaM D α :=
  modifyGet fun t => ((m.run t.kern).1, { t with kern := (m.run t.kern).2 })

/-- `params[p].memref.size`. -/
def memrefSize (p : Fin 4) : TaM D Nat := do
  return ((← get).params p).memref.size

/-- The `n` bytes from `off` on of memref `p`, as the source of a `TEE_MemMove` or of
    element reads. -/
def loadBytes (p : Fin 4) (off n : Nat) : TaM D Buf :=
  modifyGet fun t => (fun i => (t.params p).memref.buffer (off + i),
    { t with log := (List.range n).map (fun i => .load p (off + i)) ++ t.log })

/-- `TEE_MemMove` of `n` bytes of `src` to `off` in memref `p`. -/
def storeBytes (p : Fin 4) (off : Nat) (src : Buf) (n : Nat) : TaM D Unit :=
  modify fun t => { t with
    params := Function.update t.params p { t.params p with
      memref := { (t.params p).memref with
        buffer := (t.params p).memref.buffer.copy off src 0 n } }
    log := (List.range n).map (fun i => .store p (off + i)) ++ t.log }

/-- `params[p].memref.size = n`. -/
def setMemrefSize (p : Fin 4) (n : Nat) : TaM D Unit :=
  modify fun t => { t with
    params := Function.update t.params p { t.params p with
      memref := { (t.params p).memref with size := n } } }

def writePred (i : Nat) (v : UInt8) : TaM D Unit :=
  modify fun t => { t with pred := Function.update t.pred i v, log := .writePred i :: t.log }

/-- The first `n` entries of `pred`, as the source of a `TEE_MemMove`. -/
def readPreds (n : Nat) : TaM D Buf :=
  modifyGet fun t => (t.pred, { t with log := (List.range n).map .readPred ++ t.log })

/-- The local `pin`. -/
def getPin : TaM D Buf := do
  return (← get).pin

/-- The local `in`. -/
def getInp : TaM D Buf := do
  return (← get).inp

/-- Update of the local `pin`. -/
def modifyPin (f : Buf → Buf) : TaM D Unit :=
  modify fun t => { t with pin := f t.pin }

/-- Update of the local `in`. -/
def modifyInp (f : Buf → Buf) : TaM D Unit :=
  modify fun t => { t with inp := f t.inp }

@[simp] theorem run_liftKern {α : Type} (m : KernM D α) (t : Ta D) :
    (liftKern m).run t = ((m.run t.kern).1, { t with kern := (m.run t.kern).2 }) := (rfl)

@[simp] theorem run_memrefSize (p : Fin 4) (t : Ta D) :
    (memrefSize p).run t = ((t.params p).memref.size, t) := (rfl)

@[simp] theorem run_loadBytes (p : Fin 4) (off n : Nat) (t : Ta D) :
    (loadBytes p off n).run t = (fun i => (t.params p).memref.buffer (off + i),
      { t with log := (List.range n).map (fun i => .load p (off + i)) ++ t.log }) := (rfl)

@[simp] theorem run_storeBytes (p : Fin 4) (off : Nat) (src : Buf) (n : Nat) (t : Ta D) :
    (storeBytes p off src n).run t = ((), { t with
      params := Function.update t.params p { t.params p with
        memref := { (t.params p).memref with
          buffer := (t.params p).memref.buffer.copy off src 0 n } }
      log := (List.range n).map (fun i => .store p (off + i)) ++ t.log }) := (rfl)

@[simp] theorem run_setMemrefSize (p : Fin 4) (n : Nat) (t : Ta D) :
    (setMemrefSize p n).run t = ((), { t with
      params := Function.update t.params p { t.params p with
        memref := { (t.params p).memref with size := n } } }) := (rfl)

@[simp] theorem run_writePred (i : Nat) (v : UInt8) (t : Ta D) :
    (writePred i v).run t = ((), { t with
      pred := Function.update t.pred i v, log := .writePred i :: t.log }) := (rfl)

@[simp] theorem run_readPreds (n : Nat) (t : Ta D) :
    (readPreds n).run t =
      (t.pred, { t with log := (List.range n).map .readPred ++ t.log }) := (rfl)

@[simp] theorem run_getPin (t : Ta D) : getPin.run t = (t.pin, t) := (rfl)

@[simp] theorem run_getInp (t : Ta D) : getInp.run t = (t.inp, t) := (rfl)

@[simp] theorem run_modifyPin (f : Buf → Buf) (t : Ta D) :
    (modifyPin f).run t = ((), { t with pin := f t.pin }) := (rfl)

@[simp] theorem run_modifyInp (f : Buf → Buf) (t : Ta D) :
    (modifyInp f).run t = ((), { t with inp := f t.inp }) := (rfl)

end Call

end OpteeRpi5.Native
