import OpteeRpi5.Native.QaiTa

/-!
# The kernel client

The loop of `host/hai_kernel.c`, which asks the TA for the kernel values of all pairs of
query and reference rows, at most `CHUNK` reference rows at a time. The matrices are
buffers of floats. Files, allocation and the progress messages are left out;
`TEEC_InvokeCommand` delivers buffers and sizes unchanged.
-/

namespace OpteeRpi5.Native

/-- `CHUNK`. -/
def hostChunk : UInt32 := 32

/-- The modes of the client: default, `--qmoc`, `--qoc16` and `--qmoc16`. -/
inductive KernelMode where
  | qoc8
  | qmoc8
  | qoc16
  | qmoc16

/-- `cmd`. -/
def KernelMode.cmd : KernelMode → UInt32
  | qoc8 | qoc16 => taQaiCmdQocBlock
  | qmoc8 | qmoc16 => taQaiCmdQmocBlock

/-- `n_qubits`. -/
def KernelMode.nQubits : KernelMode → UInt32
  | qoc8 | qmoc8 => 8
  | qoc16 | qmoc16 => 16

/-- `feat`. -/
def KernelMode.feat : KernelMode → UInt32
  | qoc8 | qmoc8 => 16
  | qoc16 | qmoc16 => 32

/-- What the loop reads and does not change. -/
structure KernelJob where
  mode : KernelMode
  nRef : UInt32
  nQuery : UInt32
  ref : Buf
  query : Buf

/-- The variables of the loop, together with the statics of the TA instance. -/
structure KernelClient (D : Type) where
  ta : Statics D
  inbuf : Buf
  outbuf : Buf
  out : Buf
  teeMs : UInt64
  calls : Nat

/-- What surrounds call number `k`: the requests of other sessions that the instance
    has served since the call before, and the stack of the call. -/
abbrev CallEnv (D : Type) := Nat → List (Stack D × Request) × Stack D

section Loop

variable {D : Type} [RatCast D] [Add D] [Sub D] [Mul D] [Neg D] [Div D] [LT D]
  [DecidableLT D] [FloatConv D]

/-- The number of reference rows of the chunk at `r0`. -/
def chunkRows (nRef : UInt32) (r0 : Nat) : UInt32 :=
  let n := nRef - UInt32.ofNat r0
  if n > hostChunk then hostChunk else n

/-- `inbuf` after the header and the rows have been written. -/
def encodeChunk (job : KernelJob) (q r0 : Nat) (inbuf : Buf) : Buf :=
  let n := chunkRows job.nRef r0
  let feat := job.mode.feat
  let inbuf := inbuf.putLe32 0 n
  let inbuf := inbuf.putLe32 4 1
  let inbuf := inbuf.putLe32 8 job.mode.nQubits
  let inbuf := inbuf.copy sizeofQaiKernelBlockIn job.ref (4 * (UInt32.ofNat r0 * feat).toNat)
    (n.toNat * feat.toNat * 4)
  inbuf.copy (sizeofQaiKernelBlockIn + (n * feat).toNat * 4) job.query
    (4 * (UInt32.ofNat q * feat).toNat) (feat.toNat * 4)

/-- The request for the chunk of `n` reference rows in `inbuf`. -/
def chunkRequest (job : KernelJob) (n : UInt32) (inbuf outbuf : Buf) : Request where
  cmdId := job.mode.cmd
  paramTypes := expMemrefs
  params := fun p =>
    match p with
    | 0 => ⟨⟨inbuf, sizeofQaiKernelBlockIn + ((n + 1) * job.mode.feat).toNat * 4⟩, 0, 0⟩
    | 1 => ⟨⟨outbuf, sizeofQaiKernelBlockOut + n.toNat * 4⟩, 0, 0⟩
    | _ => ⟨⟨fun _ => 0, 0⟩, 0, 0⟩

/-- Body of the inner loop. An error is the `errx` after `TEEC_InvokeCommand`. -/
def kernelChunk (job : KernelJob) (env : CallEnv D) (q r0 : Nat) :
    StateM (KernelClient D) (Except TeeResult Unit) := do
  let n := chunkRows job.nRef r0
  modify fun s => { s with inbuf := encodeChunk job q r0 s.inbuf }
  let s ← get
  let ta := serve s.ta (env s.calls).1
  let r := invoke ta (env s.calls).2 (chunkRequest job n s.inbuf s.outbuf)
  modify fun s => { s with ta := r.2.statics, outbuf := (r.2.params 1).memref.buffer }
  if r.1 ≠ .success then return .error r.1
  modify fun s => { s with
    teeMs := s.teeMs + (s.outbuf.le32 0).toUInt64
    calls := s.calls + 1
    out := s.out.copy (4 * (q * job.nRef.toNat + r0)) s.outbuf sizeofQaiKernelBlockOut
      (n.toNat * 4) }
  return .ok ()

/-- `for (r0 = 0; r0 < n_ref; r0 += CHUNK)`. -/
def kernelRow (job : KernelJob) (env : CallEnv D) (q : Nat) :
    StateM (KernelClient D) (Except TeeResult Unit) :=
  Loop.up ((job.nRef.toNat + 31) / 32) (fun c status =>
    match status with
    | .error res => return .error res
    | .ok () => kernelChunk job env q (32 * c)) (.ok ())

/-- `for (q = 0; q < n_query; q++)`. -/
def kernelLoop (job : KernelJob) (env : CallEnv D) :
    StateM (KernelClient D) (Except TeeResult Unit) :=
  Loop.up job.nQuery.toNat (fun q status =>
    match status with
    | .error res => return .error res
    | .ok () => kernelRow job env q) (.ok ())

end Loop

end OpteeRpi5.Native
