import OpteeRpi5.ForStd.UInt32
import OpteeRpi5.Native.HaiKernel

/-!
# The HAI client

`main` of `host/hai_infer_client.c`, from the parsed arguments and the contents of the
feature file to the contents of the output file. It sends the rows to the TA in requests
of at most `CHUNK` rows. The opening of files and of the session and the allocations
succeed; `malloc` leaves arbitrary bytes in the buffers of a request, and
`TEEC_InvokeCommand` delivers buffers and sizes unchanged.
-/

namespace OpteeRpi5.Native

/-- `CHUNK`. -/
def haiChunk : UInt32 := UInt32.ofNat qaiHaiMaxRows

/-- The arguments `model`, `n_rows` and `reps`, as `strtoul` and the cast have left them. -/
structure HaiJob where
  model : UInt32
  n : UInt32
  reps : UInt32

/-- The variables of the loop, together with the statics of the TA instance. `calls` is the
    number of requests so far. -/
structure HaiClient (D : Type) where
  ta : Statics D
  inbuf : Buf
  outbuf : Buf
  pred : Buf
  teeMs : UInt64
  calls : Nat

/-- The ways in which the client gives up. -/
inductive HaiExit where
  | zeroReps
  | shortFeatures
  | invoke (res : TeeResult)

/-- What a run that gets to its end leaves: the output file, and the line `TEE_INFER_MS`
    and the name in the line `MODEL_NAME` on the error stream. -/
structure HaiReport where
  out : List UInt8
  teeMs : UInt64
  modelName : String

/-! ## The rows of a request -/

/-- `take`, the number of rows of the request that starts at row `done`. -/
def takeRows (n done : UInt32) : UInt32 :=
  let take := n - done
  if take > haiChunk then haiChunk else take

/-- A request has between one and `CHUNK` rows. -/
theorem takeRows_toNat {n done : UInt32} (h : done < n) :
    (takeRows n done).toNat = min qaiHaiMaxRows (n.toNat - done.toNat) := by
  show (if n - done > haiChunk then haiChunk else n - done).toNat = _
  rw [UInt32.toNat_clamp_sub (UInt32.le_of_lt h), show haiChunk.toNat = qaiHaiMaxRows from rfl]

/-- `done += take` does not wrap. -/
theorem done_add_takeRows {n done : UInt32} (h : done < n) :
    (done + takeRows n done).toNat = done.toNat + (takeRows n done).toNat := by
  have htake := takeRows_toNat h
  have hlt : done.toNat < n.toNat := UInt32.lt_iff_toNat_lt.mp h
  have hn : n.toNat < 2 ^ 32 := n.toNat_lt
  rw [UInt32.toNat_add]
  omega

/-! ## The loop -/

/-- `inbuf` after the header and the rows from row `done` on have been written. The index
    `done * QAI_HAI_FEAT` of the first feature is a `uint32_t`. -/
def encodeRows (job : HaiJob) (rows : Buf) (done : UInt32) (inbuf : Buf) : Buf :=
  let take := takeRows job.n done
  let inbuf := inbuf.putLe32 0 job.model
  let inbuf := inbuf.putLe32 4 take
  let inbuf := inbuf.putLe32 8 job.reps
  inbuf.copy sizeofQaiHaiInferIn rows (4 * (done * UInt32.ofNat qaiHaiFeat).toNat)
    (take.toNat * qaiHaiFeat * 4)

/-- The request for the `take` rows in `inbuf`. -/
def haiRequest (take : UInt32) (inbuf outbuf : Buf) : Request where
  cmdId := taQaiCmdHaiInfer
  paramTypes := expMemrefs
  params := fun p =>
    match p with
    | 0 => ⟨⟨inbuf, sizeofQaiHaiInferIn + take.toNat * qaiHaiFeat * 4⟩, 0, 0⟩
    | 1 => ⟨⟨outbuf, sizeofQaiHaiInferOut + take.toNat⟩, 0, 0⟩
    | _ => ⟨⟨fun _ => 0, 0⟩, 0, 0⟩

section Loop

variable {D : Type} [RatCast D] [Add D] [Sub D] [Mul D] [Neg D] [Div D] [LT D]
  [DecidableLT D] [FloatConv D]

/-- Body of the loop, up to `done += take`. An error is the `errx` after
    `TEEC_InvokeCommand`. -/
def haiInferChunk (job : HaiJob) (rows : Buf) (env : CallEnv D) (done : UInt32) :
    StateM (HaiClient D) (Except TeeResult Unit) := do
  let take := takeRows job.n done
  modify fun s => { s with inbuf := encodeRows job rows done s.inbuf }
  let s ← get
  let ta := serve s.ta (env s.calls).1
  let r := invoke ta (env s.calls).2 (haiRequest take s.inbuf s.outbuf)
  modify fun s => { s with ta := r.2.statics, outbuf := (r.2.params 1).memref.buffer }
  if r.1 ≠ .success then return .error r.1
  modify fun s => { s with
    teeMs := s.teeMs + (s.outbuf.le32 0).toUInt64
    calls := s.calls + 1
    pred := s.pred.copy done.toNat s.outbuf sizeofQaiHaiInferOut take.toNat }
  return .ok ()

/-- `while (done < n)`. It ends, since every request has at least one row. -/
def haiInferLoop (job : HaiJob) (rows : Buf) (env : CallEnv D) (done : UInt32) :
    StateM (HaiClient D) (Except TeeResult Unit) :=
  if done < job.n then do
    match ← haiInferChunk job rows env done with
    | .error res => return .error res
    | .ok () => haiInferLoop job rows env (done + takeRows job.n done)
  else return .ok ()
termination_by job.n.toNat - done.toNat
decreasing_by
  rename_i h
  have htake := takeRows_toNat h
  have hnext := done_add_takeRows h
  have hlt : done.toNat < job.n.toNat := UInt32.lt_iff_toNat_lt.mp h
  simp only [qaiHaiMaxRows] at htake
  omega

/-! ## The program -/

/-- `rows` after `calloc` and `fread`. -/
def readRows (features : List UInt8) (n : UInt32) : Buf :=
  Buf.copy (fun _ => 0) 0 (fun i => features.getD i 0) 0 (n.toNat * qaiHaiFeat * 4)

/-- The name printed for a model. -/
def haiModelName (model : UInt32) : String :=
  if model = qaiHaiModelPairwiseFake then "QAI-pairwise(Fake)"
  else if model = qaiHaiModelTinyml then "TinyML"
  else "unknown"

/-- `main`. The contents of `inbuf` and `outbuf` are those that `malloc` has left. -/
def haiInferMain (job : HaiJob) (features : List UInt8) (env : CallEnv D) (ta : Statics D)
    (inbuf outbuf : Buf) : Except HaiExit HaiReport :=
  if job.reps = 0 then .error .zeroReps
  -- `fread` counts whole features
  else if min (features.length / 4) (job.n.toNat * qaiHaiFeat) ≠ job.n.toNat * qaiHaiFeat then
    .error .shortFeatures
  else
    let rows := readRows features job.n
    let r := (haiInferLoop job rows env 0).run ⟨ta, inbuf, outbuf, fun _ => 0, 0, 0⟩
    match r.1 with
    | .error res => .error (.invoke res)
    | .ok () => .ok ⟨r.2.pred.bytes 0 job.n.toNat, r.2.teeMs, haiModelName job.model⟩

end Loop

end OpteeRpi5.Native
