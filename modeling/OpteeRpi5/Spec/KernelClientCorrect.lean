import OpteeRpi5.Native.HaiKernel
import OpteeRpi5.Spec.Service

/-!
# The kernel client gets the whole matrix

The client of `hai_kernel.c` cuts the reference rows into chunks, encodes each chunk
with one query row, lets the TA decode it and evaluate the circuit, and copies the
answers to their place. The matrix it ends up with is the one of evaluating every pair
once, whatever else the TA instance serves in between.

## Key results

- `chunk_answer`: the TA accepts the request for a chunk and answers with its entries
- `kernelChunk_run`: one chunk fills in its part of one row
- `kernelLoop_run`: the loop succeeds and fills in the whole matrix
-/

namespace OpteeRpi5.Spec

open OpteeRpi5.Native

/-! ## Jobs -/

/-- A job whose dimensions the client accepts. -/
structure ValidJob extends KernelJob where
  nRef_le : nRef.toNat ≤ 100000
  nQuery_le : nQuery.toNat ≤ 100000
  nRef_ne : nRef ≠ 0
  nQuery_ne : nQuery ≠ 0

/-- The repetition count of the command of a mode. -/
def kernelReps : KernelMode → UInt32
  | .qoc8 | .qoc16 => 3
  | .qmoc8 | .qmoc16 => 1

/-- The number of qubits of a mode. -/
def qubits (m : KernelMode) : Nat := m.nQubits.toNat

/-- The rows of a mode have two features for each qubit. -/
theorem feat_toNat (m : KernelMode) : m.feat.toNat = 2 * qubits m := by
  cases m <;> rfl

theorem qubits_le (m : KernelMode) : qubits m ≤ 16 := by
  cases m <;> decide

/-- The kernel value of query row `q` and reference row `r`, as a float. -/
def jobEntry (D : Type) [RatCast D] [Add D] [Sub D] [Mul D] [Neg D] [Div D] [LT D]
    [DecidableLT D] [FloatConv D] (job : KernelJob) (q r : Nat) : UInt32 :=
  FloatConv.toFloat (fidelityValue (D := D) (qubits job.mode) kTrig
    (floatRow job.query (4 * (q * (2 * qubits job.mode))))
    (floatRow job.ref (4 * (r * (2 * qubits job.mode)))) (kernelReps job.mode).toNat)

/-- Row offsets do not wrap. -/
private theorem mul_feat_toNat (m : KernelMode) {w : UInt32} (hw : w.toNat ≤ 100001) :
    (w * m.feat).toNat = w.toNat * (2 * qubits m) := by
  have hq := qubits_le m
  have hf := feat_toNat m
  rw [UInt32.toNat_mul_of_le hw (show _ ≤ 32 by omega) (by decide), hf]

/-! ## One request -/

/-- A chunk has between one and `CHUNK` rows. -/
private theorem chunkRows_toNat {nRef : UInt32} {r0 : Nat} (hle : nRef.toNat ≤ 100000)
    (hr0 : r0 < nRef.toNat) : (chunkRows nRef r0).toNat = min 32 (nRef.toNat - r0) := by
  have hof : (UInt32.ofNat r0).toNat = r0 := by
    rw [UInt32.toNat_ofNat']
    omega
  have hle' : UInt32.ofNat r0 ≤ nRef := UInt32.le_iff_toNat_le.mpr (by omega)
  show (if nRef - UInt32.ofNat r0 > hostChunk then hostChunk else nRef - UInt32.ofNat r0).toNat = _
  rw [UInt32.toNat_clamp_sub hle', hof, show hostChunk.toNat = 32 from rfl]

section Encode

variable (job : ValidJob) {q r0 : Nat} (inbuf : Buf)

/-- The encoded request, with the offsets as natural numbers. -/
private theorem encodeChunk_eq (hq : q < job.nQuery.toNat) (hr0 : r0 < job.nRef.toNat) :
    let n := chunkRows job.nRef r0
    let w := 2 * qubits job.mode
    encodeChunk job.toKernelJob q r0 inbuf =
      ((((inbuf.putLe32 0 n).putLe32 4 1).putLe32 8 job.mode.nQubits).copy 12 job.ref
        (4 * (r0 * w)) (4 * (n.toNat * w))).copy (12 + 4 * (n.toNat * w)) job.query
        (4 * (q * w)) (4 * w) := by
  intro n w
  have hnRef := job.nRef_le
  have hnQuery := job.nQuery_le
  have hn : n.toNat = min 32 (job.nRef.toNat - r0) := chunkRows_toNat job.nRef_le hr0
  -- no product of the offsets wraps: a job has at most 100000 rows
  have hof : ∀ i, i ≤ 100000 → (UInt32.ofNat i).toNat = i := fun i hi => by
    rw [UInt32.toNat_ofNat']
    omega
  have h1 : (UInt32.ofNat r0 * job.mode.feat).toNat = r0 * w := by
    rw [mul_feat_toNat job.mode (by rw [hof r0 (by omega)]; omega), hof r0 (by omega)]
  have h2 : (UInt32.ofNat q * job.mode.feat).toNat = q * w := by
    rw [mul_feat_toNat job.mode (by rw [hof q (by omega)]; omega), hof q (by omega)]
  have h3 : (n * job.mode.feat).toNat = n.toNat * w := mul_feat_toNat job.mode (by omega)
  have h4 : job.mode.feat.toNat = w := feat_toNat job.mode
  unfold encodeChunk
  simp only [sizeofQaiKernelBlockIn, h1, h2, h4]
  rw [show (chunkRows job.nRef r0 * job.mode.feat).toNat = n.toNat * w from h3,
    Nat.mul_comm (n.toNat * w) 4, Nat.mul_comm w 4]

variable {job}

/-- The header of the request. -/
private theorem encodeChunk_header (hq : q < job.nQuery.toNat) (hr0 : r0 < job.nRef.toNat) :
    let b := encodeChunk job.toKernelJob q r0 inbuf
    b.le32 0 = chunkRows job.nRef r0 ∧ b.le32 4 = 1 ∧ b.le32 8 = job.mode.nQubits := by
  intro b
  have hb : b = _ := encodeChunk_eq job inbuf hq hr0
  obtain ⟨h0, h4, h8⟩ := Buf.le32_header inbuf (chunkRows job.nRef r0) 1 job.mode.nQubits
  have hrows : ∀ i, i + 4 ≤ 12 → b.le32 i = (((inbuf.putLe32 0 (chunkRows job.nRef r0)).putLe32
      4 1).putLe32 8 job.mode.nQubits).le32 i := fun i hi => by
    rw [hb, Buf.le32_copy_outside _ _ (Or.inl (by omega)),
      Buf.le32_copy_outside _ _ (Or.inl (by omega))]
  exact ⟨(hrows 0 (by decide)).trans h0, (hrows 4 (by decide)).trans h4,
    (hrows 8 (by decide)).trans h8⟩

/-- The query row of the request. -/
private theorem encodeChunk_query (hq : q < job.nQuery.toNat) (hr0 : r0 < job.nRef.toNat)
    {i : Nat} (hi : i < 2 * qubits job.mode) :
    (encodeChunk job.toKernelJob q r0 inbuf).le32
      (12 + 4 * ((chunkRows job.nRef r0).toNat * (2 * qubits job.mode)) + 4 * i) =
      job.query.le32 (4 * (q * (2 * qubits job.mode)) + 4 * i) := by
  rw [encodeChunk_eq job inbuf hq hr0]
  exact Buf.le32_copy_inside _ _ (by omega)

/-- The reference rows of the request. -/
private theorem encodeChunk_ref (hq : q < job.nQuery.toNat) (hr0 : r0 < job.nRef.toNat)
    {j i : Nat} (hj : j < (chunkRows job.nRef r0).toNat) (hi : i < 2 * qubits job.mode) :
    (encodeChunk job.toKernelJob q r0 inbuf).le32
      (12 + 4 * (j * (2 * qubits job.mode)) + 4 * i) =
      job.ref.le32 (4 * ((r0 + j) * (2 * qubits job.mode)) + 4 * i) := by
  generalize hw : 2 * qubits job.mode = w at hi ⊢
  have hrow : j * w + w ≤ (chunkRows job.nRef r0).toNat * w := rowEnd_le hj
  rw [encodeChunk_eq job inbuf hq hr0, hw, Buf.le32_copy_outside _ _ (Or.inl (by omega)),
    Nat.add_assoc, Buf.le32_copy_inside _ _ (by omega), Nat.add_mul]
  congr 1
  omega

end Encode

section Client

variable {D : Type} [RatCast D] [Add D] [Sub D] [Mul D] [Neg D] [Div D] [LT D] [DecidableLT D]
  [FloatConv D]

/-- The rows that the TA finds in the request are the rows of the job. -/
private theorem chunk_entry {job : ValidJob} {q r0 : Nat} (inbuf : Buf)
    (hq : q < job.nQuery.toNat) (hr0 : r0 < job.nRef.toNat) {j : Nat}
    (hj : j < (chunkRows job.nRef r0).toNat) :
    kernelEntry D (qubits job.mode) (kernelReps job.mode).toNat
      (encodeChunk job.toKernelJob q r0 inbuf)
      (12 + 4 * ((chunkRows job.nRef r0).toNat * (2 * qubits job.mode))) 12 0 j =
      jobEntry D job.toKernelJob q (r0 + j) := by
  have hquery : ∀ i < 2 * qubits job.mode,
      floatRow (D := D) (encodeChunk job.toKernelJob q r0 inbuf)
        (12 + 4 * ((chunkRows job.nRef r0).toNat * (2 * qubits job.mode)) +
          4 * (0 * (2 * qubits job.mode))) i =
      floatRow job.query (4 * (q * (2 * qubits job.mode))) i := by
    intro i hi
    rw [Nat.zero_mul, Nat.mul_zero, Nat.add_zero, floatRow, encodeChunk_query inbuf hq hr0 hi,
      floatRow]
  have href : ∀ i < 2 * qubits job.mode,
      floatRow (D := D) (encodeChunk job.toKernelJob q r0 inbuf)
        (12 + 4 * (j * (2 * qubits job.mode))) i =
      floatRow job.ref (4 * ((r0 + j) * (2 * qubits job.mode))) i := by
    intro i hi
    rw [floatRow, encodeChunk_ref inbuf hq hr0 hj hi, floatRow]
  exact congrArg FloatConv.toFloat (fidelityValue_congr kTrig _ hquery href)

/-- A chunk passes the checks of the block. -/
private theorem chunk_accepts (job : ValidJob) {r0 : Nat} (hr0 : r0 < job.nRef.toNat) :
    BlockAccepts (chunkRows job.nRef r0) 1 (kernelReps job.mode) job.mode.nQubits := by
  have hn := chunkRows_toNat job.nRef_le hr0
  have hne : chunkRows job.nRef r0 ≠ 0 := by
    intro h0
    rw [h0, UInt32.toNat_zero] at hn
    omega
  refine ⟨hne, by decide, by omega, by decide, ?_, ?_, ?_, ?_⟩
  · rw [UInt32.toNat_one, Nat.mul_one]
    omega
  · cases job.mode <;> decide
  · cases job.mode <;> decide
  · cases job.mode <;> decide

/-- The command of a mode runs the block with the repetition count of the mode. -/
private theorem answer_chunkRequest (job : KernelJob) (n : UInt32) (inbuf outbuf : Buf)
    (rng elapsed : UInt32) :
    answer D (chunkRequest job n inbuf outbuf) rng elapsed =
      blockAnswer D expMemrefs (kernelReps job.mode) (chunkRequest job n inbuf outbuf).params
        elapsed := by
  have hcmd : (chunkRequest job n inbuf outbuf).cmdId = job.mode.cmd := rfl
  cases hmode : job.mode with
  | qoc8 => exact answer_qocBlock rng elapsed (by rw [hcmd, hmode]; rfl)
  | qmoc8 => exact answer_qmocBlock rng elapsed (by rw [hcmd, hmode]; rfl)
  | qoc16 => exact answer_qocBlock rng elapsed (by rw [hcmd, hmode]; rfl)
  | qmoc16 => exact answer_qmocBlock rng elapsed (by rw [hcmd, hmode]; rfl)

/-- Word `j` of the entries. -/
private theorem le32_reply (hdr : Buf) {n reps : Nat} {inp : Buf} {query ref nRef j : Nat}
    (hj : j < nRef) :
    (hdr.append sizeofQaiKernelBlockOut (blockEntries D n reps inp query ref nRef)).le32
      (sizeofQaiKernelBlockOut + 4 * j) = kernelEntry D n reps inp query ref 0 j := by
  apply Buf.le32_eq_of_bytes
  intro k hk
  have hdiv : (sizeofQaiKernelBlockOut + 4 * j + k - sizeofQaiKernelBlockOut) / 4 = j := by omega
  have hmod : (sizeofQaiKernelBlockOut + 4 * j + k - sizeofQaiKernelBlockOut) % 4 = k := by omega
  simp only [Buf.append, blockEntries]
  rw [if_neg (by omega), hdiv, hmod, Nat.div_eq_of_lt hj, Nat.mod_eq_of_lt hj]

/-- The TA accepts the request for a chunk and answers with the entries of the chunk. -/
theorem chunk_answer {job : ValidJob} {q r0 : Nat} (inbuf outbuf : Buf)
    (hq : q < job.nQuery.toNat) (hr0 : r0 < job.nRef.toNat) (rng elapsed : UInt32) :
    ∃ bytes, answer D (chunkRequest job.toKernelJob (chunkRows job.nRef r0)
        (encodeChunk job.toKernelJob q r0 inbuf) outbuf) rng elapsed =
        .reply 1 bytes (sizeofQaiKernelBlockOut + 4 * (chunkRows job.nRef r0).toNat) ∧
      ∀ j < (chunkRows job.nRef r0).toNat,
        bytes.le32 (sizeofQaiKernelBlockOut + 4 * j) = jobEntry D job.toKernelJob q (r0 + j) := by
  have hn := chunkRows_toNat job.nRef_le hr0
  obtain ⟨h0, h4, h8⟩ := encodeChunk_header inbuf hq hr0
  have hentry := fun j hj => chunk_entry (D := D) (j := j) inbuf hq hr0 hj
  generalize encodeChunk job.toKernelJob q r0 inbuf = b at h0 h4 h8 hentry
  -- the host sizes are the ones the TA asks for
  have hsize : ((chunkRows job.nRef r0 + 1) * job.mode.feat).toNat =
      (chunkRows job.nRef r0).toNat * (2 * qubits job.mode) + 2 * qubits job.mode := by
    have hsucc : (chunkRows job.nRef r0 + 1).toNat = (chunkRows job.nRef r0).toNat + 1 := by
      rw [UInt32.toNat_add, UInt32.toNat_one]
      omega
    rw [mul_feat_toNat job.mode (by omega), hsucc, Nat.succ_mul]
  have hqubits : job.mode.nQubits.toNat = qubits job.mode := rfl
  have hin : sizeofQaiKernelBlockIn +
      4 * ((chunkRows job.nRef r0).toNat * (2 * job.mode.nQubits.toNat)) +
      4 * ((1 : UInt32).toNat * (2 * job.mode.nQubits.toNat)) ≤
      sizeofQaiKernelBlockIn + ((chunkRows job.nRef r0 + 1) * job.mode.feat).toNat * 4 := by
    rw [hsize, UInt32.toNat_one, hqubits]
    omega
  have hout : sizeofQaiKernelBlockOut +
      4 * ((chunkRows job.nRef r0).toNat * (1 : UInt32).toNat) ≤
      sizeofQaiKernelBlockOut + (chunkRows job.nRef r0).toNat * 4 := by
    rw [UInt32.toNat_one]
    omega
  have haccept := blockAnswer_accept (D := D)
    (chunkRequest job.toKernelJob (chunkRows job.nRef r0) b outbuf).params h0 h4 h8
    (chunk_accepts job hr0) hin hout elapsed
  rw [UInt32.toNat_one, Nat.mul_one] at haccept
  refine ⟨_, (answer_chunkRequest _ _ _ _ _ _).trans haccept, ?_⟩
  intro j hj
  exact (le32_reply _ hj).trans (hentry j hj)

/-! ## The loops -/

/-- The first `k` entries of the matrix are in `out`. -/
def OutInv (job : KernelJob) (k : Nat) (s : KernelClient D) : Prop :=
  ∀ q r, r < job.nRef.toNat → q * job.nRef.toNat + r < k →
    s.out.le32 (4 * (q * job.nRef.toNat + r)) = jobEntry D job q r

/-- Copying the answer to a chunk into place. -/
private theorem OutInv.chunk {job : KernelJob} {q r0 n : Nat} {s : KernelClient D}
    (h : OutInv job (q * job.nRef.toNat + r0) s) (hn : r0 + n ≤ job.nRef.toNat) {outbuf : Buf}
    (hwords : ∀ j < n,
      outbuf.le32 (sizeofQaiKernelBlockOut + 4 * j) = jobEntry D job q (r0 + j))
    {s' : KernelClient D} (hout : s'.out = s.out.copy (4 * (q * job.nRef.toNat + r0)) outbuf
      sizeofQaiKernelBlockOut (n * 4)) :
    OutInv job (q * job.nRef.toNat + (r0 + n)) s' := by
  intro q' r' hr' hk
  rw [hout]
  by_cases hold : q' * job.nRef.toNat + r' < q * job.nRef.toNat + r0
  · rw [Buf.le32_copy_outside _ _ (Or.inl (by omega))]
    exact h q' r' hr' hold
  · -- a new entry is in row `q`, at column `r0 + j`
    obtain ⟨j, hj⟩ : ∃ j, q' * job.nRef.toNat + r' = q * job.nRef.toNat + (r0 + j) :=
      ⟨q' * job.nRef.toNat + r' - (q * job.nRef.toNat + r0), by omega⟩
    obtain ⟨rfl, rfl⟩ := rowCol_inj hr' (by omega) hj
    have hpos : 4 * (q' * job.nRef.toNat + (r0 + j)) =
        4 * (q' * job.nRef.toNat + r0) + 4 * j := by omega
    rw [hpos, Buf.le32_copy_inside _ _ (by omega)]
    exact hwords j (by omega)

/-- One iteration of the inner loop: the call succeeds and its entries are put in place. -/
theorem kernelChunk_run (job : ValidJob) (env : CallEnv D) {q r0 : Nat}
    (hq : q < job.nQuery.toNat) (hr0 : r0 < job.nRef.toNat) {s : KernelClient D}
    (h : OutInv job.toKernelJob (q * job.nRef.toNat + r0) s) :
    ((kernelChunk job.toKernelJob env q r0).run s).1 = .ok () ∧
    OutInv job.toKernelJob (q * job.nRef.toNat + min (r0 + 32) job.nRef.toNat)
      ((kernelChunk job.toKernelJob env q r0).run s).2 := by
  have hn := chunkRows_toNat job.nRef_le hr0
  obtain ⟨bytes, hans, hwords⟩ := chunk_answer (D := D) s.inbuf s.outbuf hq hr0
    (serve s.ta (env s.calls).1).rngState (deltaMs (env s.calls).2.t0 (env s.calls).2.t1)
  obtain ⟨hok, hreply⟩ := invoke_reply hans
  simp only [kernelChunk, StateM.run_bind, StateM.run_modify, StateM.run_get]
  generalize invoke (serve s.ta (env s.calls).1) (env s.calls).2
    (chunkRequest job.toKernelJob (chunkRows job.nRef r0)
      (encodeChunk job.toKernelJob q r0 s.inbuf) s.outbuf) = r at hok hreply
  have hsuccess : ¬ (r.1 ≠ .success) := not_not.mpr hok
  simp only [if_neg hsuccess, StateM.run_bind, StateM.run_modify, StateM.run_pure]
  refine ⟨trivial, ?_⟩
  -- the last chunk of a row may be short
  have hlast : min (r0 + 32) job.nRef.toNat = r0 + (chunkRows job.nRef r0).toNat := by omega
  rw [hlast]
  refine h.chunk (by omega) ?_ rfl
  intro j hj
  rw [← hwords j hj]
  exact Buf.le32_congr fun k hk => hreply _ (by omega)

/-- The inner loop fills in one row. -/
theorem kernelRow_run (job : ValidJob) (env : CallEnv D) {q : Nat} (hq : q < job.nQuery.toNat)
    {s : KernelClient D} (h : OutInv job.toKernelJob (q * job.nRef.toNat) s) :
    ((kernelRow job.toKernelJob env q).run s).1 = .ok () ∧
    OutInv job.toKernelJob ((q + 1) * job.nRef.toNat)
      ((kernelRow job.toKernelJob env q).run s).2 := by
  have hend : (q + 1) * job.nRef.toNat =
      q * job.nRef.toNat + min (32 * ((job.nRef.toNat + 31) / 32)) job.nRef.toNat := by
    rw [Nat.succ_mul]
    omega
  rw [hend]
  -- after `c` chunks the row is filled up to column `32 * c`
  apply Loop.up_inv (fun (c : Nat) (status : Except TeeResult Unit) (s : KernelClient D) =>
    status = .ok () ∧
    OutInv job.toKernelJob (q * job.nRef.toNat + min (32 * c) job.nRef.toNat) s)
  · rw [Nat.mul_zero, Nat.zero_min, Nat.add_zero]
    exact ⟨rfl, h⟩
  · intro c status s hc hs
    obtain ⟨rfl, hinv⟩ := hs
    have hr0 : 32 * c < job.nRef.toNat := by omega
    rw [Nat.min_eq_left hr0.le] at hinv
    exact kernelChunk_run job env hq hr0 hinv

/-- The outer loop fills in all rows. -/
theorem kernelLoop_inv (job : ValidJob) (env : CallEnv D) (s : KernelClient D) :
    ((kernelLoop job.toKernelJob env).run s).1 = .ok () ∧
    OutInv job.toKernelJob (job.nQuery.toNat * job.nRef.toNat)
      ((kernelLoop job.toKernelJob env).run s).2 := by
  apply Loop.up_inv (fun (q : Nat) (status : Except TeeResult Unit) (s : KernelClient D) =>
    status = .ok () ∧ OutInv job.toKernelJob (q * job.nRef.toNat) s)
  · refine ⟨rfl, ?_⟩
    intro q r _ hk
    omega
  · intro q status s hq hs
    obtain ⟨rfl, hinv⟩ := hs
    exact kernelRow_run job env hq hinv

/-- Every entry is below the end of the matrix. -/
theorem OutInv.entry {job : KernelJob} {s : KernelClient D}
    (h : OutInv job (job.nQuery.toNat * job.nRef.toNat) s) {q r : Nat}
    (hq : q < job.nQuery.toNat) (hr : r < job.nRef.toNat) :
    s.out.le32 (4 * (q * job.nRef.toNat + r)) = jobEntry D job q r := by
  have hrow : q * job.nRef.toNat + job.nRef.toNat ≤ job.nQuery.toNat * job.nRef.toNat :=
    rowEnd_le hq
  exact h q r hr (by omega)

/-- Every call of the client succeeds, and its loop ends with the kernel value of query
    row `q` and reference row `r` at index `q * n_ref + r`, for all rows. Neither what
    else the instance serves between the calls nor what the buffers hold at the start
    matters. -/
theorem kernelLoop_run (job : ValidJob) (env : CallEnv D) (s : KernelClient D) :
    ((kernelLoop job.toKernelJob env).run s).1 = .ok () ∧
    ∀ q < job.nQuery.toNat, ∀ r < job.nRef.toNat,
      ((kernelLoop job.toKernelJob env).run s).2.out.le32 (4 * (q * job.nRef.toNat + r)) =
        jobEntry D job.toKernelJob q r := by
  obtain ⟨hok, hinv⟩ := kernelLoop_inv job env s
  exact ⟨hok, fun q hq r hr => hinv.entry hq hr⟩

end Client

end OpteeRpi5.Spec
