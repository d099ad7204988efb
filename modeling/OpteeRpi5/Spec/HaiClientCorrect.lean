import OpteeRpi5.Native.HaiInferClient
import OpteeRpi5.Spec.Service

/-!
# The HAI client gets the decisions of its rows

The client of `hai_infer_client.c` cuts the rows of a feature file into requests, lets
the TA decide the rows of each, and puts the decisions in their place. Every request is
accepted and the loop ends, for any number of rows that fits a `uint32_t`.

The index of the first feature of a request is a `uint32_t` too, and there are 16
features in a row, so from row `2 ^ 28` on it wraps: the rows that are sent are those
from the start of the file again. Up to `2 ^ 28` rows the client is transparent.

## Key results

- `rows_answer`: the TA accepts a request and answers with the decisions on its rows
- `haiInferChunk_run`: one request puts its decisions in place
- `haiInferMain_run`: byte `i` of the output is the decision on row `i % 2 ^ 28`
- `haiInferMain_transparent_iff`: the client is transparent for all files exactly if
  there are at most `2 ^ 28` rows
-/

namespace OpteeRpi5.Spec

open OpteeRpi5.Native

/-! ## Jobs -/

/-- A job with a repetition count that the client accepts and a model that the TA knows. -/
structure ValidHaiJob extends HaiJob where
  known : model = qaiHaiModelTinyml ∨ model = qaiHaiModelPairwiseFake
  reps_ne : reps ≠ 0

/-- The number of rows whose features a `uint32_t` can index. -/
def indexedRows : Nat := 2 ^ 28

/-- The first feature of the rows from `done` on, as the client computes its index. -/
private theorem firstFeature_toNat (done : UInt32) :
    (done * UInt32.ofNat qaiHaiFeat).toNat = done.toNat % indexedRows * qaiHaiFeat := by
  have hlt : done.toNat < 2 ^ 32 := done.toNat_lt
  simp only [UInt32.toNat_mul, UInt32.toNat_ofNat', qaiHaiFeat, indexedRows]
  omega

/-! ## One request -/

section Encode

variable (job : HaiJob) (rows : Buf) (done : UInt32) (inbuf : Buf)

/-- The header of the request. -/
private theorem encodeRows_header :
    let b := encodeRows job rows done inbuf
    b.le32 0 = job.model ∧ b.le32 4 = takeRows job.n done ∧ b.le32 8 = job.reps := by
  intro b
  obtain ⟨h0, h4, h8⟩ := Buf.le32_header inbuf job.model (takeRows job.n done) job.reps
  have hrows : ∀ i, i + 4 ≤ sizeofQaiHaiInferIn → b.le32 i = Buf.le32 _ i := fun i hi =>
    Buf.le32_copy_outside _ _ (Or.inl hi)
  exact ⟨(hrows 0 (by decide)).trans h0, (hrows 4 (by decide)).trans h4,
    (hrows 8 (by decide)).trans h8⟩

/-- The rows of the request. -/
private theorem haiRow_encodeRows {j k : Nat} (hj : j < (takeRows job.n done).toNat)
    (hk : k < qaiHaiFeat) :
    haiRow (encodeRows job rows done inbuf) sizeofQaiHaiInferIn j k =
      haiRow rows 0 (done.toNat % indexedRows + j) k := by
  simp only [haiRow, encodeRows, firstFeature_toNat]
  simp only [qaiHaiFeat] at hk ⊢
  rw [Nat.add_assoc, Buf.le32_copy_inside _ _ (by omega)]
  congr 2
  omega

end Encode

section Client

variable {D : Type} [RatCast D] [Add D] [Sub D] [Mul D] [Neg D] [Div D] [LT D] [DecidableLT D]
  [FloatConv D]

/-- The TA accepts the request for the rows from `done` on and answers with the decisions
    on the rows that the wrapped index selects. -/
theorem rows_answer (job : ValidHaiJob) (rows : Buf) {done : UInt32} (h : done < job.n)
    (inbuf outbuf : Buf) (rng elapsed : UInt32) :
    ∃ bytes, answer D (haiRequest (takeRows job.n done)
        (encodeRows job.toHaiJob rows done inbuf) outbuf) rng elapsed =
        .reply 1 bytes (sizeofQaiHaiInferOut + (takeRows job.n done).toNat) ∧
      ∀ j < (takeRows job.n done).toNat, bytes (sizeofQaiHaiInferOut + j) =
        haiDecide job.model (haiRow rows 0 (done.toNat % indexedRows + j)) := by
  obtain ⟨hmodel, hn, hreps⟩ := encodeRows_header job.toHaiJob rows done inbuf
  have hrow : ∀ j < (takeRows job.n done).toNat,
      haiDecide job.model (haiRow (encodeRows job.toHaiJob rows done inbuf)
        sizeofQaiHaiInferIn j) =
      haiDecide job.model (haiRow rows 0 (done.toNat % indexedRows + j)) := fun j hj =>
    haiDecide_congr _ fun k hk => haiRow_encodeRows job.toHaiJob rows done inbuf hj hk
  -- from here on only the header words and the rows of the request matter
  generalize encodeRows job.toHaiJob rows done inbuf = b at hmodel hn hreps hrow
  have htake := takeRows_toNat h
  have hlt : done.toNat < job.n.toNat := UInt32.lt_iff_toNat_lt.mp h
  have hargs : HaiArgs job.model (takeRows job.n done) job.reps := by
    refine ⟨fun h0 => ?_, ?_, job.reps_ne, job.known⟩
    · rw [h0, UInt32.toNat_zero] at htake
      simp only [qaiHaiMaxRows] at htake
      omega
    · omega
  have hin : sizeofQaiHaiInferIn + 4 * ((takeRows job.n done).toNat * qaiHaiFeat) ≤
      sizeofQaiHaiInferIn + (takeRows job.n done).toNat * qaiHaiFeat * 4 := by
    omega
  refine ⟨_, (answer_haiInfer rng elapsed rfl).trans
    (haiAnswer_accept (haiRequest (takeRows job.n done) b outbuf).params hmodel hn hreps hargs
      hin (Nat.le_refl _) elapsed), ?_⟩
  intro j hj
  simp only [Buf.append]
  rw [if_neg (by omega), Nat.add_sub_cancel_left]
  exact hrow j hj

/-! ## The loop -/

/-- The first `k` decisions are in `pred`. -/
def PredInv (job : HaiJob) (rows : Buf) (k : Nat) (s : HaiClient D) : Prop :=
  ∀ i < k, s.pred i = haiDecide job.model (haiRow rows 0 (i % indexedRows))

/-- One iteration: the call succeeds and its decisions are put in place. -/
theorem haiInferChunk_run (job : ValidHaiJob) (rows : Buf) (env : CallEnv D) {done : UInt32}
    (h : done < job.n) (haligned : qaiHaiMaxRows ∣ done.toNat) {s : HaiClient D}
    (hs : PredInv job.toHaiJob rows done.toNat s) :
    ((haiInferChunk job.toHaiJob rows env done).run s).1 = .ok () ∧
    PredInv job.toHaiJob rows (done.toNat + (takeRows job.n done).toNat)
      ((haiInferChunk job.toHaiJob rows env done).run s).2 := by
  have htake := takeRows_toNat h
  obtain ⟨bytes, hans, hbytes⟩ := rows_answer (D := D) job rows h s.inbuf s.outbuf
    (serve s.ta (env s.calls).1).rngState (deltaMs (env s.calls).2.t0 (env s.calls).2.t1)
  obtain ⟨hok, hreply⟩ := invoke_reply hans
  simp only [haiInferChunk, StateM.run_bind, StateM.run_modify, StateM.run_get]
  generalize invoke (serve s.ta (env s.calls).1) (env s.calls).2
    (haiRequest (takeRows job.n done) (encodeRows job.toHaiJob rows done s.inbuf) s.outbuf) = r
    at hok hreply
  have hsuccess : ¬ (r.1 ≠ .success) := not_not.mpr hok
  simp only [if_neg hsuccess, StateM.run_bind, StateM.run_modify, StateM.run_pure]
  refine ⟨trivial, ?_⟩
  intro i hi
  show s.pred.copy done.toNat (r.2.params 1).memref.buffer sizeofQaiHaiInferOut
    (takeRows job.n done).toNat i = _
  by_cases hold : i < done.toNat
  · rw [Buf.copy_outside _ _ (Or.inl hold)]
    exact hs i hold
  · -- a new decision: the chunk is aligned, so its rows wrap together
    obtain ⟨j, rfl⟩ : ∃ j, i = done.toNat + j := ⟨i - done.toNat, by omega⟩
    have hj : j < (takeRows job.n done).toNat := by omega
    have hwrap : (done.toNat + j) % indexedRows = done.toNat % indexedRows + j := by
      simp only [qaiHaiMaxRows] at haligned htake
      simp only [indexedRows]
      omega
    rw [Buf.copy_inside _ _ hj, hreply _ (by omega), hbytes j hj, hwrap]

/-- The loop from any chunk on. A chunk that is not the last one ends at a multiple of
    `CHUNK`. -/
theorem haiInferLoop_run (job : ValidHaiJob) (rows : Buf) (env : CallEnv D) (done : UInt32)
    (hle : done.toNat ≤ job.n.toNat)
    (haligned : done < job.n → qaiHaiMaxRows ∣ done.toNat) (s : HaiClient D)
    (hs : PredInv job.toHaiJob rows done.toNat s) :
    ((haiInferLoop job.toHaiJob rows env done).run s).1 = .ok () ∧
    PredInv job.toHaiJob rows job.n.toNat
      ((haiInferLoop job.toHaiJob rows env done).run s).2 := by
  unfold haiInferLoop
  split
  · next h =>
    have htake := takeRows_toNat h
    have hnext := done_add_takeRows h
    have hlt : done.toNat < job.n.toNat := UInt32.lt_iff_toNat_lt.mp h
    obtain ⟨hok, hinv⟩ := haiInferChunk_run job rows env h (haligned h) hs
    rw [← hnext] at hinv
    simp only [qaiHaiMaxRows] at htake
    simp only [StateM.run_bind, hok]
    apply haiInferLoop_run job rows env (done + takeRows job.n done)
    · omega
    · -- with rows left the chunk was a whole one
      intro hmore
      have hlt' := UInt32.lt_iff_toNat_lt.mp hmore
      have hdvd := haligned h
      simp only [qaiHaiMaxRows] at hdvd ⊢
      omega
    · exact hinv
  · next h =>
    have hge : ¬ done.toNat < job.n.toNat := fun hlt => h (UInt32.lt_iff_toNat_lt.mpr hlt)
    have hend : done.toNat = job.n.toNat := by omega
    rw [hend] at hs
    exact ⟨rfl, hs⟩
termination_by job.n.toNat - done.toNat
decreasing_by
  simp only [hnext, htake, qaiHaiMaxRows]
  omega

/-! ## The program -/

/-- Row `i` of a feature file. -/
def fileRow (features : List UInt8) (i : Nat) : Nat → Int32 :=
  haiRow (fun j => features.getD j 0) 0 i

/-- The file holds the rows of the job. -/
def HoldsRows (features : List UInt8) (n : UInt32) : Prop :=
  n.toNat * qaiHaiFeat * 4 ≤ features.length

/-- The rows in memory are those of the file. -/
private theorem haiDecide_readRows (model : UInt32) (features : List UInt8) {n : UInt32} {i : Nat}
    (hi : i < n.toNat) :
    haiDecide model (haiRow (readRows features n) 0 i) = haiDecide model (fileRow features i) := by
  apply haiDecide_congr
  intro k hk
  simp only [qaiHaiFeat] at hk
  have hinside : (readRows features n).le32 (0 + (4 * (i * qaiHaiFeat) + 4 * k)) =
      Buf.le32 (fun j => features.getD j 0) (0 + (4 * (i * qaiHaiFeat) + 4 * k)) := by
    simp only [qaiHaiFeat]
    exact Buf.le32_copy_inside _ _ (by simp only [qaiHaiFeat]; omega)
  simp only [fileRow, haiRow, Nat.add_assoc, hinside]

/-- The client gets to its end, and byte `i` of the output is the decision on row
    `i % 2 ^ 28` of the file. -/
theorem haiInferMain_run (job : ValidHaiJob) {features : List UInt8}
    (hfile : HoldsRows features job.n) (env : CallEnv D) (ta : Statics D)
    (inbuf outbuf : Buf) :
    ∃ report, haiInferMain job.toHaiJob features env ta inbuf outbuf = .ok report ∧
      report.out = (List.range job.n.toNat).map
        (fun i => haiDecide job.model (fileRow features (i % indexedRows))) := by
  -- `fread` gets as many features as it asks for
  have hread : ¬ (min (features.length / 4) (job.n.toNat * qaiHaiFeat) ≠
      job.n.toNat * qaiHaiFeat) := by
    unfold HoldsRows at hfile
    omega
  obtain ⟨hok, hinv⟩ := haiInferLoop_run job (readRows features job.n) env 0 (Nat.zero_le _)
    (fun _ => Nat.dvd_zero _) ⟨ta, inbuf, outbuf, fun _ => 0, 0, 0⟩
    (fun i hi => absurd hi (Nat.not_lt_zero i))
  unfold haiInferMain
  rw [if_neg job.reps_ne, if_neg hread]
  simp only [hok]
  refine ⟨_, rfl, ?_⟩
  apply List.map_congr_left
  intro i hi
  have hi' : i < job.n.toNat := List.mem_range.mp hi
  rw [Nat.zero_add, hinv i hi']
  exact haiDecide_readRows _ _ (Nat.lt_of_le_of_lt (Nat.mod_le _ _) hi')

/-- The client gets to its end, so no request was refused, and the output file holds the
    decision on every row in turn. -/
def Transparent (job : HaiJob) (features : List UInt8) (result : Except HaiExit HaiReport) :
    Prop :=
  ∃ report, result = .ok report ∧
    report.out = (List.range job.n.toNat).map
      (fun i => haiDecide job.model (fileRow features i))

/-- For a given file, what has to hold is that the wrapped rows are decided alike. -/
theorem transparent_iff_rows (job : ValidHaiJob) {features : List UInt8}
    (hfile : HoldsRows features job.n) (env : CallEnv D) (ta : Statics D)
    (inbuf outbuf : Buf) :
    Transparent job.toHaiJob features
        (haiInferMain job.toHaiJob features env ta inbuf outbuf) ↔
      ∀ i < job.n.toNat, haiDecide job.model (fileRow features (i % indexedRows)) =
        haiDecide job.model (fileRow features i) := by
  obtain ⟨report, hrun, hout⟩ := haiInferMain_run job hfile env ta inbuf outbuf
  rw [hrun]
  constructor
  · intro ⟨report', heq, hdec⟩ i hi
    obtain rfl : report = report' := Except.ok.inj heq
    rw [hout] at hdec
    exact List.map_inj_left.mp hdec i (List.mem_range.mpr hi)
  · intro h
    refine ⟨report, rfl, ?_⟩
    rw [hout]
    exact List.map_congr_left fun i hi => h i (List.mem_range.mp hi)

/-! ## A file that is too long -/

/-- A file of `n` rows of zeros, but for the first feature of row `2 ^ 28`. -/
def wrapFile (n : Nat) : List UInt8 :=
  (Buf.copy (fun _ => 0) (indexedRows * qaiHaiFeat * 4) (Buf.ofWords [(-10000 : UInt32)]) 0
    (qaiHaiFeat * 4)).bytes 0 (n * qaiHaiFeat * 4)

private theorem fileRow_bytes (b : Buf) {n i k : Nat} (hi : i < n) (hk : k < qaiHaiFeat) :
    fileRow (b.bytes 0 (n * qaiHaiFeat * 4)) i k = haiRow b 0 i k := by
  simp only [fileRow, haiRow]
  congr 1
  apply Buf.le32_congr
  intro j hj
  simp only [qaiHaiFeat] at hk ⊢
  rw [List.getD_eq_getElem _ _ (by rw [Buf.length_bytes]; omega)]
  simp only [Buf.bytes, List.getElem_map, List.getElem_range, Nat.zero_add]

/-- Both models raise the alarm on row 0 and not on row `2 ^ 28`. -/
private theorem haiDecide_wrapFile {model : UInt32}
    (hknown : model = qaiHaiModelTinyml ∨ model = qaiHaiModelPairwiseFake) {n : Nat}
    (hn : indexedRows < n) :
    haiDecide model (fileRow (wrapFile n) 0) = 1 ∧
    haiDecide model (fileRow (wrapFile n) indexedRows) = 0 := by
  have hfirst : ∀ k < qaiHaiFeat, fileRow (wrapFile n) 0 k = 0 := by
    intro k hk
    rw [wrapFile, fileRow_bytes _ (by omega) hk, haiRow]
    rw [Buf.le32_copy_outside _ _ (Or.inl (by simp only [indexedRows, qaiHaiFeat] at hk ⊢; omega)),
      Buf.le32_eq_zero fun _ _ => rfl]
    rfl
  have hwrapped : ∀ k < qaiHaiFeat, fileRow (wrapFile n) indexedRows k =
      (([-10000] : List UInt32).getD k 0).toInt32 := by
    intro k hk
    rw [wrapFile, fileRow_bytes _ hn hk, haiRow]
    -- row `indexedRows` starts where the 32-bit offset is zero again
    have hpos : 0 + 4 * (indexedRows * qaiHaiFeat) + 4 * k =
        indexedRows * qaiHaiFeat * 4 + 4 * k := by omega
    rw [hpos, Buf.le32_copy_inside _ _ (by omega), Nat.zero_add, Buf.le32_ofWords]
  rw [haiDecide_congr model hfirst, haiDecide_congr model hwrapped]
  obtain rfl | rfl := hknown
  · decide
  · decide

/-- The client is transparent for every file that holds the rows, exactly if there are at
    most `2 ^ 28` of them. Neither the repetition count nor what else the instance serves
    between the requests nor what the buffers hold at the start matters. -/
theorem haiInferMain_transparent_iff (job : ValidHaiJob) (env : CallEnv D) (ta : Statics D)
    (inbuf outbuf : Buf) :
    (∀ features, HoldsRows features job.n → Transparent job.toHaiJob features
        (haiInferMain job.toHaiJob features env ta inbuf outbuf)) ↔
      job.n.toNat ≤ 2 ^ 28 := by
  constructor
  · intro h
    by_contra hlarge
    have hn : indexedRows < job.n.toNat := Nat.lt_of_not_le hlarge
    have hfile : HoldsRows (wrapFile job.n.toNat) job.n := by
      rw [HoldsRows, wrapFile, Buf.length_bytes]
    -- row `indexedRows` gets the decision of row 0, which is the other one
    have hrows := (transparent_iff_rows job hfile env ta inbuf outbuf).mp (h _ hfile)
    have hsame := hrows indexedRows hn
    obtain ⟨hfirst, hwrapped⟩ := haiDecide_wrapFile job.known hn
    rw [Nat.mod_self, hfirst, hwrapped] at hsame
    exact absurd hsame (by decide)
  · intro hle features hfile
    rw [transparent_iff_rows job hfile]
    intro i hi
    have hmod : i % indexedRows = i := Nat.mod_eq_of_lt (Nat.lt_of_lt_of_le hi hle)
    rw [hmod]

/-- One row more than the index reaches: byte `2 ^ 28` of the output is the alarm of row 0. -/
private theorem wrapFile_last (env : CallEnv D) (ta : Statics D) (inbuf outbuf : Buf) :
    ∃ report,
      haiInferMain ⟨qaiHaiModelTinyml, 268435457, 1⟩ (wrapFile 268435457) env ta inbuf outbuf =
        .ok report ∧
      report.out[268435456]? = some 1 := by
  let job : ValidHaiJob := ⟨⟨qaiHaiModelTinyml, 268435457, 1⟩, Or.inl rfl, by decide⟩
  have hfile : HoldsRows (wrapFile 268435457) job.n := by
    rw [HoldsRows, wrapFile, Buf.length_bytes]
    rfl
  obtain ⟨report, hrun, hout⟩ := haiInferMain_run job hfile env ta inbuf outbuf
  obtain ⟨hfirst, -⟩ := haiDecide_wrapFile (n := 268435457) job.known (by decide)
  refine ⟨report, hrun, ?_⟩
  have hn : job.n.toNat = 268435457 := rfl
  rw [hout, hn, List.getElem?_map, List.getElem?_range (by omega), Option.map_some]
  exact congrArg some hfirst

end Client

/-- Rationals for the doubles, which no decision uses. -/
local instance : FloatConv Rat where
  ofFloat := fun _ => 0
  toFloat := fun _ => 0
  toInt64 := fun _ => 0

/-- No other session, and a stack of zeros in every call. -/
def soleClient : CallEnv Rat := fun _ =>
  ([], ⟨fun _ _ => 0, fun _ => 0, fun _ => 0, fun _ => 0, ⟨0, 0⟩, ⟨0, 0⟩⟩)

/-- `TinyML` on one row more than the index reaches: the last byte of the output is an
    alarm, where the decision on the last row of the file is none. -/
theorem last_row_wraps :
    ∃ report,
      haiInferMain ⟨qaiHaiModelTinyml, 268435457, 1⟩ (wrapFile 268435457) soleClient
        Statics.init (fun _ => 0) (fun _ => 0) = .ok report ∧
      report.out[268435456]? = some 1 ∧
      haiDecide qaiHaiModelTinyml (fileRow (wrapFile 268435457) 268435456) = 0 := by
  obtain ⟨report, hrun, hlast⟩ :=
    wrapFile_last soleClient Statics.init (fun _ => 0) (fun _ => 0)
  obtain ⟨-, hwrapped⟩ := haiDecide_wrapFile (n := 268435457) (Or.inl rfl) (by decide)
  exact ⟨report, hrun, hlast, hwrapped⟩

end OpteeRpi5.Spec
