import Mathlib.Data.List.TakeWhile
import OpteeRpi5.Spec.SwLogCorrect
import OpteeRpi5.Spec.SwLogRegionSafe

/-!
# The log ring holds the tail of the stream

As long as nobody else writes the log region, it is determined by the bytes that have been
put: the header gives their number, and the data area the last 65520 of them. This holds
from the first `rpi5_sw_log_init` on, which finds no magic word and clears the header. A
later boot finds the magic word and goes on with the ring it finds. Both trace a message
when the log is enabled, which is put into the ring like any other string.

The writer in memory is the writer of `Native.SwLog` on the view of the region, so that
the header and the data come from `RingInv`.

## Key results

- `TailInv`: the region stands for a trace, whose stream is what has been passed to
  `plat_trace_ext_puts`
- `secure_returns`: a call of `plat_trace_ext_puts` returns
- `putBytes`: what one writer leaves, from any region
- `logRing_holdsTail`: header and data after every run
- `second_init_moves`: a second initialisation moves `write_pos` by its message
-/

namespace OpteeRpi5.Spec

open OpteeRpi5.Native

/-! ## A region that nobody else writes -/

/-- The bytes of a string, up to its NUL. -/
def cstr (str : List UInt8) : List UInt8 := str.takeWhile (· ≠ 0)

/-- The message of a successful initialisation, empty if it is not traced. -/
def initMsg (env : TraceEnv) (va : Nat) : List UInt8 :=
  (swLogReady env ⟨rpi5SwLogPaddr, va, rpi5SwLogSize⟩).getD []

/-- What can happen next: a call of `plat_trace_ext_puts`, a step of the secure world, or
    `rpi5_sw_log_init` with the statics `st` of a later boot, up to the call that puts its
    message. -/
inductive QuietAct where
  | puts (str : List UInt8)
  | secure
  | init (env : TraceEnv) (st : SwLogStatics) (va : Nat)

/-- The bytes that are passed to `plat_trace_ext_puts`. -/
def QuietAct.bytes : QuietAct → List UInt8
  | .puts str => cstr str
  | .secure => []
  | .init env _ va => cstr (initMsg env va)

/-- A step. A later boot starts between two strings, and `phys_to_virt` succeeds. -/
def quietStep (s : LogRegion) : QuietAct → Option LogRegion
  | .puts str => s.step (.puts str)
  | .secure => s.step .secure
  | .init env st va =>
    if s.writer.pc = .idle ∧ s.rest = [] ∧ va ≠ 0 then some (LogRegion.ready env st va s.mem)
    else none

/-- The header and the data area after the bytes have been put. -/
structure HoldsTail (bytes : List UInt8) (mem : Buf) : Prop where
  writePos : (mem.le32 hdrWritePos).toNat = bytes.length % 65520
  generation : (mem.le32 hdrGeneration).toNat = bytes.length / 65520 % 2 ^ 32
  data : ∀ k (hk : k < bytes.length), bytes.length - min bytes.length 65520 ≤ k →
    mem (16 + k % 65520) = bytes[k]

/-! ## Initialisation -/

section Ready

variable (env : TraceEnv) (st : SwLogStatics) {va : Nat} (mem : Buf)

/-- With the magic word in place the region stays as it is until the message is put. -/
theorem ready_of_magic {mem : Buf} (h : mem.le32 hdrMagic = rpi5SwLogMagic) (va : Nat) :
    (LogRegion.ready env st va mem).mem = mem := by
  simp only [LogRegion.ready, LogRegion.swLogInit, rpi5SwLogInit]
  split
  · rfl
  · rw [if_neg (fun hne => hne h)]
    rfl

/-- Without the magic word the header is set up. -/
theorem ready_of_no_magic {mem : Buf} (h : mem.le32 hdrMagic ≠ rpi5SwLogMagic) (hva : va ≠ 0) :
    (LogRegion.ready env st va mem).mem =
      (((mem.putLe32 0 rpi5SwLogMagic).putLe32 4 0).putLe32 8 0).putLe32 12 0 := by
  simp only [LogRegion.ready, LogRegion.swLogInit, rpi5SwLogInit, if_neg hva, if_pos h]
  rfl

/-- The log is enabled. -/
theorem ready_enabled (hva : va ≠ 0) :
    (LogRegion.ready env st va mem).statics.disabled = false := by
  have hsize : rpi5SwLogSize ≠ 0 := by decide
  simp only [LogRegion.ready, LogRegion.swLogInit, rpi5SwLogInit, if_neg hva]
  simp [SwLogStatics.disabled, hva, hsize]

/-- The message of the initialisation is still to be put. -/
theorem ready_rest (hva : va ≠ 0) :
    (LogRegion.ready env st va mem).rest = initMsg env va := by
  simp only [LogRegion.ready, LogRegion.swLogInit, rpi5SwLogInit, if_neg hva, initMsg]

/-- The initialisation succeeds if the region can be mapped. -/
theorem rpi5SwLogInit_true (hva : va ≠ 0) : (rpi5SwLogInit env st va mem).1 = true := by
  simp [rpi5SwLogInit, hva]

end Ready

/-! ## The invariant -/

/-- The byte of a put that has not been stored yet. -/
def inFlight (w : LogWriter) : List UInt8 :=
  match w.pc with
  | .readPos | .readGen | .writeData => [w.ch]
  | .idle | .writeGen | .writePos => []

/-- The region stands for the trace `t` of a ring that was empty at the start, and `sent`
    has been passed to `plat_trace_ext_puts`. -/
structure TailInv (sent : List UInt8) (s : LogRegion) (t : LogTrace) : Prop where
  region : RegionInv s
  enabled : s.statics.disabled = false
  magic : s.mem.le32 hdrMagic = rpi5SwLogMagic
  ring : RingInv freshRing t
  area : t.sys.area = logArea s.mem
  writer : t.sys.writer = s.writer
  stream : t.stream ++ inFlight s.writer ++ cstr s.rest = sent

/-- The region that `rpi5_sw_log_init` leaves when the magic was absent, with a string that
    is still to be put. -/
theorem TailInv.cleared {mem : Buf} (h : mem.le32 hdrMagic ≠ rpi5SwLogMagic) (env : TraceEnv)
    (st : SwLogStatics) {va : Nat} (hva : va ≠ 0) (str : List UInt8) :
    ∃ t, TailInv (cstr str) { LogRegion.ready env st va mem with rest := str } t := by
  obtain ⟨hmagic, hpos, hgen⟩ := Buf.le32_header mem rpi5SwLogMagic 0 0
  have hmem := ready_of_no_magic env st h hva
  -- the fourth store is to the word behind the three
  have hword : ∀ off, off + 4 ≤ 12 → (LogRegion.ready env st va mem).mem.le32 off =
      (((mem.putLe32 0 rpi5SwLogMagic).putLe32 4 0).putLe32 8 0).le32 off := by
    intro off hoff
    rw [hmem]
    exact Buf.le32_putLe32_outside _ 0 (.inl hoff)
  have hregion := RegionInv.ready (rpi5SwLogInit_true env st mem hva)
  refine ⟨⟨⟨logArea (LogRegion.ready env st va mem).mem, ⟨.idle, 0, 0, 0⟩,
    ⟨.idle, 0, 0, 0, 0, []⟩⟩, [], 0, 0, 0⟩, ?_⟩
  exact
    { region := ⟨hregion.size, hregion.slot, hregion.safe⟩
      enabled := ready_enabled env st mem hva
      magic := (hword hdrMagic (by decide)).trans hmagic
      ring :=
        { writePos := (hword hdrWritePos (by decide)).trans (hpos.trans freshRing.wpos_zero.symm)
          generation := (hword hdrGeneration (by decide)).trans (hgen.trans freshRing.lap_zero.symm)
          writer := ⟨rfl, rfl⟩
          data := fun k hk => absurd hk (Nat.not_lt_zero k) }
      area := rfl
      writer := rfl
      stream := rfl }

/-- The same with the message of the initialisation. -/
theorem TailInv.init {mem : Buf} (h : mem.le32 hdrMagic ≠ rpi5SwLogMagic) (env : TraceEnv)
    (st : SwLogStatics) {va : Nat} (hva : va ≠ 0) :
    ∃ t, TailInv (cstr (initMsg env va)) (LogRegion.ready env st va mem) t := by
  have hcleared := TailInv.cleared h env st hva (initMsg env va)
  rwa [← ready_rest env st mem hva] at hcleared ⊢

/-- A later boot, with its message still to be put. -/
theorem TailInv.reinit {sent : List UInt8} {s : LogRegion} {t : LogTrace} (h : TailInv sent s t)
    (hidle : s.writer.pc = .idle) (hrest : s.rest = []) (env : TraceEnv) (st : SwLogStatics)
    {va : Nat} (hva : va ≠ 0) :
    ∃ t', TailInv (sent ++ cstr (initMsg env va)) (LogRegion.ready env st va s.mem) t' := by
  have hmem := ready_of_magic env st h.magic va
  have hw := h.ring.writer
  have hstream := h.stream
  simp only [h.writer, WriterAt, hidle] at hw
  simp only [inFlight, hidle, hrest, List.append_nil, cstr, List.takeWhile_nil] at hstream
  -- the locals of the last put are gone
  refine ⟨{ t with sys := { t.sys with writer := ⟨.idle, 0, 0, 0⟩ } }, ?_⟩
  exact
    { region := RegionInv.ready (rpi5SwLogInit_true env st s.mem hva)
      enabled := ready_enabled env st s.mem hva
      magic := by
        rw [hmem]
        exact h.magic
      ring := ⟨⟨h.ring.writePos, h.ring.generation, hw⟩, h.ring.data⟩
      area := by
        rw [hmem]
        exact h.area
      writer := rfl
      stream := by
        show t.stream ++ [] ++ cstr (LogRegion.ready env st va s.mem).rest = _
        rw [List.append_nil, hstream, ready_rest env st s.mem hva] }

/-- A put that has begun can take its next step, and its byte is in flight or in the stream. -/
theorem LogTrace.exists_writer_step {t : LogTrace} (dataSize : UInt32)
    (hbusy : t.sys.writer.pc ≠ .idle) : ∃ t', t.step dataSize .writer = some t' ∧
    (t'.sys.area, t'.sys.writer) = putcStep dataSize t.sys.area t.sys.writer ∧
    t'.stream ++ inFlight t'.sys.writer = t.stream ++ inFlight t.sys.writer := by
  cases hpc : t.sys.writer.pc with
  | idle => exact absurd hpc hbusy
  | readPos | readGen | writeGen | writePos =>
    simp [LogTrace.step, SwLog.step, putcStep, inFlight, hpc]
  | writeData => simp [LogTrace.step, SwLog.step, putcStep, inFlight, hpc]

/-- The next access of a put. -/
theorem TailInv.access {sent : List UInt8} {s s' : LogRegion} {t : LogTrace} (h : TailInv sent s t)
    (hbusy : s.writer.pc ≠ .idle) (hs : s.step .secure = some s') : ∃ t', TailInv sent s' t' := by
  have hsim := h.region.simulates hbusy hs
  have hregion := h.region.step hs
  have hsize := h.region.dataSize_eq
  rw [LogRegion.step, LogRegion.secureStep, if_neg hbusy] at hs
  cases hs
  obtain ⟨t', hstep, hput, hstream⟩ :=
    LogTrace.exists_writer_step freshRing.dataSize (t := t) (by rw [h.writer]; exact hbusy)
  rw [h.area, h.writer, ← show s.statics.dataSize = freshRing.dataSize from hsize, hsim,
    Prod.mk.injEq] at hput
  refine ⟨t', hregion, h.enabled, ?_, h.ring.step hstep, hput.1, hput.2, ?_⟩
  · rw [← h.magic]
    exact magic_putcMem s.mem s.writer (fun hpc => h.region.slot (.inl hpc)) (by rw [hsize]; decide)
  · rw [hput.2, h.writer] at hstream
    exact (congrArg (· ++ cstr s.rest) hstream).trans h.stream

/-- The next round of the loop of `plat_trace_ext_puts`. -/
theorem TailInv.round {sent : List UInt8} {s s' : LogRegion} {t : LogTrace} (h : TailInv sent s t)
    (hidle : s.writer.pc = .idle) (hs : s.step .secure = some s') : ∃ t', TailInv sent s' t' := by
  have hregion := h.region.step hs
  have hstream := h.stream
  rw [LogRegion.step, LogRegion.secureStep, if_pos hidle] at hs
  cases hrest : s.rest with
  | nil =>
    rw [hrest] at hs
    cases hs
  | cons ch rest =>
    simp only [hrest, h.enabled, Bool.false_eq_true, if_false] at hs
    simp only [inFlight, hidle, hrest, cstr, List.append_nil, List.takeWhile_cons] at hstream
    by_cases hzero : ch = 0
    · -- the NUL ends the string
      rw [if_pos hzero] at hs
      cases hs
      refine ⟨t, hregion, h.enabled, h.magic, h.ring, h.area, h.writer, ?_⟩
      simpa [inFlight, hidle, cstr, hzero] using hstream
    · rw [if_neg hzero] at hs
      cases hs
      have hput : t.step freshRing.dataSize (.put ch) = some { t with sys := { t.sys with
          writer := { t.sys.writer with ch := ch, pc := .readPos } } } := by
        simp [LogTrace.step, SwLog.step, h.writer, hidle]
      refine ⟨_, hregion, h.enabled, h.magic, h.ring.step hput, h.area, ?_, ?_⟩
      · simp only [h.writer]
      · simpa [inFlight, cstr, hzero] using hstream

/-- Every step keeps the invariant, with the bytes of the strings that are passed. -/
theorem TailInv.step {sent : List UInt8} {s s' : LogRegion} {t : LogTrace} {a : QuietAct}
    (h : TailInv sent s t) (hs : quietStep s a = some s') :
    ∃ t', TailInv (sent ++ a.bytes) s' t' := by
  cases a with
  | puts str =>
    have hregion := h.region.step (show s.step (.puts str) = some s' from hs)
    obtain ⟨⟨hidle, hrest⟩, ⟨⟩⟩ := Option.ite_none_right_eq_some.mp hs
    refine ⟨t, hregion, h.enabled, h.magic, h.ring, h.area, h.writer, ?_⟩
    rw [← h.stream]
    simp [inFlight, hidle, hrest, cstr, QuietAct.bytes]
  | secure =>
    rw [QuietAct.bytes, List.append_nil]
    by_cases hidle : s.writer.pc = .idle
    · exact h.round hidle hs
    · exact h.access hidle hs
  | init env st va =>
    obtain ⟨⟨hidle, hrest, hva⟩, ⟨⟩⟩ := Option.ite_none_right_eq_some.mp hs
    exact h.reinit hidle hrest env st hva

/-- Every run keeps the invariant. -/
theorem TailInv.exec {sent : List UInt8} {s s' : LogRegion} {t : LogTrace} {acts : List QuietAct}
    (h : TailInv sent s t) (hs : Run.exec quietStep s acts = some s') :
    ∃ t', TailInv (sent ++ acts.flatMap QuietAct.bytes) s' t' := by
  induction acts generalizing sent s t with
  | nil =>
    cases hs
    exact ⟨t, by simpa using h⟩
  | cons a acts ih =>
    rw [Run.exec, Option.bind_eq_some_iff] at hs
    obtain ⟨s₁, hstep, hrest⟩ := hs
    obtain ⟨t₁, h₁⟩ := h.step hstep
    rw [List.flatMap_cons, ← List.append_assoc]
    exact ih h₁ hrest

/-- Between two puts the ring holds the tail of the bytes that have been put. -/
theorem TailInv.holdsTail {sent : List UInt8} {s : LogRegion} {t : LogTrace} (h : TailInv sent s t)
    (hidle : s.writer.pc = .idle) : HoldsTail t.stream s.mem := by
  have hw := h.ring.writer
  simp only [h.writer, WriterAt, hidle] at hw
  obtain ⟨hcompleted, hgens⟩ := hw
  -- a fresh ring starts at position 0
  have hslot : ∀ k, freshRing.slot k = k % 65520 := by
    intro k
    rw [LogStart.slot, show freshRing.pos.toNat = 0 from rfl, Nat.zero_add]
    rfl
  constructor
  · have hwp : s.mem.le32 hdrWritePos = freshRing.wpos t.completed := by
      rw [← h.ring.writePos, h.area]
      rfl
    rw [hwp, freshRing.wpos_toNat, hslot, hcompleted]
  · have hgen : s.mem.le32 hdrGeneration = freshRing.lap t.gens := by
      rw [← h.ring.generation, h.area]
      rfl
    rw [hgen, LogStart.lap, show freshRing.pos.toNat = 0 from rfl, Nat.zero_add, hgens, hcompleted]
    simp [freshRing, LogStart.d]
  · intro k hk hle
    have hbyte := h.ring.data k hk (show t.stream.length ≤ k + 65520 by omega)
    rw [hslot, h.area, List.getD_eq_getElem _ _ hk] at hbyte
    exact hbyte

/-! ## Calls return -/

/-- The accesses that are left of a put. -/
def accessesLeft (w : LogWriter) : Nat :=
  match w.pc with
  | .idle => 0
  | .readPos => 5
  | .readGen => 4
  | .writeData => 3
  | .writeGen => 2
  | .writePos => 1

/-- A writer with nothing left to do is idle. -/
theorem accessesLeft_eq_zero {w : LogWriter} : accessesLeft w = 0 ↔ w.pc = .idle := by
  cases hpc : w.pc <;> simp [accessesLeft, hpc]

/-- A byte takes five accesses. -/
theorem accessesLeft_le (w : LogWriter) : accessesLeft w ≤ 5 := by
  cases hpc : w.pc <;> simp [accessesLeft, hpc]

/-- Every access brings a put nearer to its end. -/
theorem accessesLeft_putcStep {w : LogWriter} (hbusy : w.pc ≠ .idle) (dataSize : UInt32)
    (a : LogArea) : accessesLeft (putcStep dataSize a w).2 < accessesLeft w := by
  cases hpc : w.pc with
  | idle => exact absurd hpc hbusy
  | readPos | readGen | writeData | writeGen | writePos => simp [putcStep, accessesLeft, hpc]

/-- The steps that are left of a call of `plat_trace_ext_puts`, at most. -/
def secureLeft (s : LogRegion) : Nat :=
  6 * s.rest.length + accessesLeft s.writer

/-- A call that has not come to its end can take its next step. -/
theorem exists_secureStep {s : LogRegion} (hbusy : ¬ (s.writer.pc = .idle ∧ s.rest = [])) :
    ∃ s', s.secureStep = some s' ∧ secureLeft s' < secureLeft s := by
  by_cases hpc : s.writer.pc = .idle
  · cases hrest : s.rest with
    | nil => exact absurd ⟨hpc, hrest⟩ hbusy
    | cons ch rest =>
      simp only [LogRegion.secureStep, hpc, hrest, if_true]
      -- the terminator ends the call; a disabled log drops the byte
      split
      · exact ⟨_, rfl, by simp [secureLeft, hrest]⟩
      · split
        · exact ⟨_, rfl, by simp [secureLeft, hrest]⟩
        · refine ⟨_, rfl, ?_⟩
          simp only [secureLeft, accessesLeft, hpc, hrest, List.length_cons]
          omega
  · have hleft := accessesLeft_putcStep hpc s.statics.dataSize (logArea s.mem)
    refine ⟨_, if_neg hpc, ?_⟩
    simp only [secureLeft]
    omega

/-- From every state the secure world comes to the end of the string. -/
theorem secure_returns (s : LogRegion) : ∃ n s',
    Run.exec quietStep s (List.replicate n .secure) = some s' ∧ s'.writer.pc = .idle ∧
    s'.rest = [] := by
  induction hleft : secureLeft s using Nat.strong_induction_on generalizing s with
  | _ left ih =>
    by_cases hdone : s.writer.pc = .idle ∧ s.rest = []
    · exact ⟨0, s, rfl, hdone⟩
    · obtain ⟨s₁, hstep, hlt⟩ := exists_secureStep hdone
      obtain ⟨n, s', hrun, hend⟩ := ih (secureLeft s₁) (hleft ▸ hlt) s₁ rfl
      refine ⟨n + 1, s', ?_, hend⟩
      rw [List.replicate_succ, Run.exec, show quietStep s .secure = some s₁ from hstep]
      exact hrun

/-- The secure world puts no bytes by itself. -/
theorem flatMap_bytes_replicate (n : Nat) :
    (List.replicate n QuietAct.secure).flatMap QuietAct.bytes = [] := by
  simp [QuietAct.bytes]

/-- What a call that begins with the action `a` leaves once it has returned. -/
theorem TailInv.call {sent : List UInt8} {s s₁ : LogRegion} {t : LogTrace} {a : QuietAct}
    (h : TailInv sent s t) (hs : quietStep s a = some s₁) : ∃ n s' t',
    Run.exec quietStep s (a :: List.replicate n .secure) = some s' ∧ s'.writer.pc = .idle ∧
    s'.rest = [] ∧ TailInv (sent ++ a.bytes) s' t' := by
  obtain ⟨t₁, h₁⟩ := h.step hs
  obtain ⟨n, s', hrun, hidle, hrest⟩ := secure_returns s₁
  obtain ⟨t', h'⟩ := h₁.exec hrun
  rw [flatMap_bytes_replicate, List.append_nil] at h'
  exact ⟨n, s', t', by rw [Run.exec, hs]; exact hrun, hidle, hrest, h'⟩

/-- Between two calls everything that has been passed has been put. -/
theorem TailInv.holdsTail_sent {sent : List UInt8} {s : LogRegion} {t : LogTrace}
    (h : TailInv sent s t) (hidle : s.writer.pc = .idle) (hrest : s.rest = []) :
    HoldsTail sent s.mem := by
  have hstream := h.stream
  simp only [inFlight, hidle, hrest, List.append_nil, cstr, List.takeWhile_nil] at hstream
  exact hstream ▸ h.holdsTail hidle

/-! ## One writer -/

/-- An access of `sw_log_putc`. -/
def access (dataSize : UInt32) (p : Buf × LogWriter) : Buf × LogWriter :=
  (putcMem p.1 p.2, (putcStep dataSize (logArea p.1) p.2).2)

/-- The region when the put in progress, if there is one, is over. -/
def finishPut (dataSize : UInt32) (mem : Buf) (w : LogWriter) : Buf :=
  ((access dataSize)^[5] (mem, w)).1

/-- The region after a call of `sw_log_putc`. -/
def putByte (st : SwLogStatics) (mem : Buf) (ch : UInt8) : Buf :=
  if st.disabled then mem else finishPut st.dataSize mem ⟨.readPos, ch, 0, 0⟩

/-- The region after one writer has put the bytes. -/
def putBytes (st : SwLogStatics) (mem : Buf) (bytes : List UInt8) : Buf :=
  bytes.foldl (putByte st) mem

section Writer

variable {dataSize : UInt32} {mem : Buf} {w : LogWriter}

theorem putBytes_append (st : SwLogStatics) (mem : Buf) (bytes more : List UInt8) :
    putBytes st mem (bytes ++ more) = putBytes st (putBytes st mem bytes) more :=
  List.foldl_append

theorem access_idle (hidle : w.pc = .idle) : access dataSize (mem, w) = (mem, w) := by
  simp [access, putcMem, putcStore, putcStep, hidle]

theorem finishPut_idle (hidle : w.pc = .idle) : finishPut dataSize mem w = mem :=
  congrArg Prod.fst (Function.iterate_fixed (access_idle hidle) 5)

/-- A put is over after the accesses that are left of it. -/
theorem iterate_access_idle {n : Nat} (h : accessesLeft w ≤ n) :
    ((access dataSize)^[n] (mem, w)).2.pc = .idle := by
  induction n generalizing mem w with
  | zero => exact accessesLeft_eq_zero.mp (Nat.le_zero.mp h)
  | succ n ih =>
    rw [Function.iterate_succ_apply]
    by_cases hidle : w.pc = .idle
    · rw [access_idle hidle]
      exact ih (by rw [accessesLeft_eq_zero.mpr hidle]; exact Nat.zero_le n)
    · have hless := accessesLeft_putcStep hidle dataSize (logArea mem)
      exact ih (Nat.le_of_lt_succ (hless.trans_le h))

/-- An access does not change what the put comes to. -/
theorem finishPut_access (mem : Buf) (w : LogWriter) :
    finishPut dataSize (putcMem mem w) (putcStep dataSize (logArea mem) w).2 =
      finishPut dataSize mem w := by
  have hidle : ((access dataSize)^[5] (mem, w)).2.pc = .idle :=
    iterate_access_idle (accessesLeft_le w)
  have hlast : (access dataSize)^[5] (access dataSize (mem, w)) =
      (access dataSize)^[5] (mem, w) := by
    rw [← Function.iterate_succ_apply, Function.iterate_succ_apply']
    exact access_idle hidle
  exact congrArg Prod.fst hlast

/-- What the locals hold before a put does not matter. -/
theorem finishPut_readPos (mem : Buf) (ch : UInt8) (pos gen pos' gen' : UInt32) :
    finishPut dataSize mem ⟨.readPos, ch, pos, gen⟩ =
      finishPut dataSize mem ⟨.readPos, ch, pos', gen'⟩ := by
  -- both are read from the header first
  have htwo : (access dataSize)^[2] (mem, ⟨.readPos, ch, pos, gen⟩) =
      (access dataSize)^[2] (mem, ⟨.readPos, ch, pos', gen'⟩) := rfl
  have hrest := congrArg (access dataSize)^[3] htwo
  rw [← Function.iterate_add_apply, ← Function.iterate_add_apply] at hrest
  exact congrArg Prod.fst hrest

end Writer

/-- The region when the call in progress has returned. -/
def finishCall (s : LogRegion) : Buf :=
  putBytes s.statics (finishPut s.statics.dataSize s.mem s.writer) (cstr s.rest)

/-- Between two bytes, the rest of the message is left. -/
theorem finishCall_of_idle {s : LogRegion} (hidle : s.writer.pc = .idle) :
    finishCall s = putBytes s.statics s.mem (cstr s.rest) := by
  rw [finishCall, finishPut_idle hidle]

/-- A step of the secure world does not change what the call comes to. -/
theorem finishCall_secureStep {s s' : LogRegion} (hs : s.secureStep = some s') :
    finishCall s' = finishCall s ∧ s'.statics = s.statics := by
  by_cases hidle : s.writer.pc = .idle
  · rw [finishCall_of_idle hidle]
    simp only [LogRegion.secureStep, if_pos hidle] at hs
    cases hrest : s.rest with
    | nil => simp [hrest] at hs
    | cons ch rest =>
      simp only [hrest] at hs
      by_cases hch : ch = 0
      · -- the NUL ends the string
        rw [if_pos hch] at hs
        cases hs
        exact ⟨by simp [finishCall_of_idle, hidle, cstr, hch], rfl⟩
      · have hcstr : cstr (ch :: rest) = ch :: cstr rest := by simp [cstr, hch]
        rw [if_neg hch] at hs
        rw [hcstr, putBytes, List.foldl_cons, ← putBytes]
        cases hdis : s.statics.disabled with
        | true =>
          rw [hdis, if_pos rfl] at hs
          cases hs
          exact ⟨by simp [finishCall_of_idle, hidle, putByte, hdis], rfl⟩
        | false =>
          rw [hdis, if_neg Bool.false_ne_true] at hs
          cases hs
          refine ⟨?_, rfl⟩
          simp only [finishCall, putByte, hdis, Bool.false_eq_true, if_false]
          rw [finishPut_readPos s.mem ch s.writer.pos s.writer.gen 0 0]
  · rw [LogRegion.secureStep, if_neg hidle] at hs
    cases hs
    simp only [finishCall, finishPut_access, and_self]

/-- A run of steps does not either. -/
theorem finishCall_secure {n : Nat} {s s' : LogRegion}
    (hs : Run.exec quietStep s (List.replicate n .secure) = some s') :
    finishCall s' = finishCall s ∧ s'.statics = s.statics := by
  induction n generalizing s with
  | zero =>
    cases hs
    exact ⟨rfl, rfl⟩
  | succ n ih =>
    obtain ⟨s₁, hstep, hrest⟩ := Option.bind_eq_some_iff.mp hs
    obtain ⟨h₁, hst₁⟩ := finishCall_secureStep (show s.secureStep = some s₁ from hstep)
    obtain ⟨h', hst'⟩ := ih hrest
    exact ⟨h'.trans h₁, hst'.trans hst₁⟩

/-- One writer who puts a string after the first initialisation leaves its tail. -/
theorem holdsTail_putBytes {mem : Buf} (h : mem.le32 hdrMagic ≠ rpi5SwLogMagic)
    (env : TraceEnv) (st : SwLogStatics) {va : Nat} (hva : va ≠ 0) (str : List UInt8) :
    HoldsTail (cstr str) (putBytes (LogRegion.ready env st va mem).statics
      (LogRegion.ready env st va mem).mem (cstr str)) := by
  obtain ⟨t, hinv⟩ := TailInv.cleared h env st hva str
  obtain ⟨n, s, hrun, hidle, hrest⟩ := secure_returns _
  obtain ⟨t', hinv'⟩ := hinv.exec hrun
  rw [flatMap_bytes_replicate, List.append_nil] at hinv'
  -- the run leaves what the call comes to
  have hfinish := (finishCall_secure hrun).1
  rw [finishCall_of_idle hidle, finishCall_of_idle rfl, hrest] at hfinish
  exact hfinish ▸ hinv'.holdsTail_sent hidle hrest

/-! ## Runs -/

/-- After the first initialisation and every run of strings and later boots: between two
    puts the region holds the tail of the bytes that have been put, which are those of the
    strings, the messages of the initialisations among them, without what is left of the
    last one. Between two strings another one can be put, and a later boot can initialise
    the log again; that adds the bytes of the string or of the message, and changes nothing
    else. -/
theorem logRing_holdsTail (env : TraceEnv) (st : SwLogStatics) (va : Nat) (mem : Buf)
    (acts : List QuietAct) (s : LogRegion) (hva : va ≠ 0)
    (hmagic : mem.le32 hdrMagic ≠ rpi5SwLogMagic)
    (hrun : Run.exec quietStep (LogRegion.ready env st va mem) acts = some s)
    (hidle : s.writer.pc = .idle) : ∃ bytes,
    bytes ++ cstr s.rest = cstr (initMsg env va) ++ acts.flatMap QuietAct.bytes ∧
    HoldsTail bytes s.mem ∧
    (s.rest = [] → ∀ str, ∃ n s',
      Run.exec quietStep s (.puts str :: List.replicate n .secure) = some s' ∧
      s'.writer.pc = .idle ∧ s'.rest = [] ∧ HoldsTail (bytes ++ cstr str) s'.mem) ∧
    (s.rest = [] → ∀ env' st' va', va' ≠ 0 →
      (LogRegion.ready env' st' va' s.mem).mem = s.mem ∧ ∃ n s',
      Run.exec quietStep s (.init env' st' va' :: List.replicate n .secure) = some s' ∧
      s'.writer.pc = .idle ∧ s'.rest = [] ∧
      HoldsTail (bytes ++ cstr (initMsg env' va')) s'.mem) := by
  obtain ⟨t₀, h₀⟩ := TailInv.init hmagic env st hva
  obtain ⟨t, h⟩ := h₀.exec hrun
  have hstream : t.stream ++ cstr s.rest =
      cstr (initMsg env va) ++ acts.flatMap QuietAct.bytes := by
    simpa [inFlight, hidle] using h.stream
  -- the stream of the ghost trace is what was put so far
  refine ⟨t.stream, hstream, h.holdsTail hidle, ?_, ?_⟩
  · intro hrest str
    rw [hrest, cstr, List.takeWhile_nil, List.append_nil] at hstream
    obtain ⟨n, s', t', hexec, hidle', hrest', h'⟩ :=
      h.call (a := .puts str) (if_pos ⟨hidle, hrest⟩)
    rw [← hstream] at h'
    exact ⟨n, s', hexec, hidle', hrest', h'.holdsTail_sent hidle' hrest'⟩
  · intro hrest env' st' va' hva'
    rw [hrest, cstr, List.takeWhile_nil, List.append_nil] at hstream
    obtain ⟨n, s', t', hexec, hidle', hrest', h'⟩ :=
      h.call (a := .init env' st' va') (if_pos ⟨hidle, hrest, hva'⟩)
    rw [← hstream] at h'
    exact ⟨ready_of_magic env' st' h.magic va', n, s', hexec, hidle', hrest',
      h'.holdsTail_sent hidle' hrest'⟩

/-- The default log level, and the default place of messages of that level. -/
def infoTrace : TraceEnv where
  level := traceInfo
  lead := fun _ => textBytes "I/TC: "

/-- The first boot on a cleared region, two bytes, and a second boot. -/
theorem logRing_holdsTail_twoBytes : ∃ acts s n s',
    Run.exec quietStep (LogRegion.ready infoTrace SwLogStatics.zero 0x10000000 (fun _ => 0)) acts =
      some s ∧
    HoldsTail (initMsg infoTrace 0x10000000 ++ [0x41, 0x42]) s.mem ∧
    Run.exec quietStep s
        (.init infoTrace SwLogStatics.zero 0x10000000 :: List.replicate n .secure) =
      some s' ∧
    HoldsTail (initMsg infoTrace 0x10000000 ++ [0x41, 0x42] ++ initMsg infoTrace 0x10000000)
      s'.mem := by
  have hcstr : cstr (initMsg infoTrace 0x10000000) = initMsg infoTrace 0x10000000 := by decide
  have hmagic : Buf.le32 (fun _ => 0) hdrMagic ≠ rpi5SwLogMagic := by decide
  -- the message of the first boot, and the two bytes after it
  obtain ⟨n₀, s₀, hrun₀, hidle₀, hrest₀⟩ :=
    secure_returns (LogRegion.ready infoTrace SwLogStatics.zero 0x10000000 (fun _ => 0))
  obtain ⟨n₁, s, hrun₁, hidle, hrest⟩ := secure_returns { s₀ with rest := [0x41, 0x42] }
  have hputs : quietStep s₀ (.puts [0x41, 0x42]) = some { s₀ with rest := [0x41, 0x42] } :=
    if_pos ⟨hidle₀, hrest₀⟩
  have hrun : Run.exec quietStep
      (LogRegion.ready infoTrace SwLogStatics.zero 0x10000000 (fun _ => 0))
      (List.replicate n₀ .secure ++ .puts [0x41, 0x42] :: List.replicate n₁ .secure) = some s := by
    simp only [Run.exec_append, hrun₀, Option.bind_some, Run.exec, hputs]
    exact hrun₁
  obtain ⟨bytes, hbytes, htail, -, hagain⟩ :=
    logRing_holdsTail _ _ _ _ _ s (by decide) hmagic hrun hidle
  have heq : bytes = initMsg infoTrace 0x10000000 ++ [0x41, 0x42] := by
    rw [hrest, List.flatMap_append, List.flatMap_cons, flatMap_bytes_replicate,
      flatMap_bytes_replicate, hcstr] at hbytes
    simpa [cstr, QuietAct.bytes] using hbytes
  obtain ⟨-, n, s', hexec, -, -, htail'⟩ :=
    hagain hrest infoTrace SwLogStatics.zero 0x10000000 (by decide)
  rw [heq] at htail
  rw [heq, hcstr] at htail'
  exact ⟨_, s, n, s', hrun, htail, hexec, htail'⟩

/-- On a cleared region and at the default log level `write_pos` is not at the start when
    the first initialisation returns, and a second one moves it further. -/
theorem second_init_moves : ∃ n s n' s',
    Run.exec quietStep (LogRegion.ready infoTrace SwLogStatics.zero 0x10000000 (fun _ => 0))
      (List.replicate n .secure) = some s ∧
    s.writer.pc = .idle ∧ s.rest = [] ∧ (s.mem.le32 hdrWritePos).toNat = 68 ∧
    Run.exec quietStep s
      (.init infoTrace SwLogStatics.zero 0x10000000 :: List.replicate n' .secure) = some s' ∧
    s'.writer.pc = .idle ∧ s'.rest = [] ∧ (s'.mem.le32 hdrWritePos).toNat = 136 := by
  have hcstr : cstr (initMsg infoTrace 0x10000000) = initMsg infoTrace 0x10000000 := by decide
  have hlen : (initMsg infoTrace 0x10000000).length = 68 := by decide
  have hmagic : Buf.le32 (fun _ => 0) hdrMagic ≠ rpi5SwLogMagic := by decide
  obtain ⟨t, h⟩ := TailInv.init hmagic infoTrace SwLogStatics.zero
    (show 0x10000000 ≠ 0 by decide)
  obtain ⟨n, s, hrun, hidle, hrest⟩ := secure_returns _
  obtain ⟨t₁, h₁⟩ := h.exec hrun
  rw [flatMap_bytes_replicate, List.append_nil] at h₁
  obtain ⟨n', s', t', hrun', hidle', hrest', h'⟩ :=
    h₁.call (a := .init infoTrace SwLogStatics.zero 0x10000000)
      (if_pos ⟨hidle, hrest, by decide⟩)
  -- the message of each boot is 68 bytes long
  have hpos := (h₁.holdsTail_sent hidle hrest).writePos
  have hpos' := (h'.holdsTail_sent hidle' hrest').writePos
  rw [hcstr, hlen] at hpos
  rw [QuietAct.bytes, List.length_append, hcstr, hlen] at hpos'
  exact ⟨n, s, n', s', hrun, hidle, hrest, hpos, hrun', hidle', hrest', hpos'⟩

end OpteeRpi5.Spec
