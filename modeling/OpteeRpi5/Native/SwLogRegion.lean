import OpteeRpi5.ForStd.Buf
import OpteeRpi5.Native.SwLog

/-!
# The secure-world log in memory

The log region byte by byte, as `plat-rpi5/sw_log.c` stores to it. `logArea` is the view
of a region that the writer of `Native.SwLog` works on; here every store has an offset
and a width, and the normal world, which owns the memory, may change any byte between
two accesses of the secure world.

`sw_log_lock` and the lock of `trace_ext_puts` admit one string at a time, so there is
one writer.
-/

namespace OpteeRpi5.Native

/-! ## The region -/

/-- `RPI5_SW_LOG_PADDR`. -/
def rpi5SwLogPaddr : Nat := 0x08400000

/-- `RPI5_SW_LOG_SIZE`. -/
def rpi5SwLogSize : UInt32 := 0x00010000

/-- `RPI5_SW_LOG_MAGIC`. -/
def rpi5SwLogMagic : UInt32 := 0x4f504c47

/-- `RPI5_SW_LOG_HDR_SIZE`. -/
def rpi5SwLogHdrSize : UInt32 := 16

/-! Offsets in `struct rpi5_sw_log_hdr`. -/

def hdrMagic : Nat := 0
def hdrWritePos : Nat := 4
def hdrGeneration : Nat := 8
def hdrReserved : Nat := 12

/-- A store of the secure world at an offset of the region: `io_write8` or `io_write32`. -/
inductive RegionStore where
  | write8 (off : Nat) (v : UInt8)
  | write32 (off : Nat) (v : UInt32)
  deriving DecidableEq

/-- The first byte a store changes. -/
def RegionStore.off : RegionStore → Nat
  | write8 off _ => off
  | write32 off _ => off

/-- The number of bytes a store changes. -/
def RegionStore.width : RegionStore → Nat
  | write8 _ _ => 1
  | write32 _ _ => 4

/-- The region after a store. -/
def RegionStore.apply (mem : Buf) : RegionStore → Buf
  | write8 off v => fun i => if i = off then v else mem i
  | write32 off v => mem.putLe32 off v

/-! ## Messages -/

/-- What a message depends on besides its text: `trace_level`, and what `trace_vprintf`
    puts before the text at each level. For information that is `I/TC: `, unless
    `CFG_MSG_LONG_PREFIX_MASK` asks for the core, the thread and the place as well. -/
structure TraceEnv where
  level : Nat
  lead : Nat → List UInt8

/-- `TRACE_ERROR`. -/
def traceError : Nat := 1

/-- `TRACE_INFO`. -/
def traceInfo : Nat := 2

/-- `MAX_PRINT_SIZE`. -/
def maxPrintSize : Nat := 256

/-- The bytes of a text. -/
def textBytes (s : String) : List UInt8 :=
  s.toList.map fun c => UInt8.ofNat c.toNat

/-- `%x`. -/
def hexBytes (n : Nat) : List UInt8 :=
  (Nat.toDigits 16 n).map fun c => UInt8.ofNat c.toNat

/-- `%u`. -/
def decBytes (n : Nat) : List UInt8 :=
  (Nat.toDigits 10 n).map fun c => UInt8.ofNat c.toNat

/-- `trace_vprintf`: the string for `trace_ext_puts`, if the level is not above
    `trace_level`. A text without newlines gets one at its end, and is cut if it does not
    fit into the buffer with it. -/
def traceVprintf (env : TraceEnv) (level : Nat) (text : List UInt8) : Option (List UInt8) :=
  if env.level < level then none
  else some ((env.lead level ++ text).take (maxPrintSize - 2) ++ [0x0a])

/-! ## `sw_log.c` -/

/-- `sw_log_pa`, `sw_log_va_base` and `sw_log_size`. -/
structure SwLogStatics where
  pa : Nat
  vaBase : Nat
  size : UInt32

/-- The statics before any hook has run. -/
def SwLogStatics.zero : SwLogStatics := ⟨0, 0, 0⟩

/-- `!sw_log_size || !sw_log_va_base`, on which `sw_log_putc` returns at once. -/
def SwLogStatics.disabled (st : SwLogStatics) : Bool :=
  st.size = 0 || st.vaBase = 0

/-- `data_size`. -/
def SwLogStatics.dataSize (st : SwLogStatics) : UInt32 :=
  st.size - rpi5SwLogHdrSize

/-- The header words and the data area of a region. -/
def logArea (mem : Buf) : LogArea where
  writePos := mem.le32 hdrWritePos
  generation := mem.le32 hdrGeneration
  data := fun i => mem (rpi5SwLogHdrSize.toNat + i)

/-- The store of the next access of `sw_log_putc`, if that is a store. -/
def putcStore (w : LogWriter) : Option RegionStore :=
  match w.pc with
  | .writeData => some (.write8 (rpi5SwLogHdrSize + w.pos).toNat w.ch)
  | .writeGen => some (.write32 hdrGeneration w.gen)
  | .writePos => some (.write32 hdrWritePos w.pos)
  | .idle | .readPos | .readGen => none

/-- The region after the next access of `sw_log_putc`. -/
def putcMem (mem : Buf) (w : LogWriter) : Buf :=
  match putcStore w with
  | some s => s.apply mem
  | none => mem

/-- The message of `rpi5_sw_log_init` when the log has been enabled. -/
def swLogReady (env : TraceEnv) (st : SwLogStatics) : Option (List UInt8) :=
  traceVprintf env traceInfo
    (textBytes "rpi5 sw_log ready at PA 0x" ++ hexBytes st.pa ++ textBytes " VA 0x" ++
      hexBytes st.vaBase ++ textBytes " (" ++ decBytes st.size.toNat ++ textBytes " bytes)")

/-- The message of `rpi5_sw_log_init` when `phys_to_virt` has failed. -/
def swLogFailed (env : TraceEnv) (st : SwLogStatics) : Option (List UInt8) :=
  traceVprintf env traceError
    (textBytes "rpi5 sw_log: phys_to_virt failed for 0x" ++ hexBytes st.pa)

/-- `rpi5_sw_log_init`, with `va` the answer of `phys_to_virt`: the statics, the stores, and
    the message that it traces before it returns. `false` is `TEE_ERROR_GENERIC`. -/
def rpi5SwLogInit (env : TraceEnv) (st : SwLogStatics) (va : Nat) (mem : Buf) :
    Bool × SwLogStatics × List RegionStore × Option (List UInt8) :=
  let st := { st with pa := rpi5SwLogPaddr }
  if va = 0 then (false, st, [], swLogFailed env st)
  else
    let st := { st with vaBase := va }
    let stores :=
      if mem.le32 hdrMagic ≠ rpi5SwLogMagic then
        [.write32 hdrMagic rpi5SwLogMagic, .write32 hdrWritePos 0, .write32 hdrGeneration 0,
          .write32 hdrReserved 0]
      else []
    let st := { st with size := rpi5SwLogSize }
    (true, st, stores, swLogReady env st)

/-! ## The log and its surroundings -/

/-- The log while it runs: the statics, the region, the part of the string that
    `plat_trace_ext_puts` has not read yet, the call of `sw_log_putc`, and the stores the
    secure world has made so far. -/
structure LogRegion where
  statics : SwLogStatics
  mem : Buf
  rest : List UInt8
  writer : LogWriter
  stores : List RegionStore

/-- What can happen next: a call of `plat_trace_ext_puts`, a step of the secure world, a
    store of the normal world to a byte of the region. -/
inductive RegionAct where
  | puts (str : List UInt8)
  | secure
  | normal (off : Nat) (v : UInt8)

/-- A step of the secure world: the next access of `sw_log_putc`, or the next round of the
    loop of `plat_trace_ext_puts`. -/
def LogRegion.secureStep (s : LogRegion) : Option LogRegion :=
  if s.writer.pc = .idle then
    match s.rest with
    | [] => none
    | ch :: rest =>
      if ch = 0 then some { s with rest := [] }
      else if s.statics.disabled then some { s with rest := rest }
      else some { s with rest := rest, writer := { s.writer with ch := ch, pc := .readPos } }
  else
    some { s with
      mem := putcMem s.mem s.writer
      writer := (putcStep s.statics.dataSize (logArea s.mem) s.writer).2
      stores := s.stores ++ (putcStore s.writer).toList }

/-- `rpi5_sw_log_init`, on the log. Its message is the string that `plat_trace_ext_puts`
    goes on with. -/
def LogRegion.swLogInit (env : TraceEnv) (va : Nat) (log : LogRegion) : LogRegion :=
  let r := rpi5SwLogInit env log.statics va log.mem
  { log with
    statics := r.2.1
    mem := r.2.2.1.foldl RegionStore.apply log.mem
    stores := log.stores ++ r.2.2.1
    rest := r.2.2.2.getD [] }

/-- A step of the log or of the normal world. -/
def LogRegion.step (s : LogRegion) : RegionAct → Option LogRegion
  | .puts str =>
    if s.writer.pc = .idle ∧ s.rest = [] then some { s with rest := str } else none
  | .secure => s.secureStep
  | .normal off v =>
    if off < s.statics.size.toNat then
      some { s with mem := fun i => if i = off then v else s.mem i }
    else none

end OpteeRpi5.Native
