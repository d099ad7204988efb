import Mathlib.Logic.Function.Iterate
import OpteeRpi5.Native.SwLogRegion

/-!
# The log tool and the ring it did not make

`tools/optee-sw-log.c` maps `SIZE` bytes, from its `-s` option, and takes what it finds
there for the header of a ring of that size. The writer of `plat-rpi5/sw_log.c` goes on
with its own ring. The accesses of both sides are those of the log; here the two sizes
may differ, and the indices of `data[]` that the tool reads are recorded.
-/

namespace OpteeRpi5.Native

/-- `RPI5_SW_LOG_SIZE_DEFAULT`. -/
def rpi5SwLogSizeDefault : UInt64 := 0x00010000

/-- `data_size = size - RPI5_SW_LOG_HDR_SIZE`, a `size_t` that is stored in a `uint32_t`. -/
def toolDataSize (size : UInt64) : UInt32 := (size - 16).toUInt32

/-- The data size of the ring of `sw_log.c`. -/
def ringDataSize : UInt32 := rpi5SwLogSize - rpi5SwLogHdrSize

/-! ## Tool and writer together -/

/-- The log, and the indices of `data[]` that `drain_new` has read. -/
structure LogTool extends SwLog where
  reads : List Nat

namespace LogTool

/-- `map_log` is about to read `write_pos`. -/
def start (a : LogArea) (w : LogWriter) : LogTool where
  area := a
  writer := w
  reader := ⟨.mapPos, 0, 0, 0, 0, []⟩
  reads := []

/-- A step: the writer with the size of its ring, the tool with the size it was given. -/
def step (size : UInt64) (s : LogTool) (a : LogAct) : Option LogTool :=
  match a with
  | .put _ | .writer =>
    (s.toSwLog.step ringDataSize a).map fun t => { s with toSwLog := t }
  | .drain => (s.toSwLog.step (toolDataSize size) a).map fun t => { s with toSwLog := t }
  | .reader =>
    (s.toSwLog.step (toolDataSize size) a).map fun t =>
      { toSwLog := t
        reads := if s.reader.pc = .emit then s.reads ++ [s.reader.readPos.toNat] else s.reads }

end LogTool

/-! ## Whole calls -/

/-- `sw_log_putc` from its first access to its last. -/
def swLogPutc (a : LogArea) (ch : UInt8) : LogArea :=
  ((fun s : LogArea × LogWriter => putcStep ringDataSize s.1 s.2)^[5] (a, ⟨.readPos, ch, 0, 0⟩)).1

/-- `main` without `-f` on a log that does not change: `map_log`, and `n` steps of
    `drain_new`. -/
def oneShot (size : UInt64) (a : LogArea) (n : Nat) : LogReader :=
  let mapped := (drainStep (toolDataSize size) a)^[2] ⟨.mapPos, 0, 0, 0, 0, []⟩
  (drainStep (toolDataSize size) a)^[n] { mapped with pc := .readWp }

end OpteeRpi5.Native
