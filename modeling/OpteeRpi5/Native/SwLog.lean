/-!
# The secure-world log

The ring buffer that carries the log of the secure world: `sw_log_putc` of
`plat-rpi5/sw_log.c` writes it, `map_log` and `drain_new` of `tools/optee-sw-log.c` read
it. Both sides are machines whose steps are the accesses to the shared header and data
area; what happens between two accesses belongs to the step before.

`sw_log_lock` admits one put at a time, so there is one writer. The magic word, which
neither side changes after `map_log` has found it, and the waiting of `map_log` are left
out.
-/

namespace OpteeRpi5.Native

/-- The shared header words and data area. -/
structure LogArea where
  writePos : UInt32
  generation : UInt32
  data : Nat → UInt8

/-! ## The writer -/

/-- The next access of `sw_log_putc`. -/
inductive PutcPc where
  | idle
  | readPos
  | readGen
  | writeData
  | writeGen
  | writePos
  deriving DecidableEq

/-- `sw_log_putc` and its locals. -/
structure LogWriter where
  pc : PutcPc
  ch : UInt8
  pos : UInt32
  gen : UInt32

/-- `if (pos >= data_size) { pos = 0; gen++; }`. -/
def wrapPos (dataSize pos gen : UInt32) : UInt32 × UInt32 :=
  if pos ≥ dataSize then (0, gen + 1) else (pos, gen)

/-- One access of `sw_log_putc`. -/
def putcStep (dataSize : UInt32) (a : LogArea) (w : LogWriter) : LogArea × LogWriter :=
  match w.pc with
  | .idle => (a, w)
  | .readPos => (a, { w with pos := a.writePos, pc := .readGen })
  | .readGen =>
    let r := wrapPos dataSize w.pos a.generation
    (a, { w with pos := r.1, gen := r.2, pc := .writeData })
  | .writeData =>
    let r := wrapPos dataSize (w.pos + 1) w.gen
    ({ a with data := fun i => if i = w.pos.toNat then w.ch else a.data i },
      { w with pos := r.1, gen := r.2, pc := .writeGen })
  | .writeGen => ({ a with generation := w.gen }, { w with pc := .writePos })
  | .writePos => ({ a with writePos := w.pos }, { w with pc := .idle })

/-! ## The reader -/

/-- The next access of the reader: the two header reads at the end of `map_log`, or one
    of `drain_new`. `idle` is between two calls of `drain_new`. -/
inductive DrainPc where
  | mapPos
  | mapGen
  | idle
  | readWp
  | readGen
  | emit
  | advance
  deriving DecidableEq

/-- The statics of the reader, the locals of `drain_new` and what has been emitted. -/
structure LogReader where
  pc : DrainPc
  readPos : UInt32
  readGen : UInt32
  wp : UInt32
  gen : UInt32
  out : List UInt8

/-- One step of the reader. -/
def drainStep (dataSize : UInt32) (a : LogArea) (r : LogReader) : LogReader :=
  match r.pc with
  | .mapPos => { r with readPos := a.writePos, pc := .mapGen }
  | .mapGen => { r with readGen := a.generation, pc := .idle }
  | .idle => r
  | .readWp => { r with wp := a.writePos, pc := .readGen }
  | .readGen =>
    { r with
      gen := a.generation
      pc := if r.readPos = r.wp ∧ r.readGen = a.generation then .idle else .emit }
  | .emit => { r with out := r.out ++ [a.data r.readPos.toNat], pc := .advance }
  | .advance =>
    if r.readPos + 1 ≥ dataSize then { r with readPos := 0, readGen := r.gen, pc := .readWp }
    else { r with readPos := r.readPos + 1, pc := .readWp }

/-! ## The system -/

/-- The shared area and the two sides. -/
structure SwLog where
  area : LogArea
  writer : LogWriter
  reader : LogReader

/-- What can happen next: a call of `sw_log_putc`, a step of it, a call of `drain_new`, a
    step of the reader. -/
inductive LogAct where
  | put (ch : UInt8)
  | writer
  | drain
  | reader

/-- A step of the system. A side that is idle takes no steps, and one that is not cannot
    be called. -/
def SwLog.step (dataSize : UInt32) (s : SwLog) : LogAct → Option SwLog
  | .put ch =>
    if s.writer.pc = .idle then
      some { s with writer := { s.writer with ch := ch, pc := .readPos } }
    else none
  | .writer =>
    if s.writer.pc = .idle then none
    else
      let r := putcStep dataSize s.area s.writer
      some { s with area := r.1, writer := r.2 }
  | .drain =>
    if s.reader.pc = .idle then some { s with reader := { s.reader with pc := .readWp } }
    else none
  | .reader =>
    if s.reader.pc = .idle then none
    else some { s with reader := drainStep dataSize s.area s.reader }

end OpteeRpi5.Native
