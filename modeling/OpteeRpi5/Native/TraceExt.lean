import Mathlib.Logic.Function.Basic
import OpteeRpi5.Native.SwLogRegion

/-!
# Trace messages from several cores

`trace_ext_puts` of `core/kernel/trace_ext.c`, which every core calls for its messages: it
takes `puts_lock`, puts the message into the log (`plat_trace_ext_puts` of
`plat-rpi5/sw_log.c`, where every put takes `sw_log_lock`), sends it to the console, and
releases the lock. A step is one access to memory that the cores share: a lock, the log
region or the console.

The MMU is on and `CFG_CONSOLE_MASK_INTERRUPTS` is set, which is the default, so a core
that is in `trace_ext_puts` is not interrupted. A message is a C string: it ends at the
first NUL, or with the list. `cpu_spin_lock` of `sw_log_lock` retries `__cpu_spin_trylock`;
the warning after `2 ^ 32` retries is left out, and so is `console_flush`.
-/

namespace OpteeRpi5.Native

/-- The next access of `trace_ext_puts`. -/
inductive TracePc where
  | idle
  /-- `cpu_spin_trylock(&puts_lock)`. -/
  | tryLock
  /-- `cpu_spin_lock_no_dldetect(&puts_lock)`, after the try has failed. -/
  | spin
  /-- The head of the loop of `plat_trace_ext_puts`. -/
  | putsNext
  /-- `cpu_spin_lock(&sw_log_lock)`. -/
  | swLock
  /-- An access of `sw_log_putc` to the region. -/
  | putc
  /-- `cpu_spin_unlock(&sw_log_lock)`. -/
  | swUnlock
  /-- `if (was_contended) console_putc('*')`. -/
  | star
  /-- The head of the loop that sends the message to the console. -/
  | consoleNext
  /-- `cpu_spin_unlock(&puts_lock)`. -/
  | unlock
  deriving DecidableEq

/-- A core in `trace_ext_puts`: the message, what the current loop has not read of it yet,
    and the locals. -/
structure TraceCore where
  pc : TracePc
  str : List UInt8
  rest : List UInt8
  writer : LogWriter
  wasContended : Bool

/-- What the cores share, and the cores. `uart` is what the console has sent. -/
structure TraceSys (ι : Type) where
  statics : SwLogStatics
  mem : Buf
  putsLock : Bool
  swLogLock : Bool
  uart : List UInt8
  core : ι → TraceCore

/-- What `console_putc` sends for a character. -/
def consolePutc (ch : UInt8) : List UInt8 :=
  if ch = 0x0a then [0x0d, ch] else [ch]

/-- What can happen next: a call of `trace_ext_puts` by a core, or a step of a core. -/
inductive TraceAct (ι : Type) where
  | call (i : ι) (str : List UInt8)
  | step (i : ι)

namespace TraceSys

variable {ι : Type} [DecidableEq ι]

/-- The system after core `i` has changed. -/
def setCore (s : TraceSys ι) (i : ι) (c : TraceCore) : TraceSys ι :=
  { s with core := Function.update s.core i c }

/-- `puts_lock` has been taken. -/
def locked (c : TraceCore) : TraceCore :=
  { c with pc := .putsNext, rest := c.str }

/-- A step of core `i`. -/
def stepCore (s : TraceSys ι) (i : ι) : Option (TraceSys ι) :=
  let c := s.core i
  match c.pc with
  | .idle => none
  | .tryLock =>
    if s.putsLock then some (s.setCore i { c with pc := .spin, wasContended := true })
    else some { s.setCore i (locked c) with putsLock := true }
  | .spin =>
    if s.putsLock then some s
    else some { s.setCore i (locked c) with putsLock := true }
  | .putsNext =>
    match c.rest with
    | [] => some (s.setCore i { c with pc := .star })
    | ch :: rest =>
      if ch = 0 then some (s.setCore i { c with pc := .star })
      -- `sw_log_putc` returns at once
      else if s.statics.disabled then some (s.setCore i { c with rest := rest })
      else some (s.setCore i { c with
        pc := .swLock, rest := rest, writer := { c.writer with ch := ch } })
  | .swLock =>
    if s.swLogLock then some s
    else some { s.setCore i { c with pc := .putc, writer := { c.writer with pc := .readPos } } with
      swLogLock := true }
  | .putc =>
    let w := (putcStep s.statics.dataSize (logArea s.mem) c.writer).2
    some { s.setCore i { c with
        pc := if w.pc = .idle then .swUnlock else .putc, writer := w } with
      mem := putcMem s.mem c.writer }
  | .swUnlock => some { s.setCore i { c with pc := .putsNext } with swLogLock := false }
  | .star =>
    some { s.setCore i { c with pc := .consoleNext, rest := c.str } with
      uart := s.uart ++ if c.wasContended then consolePutc 0x2a else [] }
  | .consoleNext =>
    match c.rest with
    | [] => some (s.setCore i { c with pc := .unlock })
    | ch :: rest =>
      if ch = 0 then some (s.setCore i { c with pc := .unlock })
      else some { s.setCore i { c with rest := rest } with uart := s.uart ++ consolePutc ch }
  | .unlock => some { s.setCore i { c with pc := .idle } with putsLock := false }

/-- A step of the system. A core makes one call at a time. -/
def step (s : TraceSys ι) : TraceAct ι → Option (TraceSys ι)
  | .call i str =>
    if (s.core i).pc = .idle then
      some (s.setCore i { s.core i with pc := .tryLock, str := str, wasContended := false })
    else none
  | .step i => s.stepCore i

/-- The system between two messages, with any statics and any region. -/
def start (statics : SwLogStatics) (mem : Buf) : TraceSys ι where
  statics := statics
  mem := mem
  putsLock := false
  swLogLock := false
  uart := []
  core := fun _ => ⟨.idle, [], [], ⟨.idle, 0, 0, 0⟩, false⟩

/-- The system when `rpi5_sw_log_init` is about to trace its message. -/
def booted (env : TraceEnv) (st : SwLogStatics) (va : Nat) (mem : Buf) : TraceSys ι :=
  let r := rpi5SwLogInit env st va mem
  start r.2.1 (r.2.2.1.foldl RegionStore.apply mem)

/-- The call that puts the message of `rpi5_sw_log_init`, which runs on core `boot`. -/
def initCall (env : TraceEnv) (st : SwLogStatics) (va : Nat) (mem : Buf) (boot : ι) :
    List (TraceAct ι) :=
  (rpi5SwLogInit env st va mem).2.2.2.toList.map (.call boot)

end TraceSys

end OpteeRpi5.Native
