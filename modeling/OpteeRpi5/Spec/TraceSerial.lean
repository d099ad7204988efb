import OpteeRpi5.ForStd.SpinLock
import OpteeRpi5.Native.TraceExt
import OpteeRpi5.Spec.SwLogTail

/-!
# Messages of several cores are logged one after the other

Any number of cores call `trace_ext_puts`, and their steps interleave in any order. The
messages are then put into the log and sent to the console in the order in which the cores
take `puts_lock`, each as a whole and once, and the messages of one core in the order of
its calls. Whenever `puts_lock` is free, the log region is what one writer who puts all
these messages makes of it, so the two outputs differ only in the marks of the console.
This holds whatever `rpi5_sw_log_init` has found in the region, and also if it has failed
and the log is disabled. The normal world does not write the region.

The owner of `puts_lock` is that one writer: the system simulates `Native.LogRegion`, and
what the call in progress comes to (`finishCall`) is carried along. `sw_log_lock` is never
found taken, since only the owner of `puts_lock` asks for it.

## Key results

- `TraceInv`: the two locks, the region and the console at every moment
- `trace_serial`: what the log region and the console hold, and in which order
- `puts_lock_bounded`: the owner of `puts_lock` releases it after a bounded number of its
  own steps, whatever the other cores do
-/

namespace OpteeRpi5.Spec

open OpteeRpi5.Native

variable {ι : Type}

/-! ## Where a core is -/

/-- Between `wait_if_trace_contended` and `release_trace_contention`. -/
def HoldsPuts (c : TraceCore) : Prop :=
  match c.pc with
  | .idle | .tryLock | .spin => False
  | .putsNext | .swLock | .putc | .swUnlock | .star | .consoleNext | .unlock => True

/-- Between the lock and the unlock of `sw_log_putc`. -/
def HoldsSwLog (c : TraceCore) : Prop :=
  match c.pc with
  | .putc | .swUnlock => True
  | .idle | .tryLock | .spin | .putsNext | .swLock | .star | .consoleNext | .unlock => False

/-- The message of a call that has not taken `puts_lock` yet. -/
def waiting (c : TraceCore) : List (List UInt8) :=
  match c.pc with
  | .tryLock | .spin => [c.str]
  | .idle | .putsNext | .swLock | .putc | .swUnlock | .star | .consoleNext | .unlock => []

/-- What the owner of `puts_lock` has still to put into the log. -/
def toLog (c : TraceCore) : List UInt8 :=
  match c.pc with
  | .putsNext | .putc | .swUnlock => c.rest
  | .swLock => c.writer.ch :: c.rest
  | .idle | .tryLock | .spin | .star | .consoleNext | .unlock => []

/-- A message as the console sends it. -/
def consoleText (contended : Bool) (str : List UInt8) : List UInt8 :=
  (if contended then consolePutc 0x2a else []) ++ (cstr str).flatMap consolePutc

/-- What the owner of `puts_lock` has still to send to the console. -/
def toConsole (c : TraceCore) : List UInt8 :=
  match c.pc with
  | .putsNext | .swLock | .putc | .swUnlock | .star => consoleText c.wasContended c.str
  | .consoleNext => (cstr c.rest).flatMap consolePutc
  | .idle | .tryLock | .spin | .unlock => []

/-- How many steps of its own the owner of `puts_lock` needs at most to release it. -/
def stepsLeft (c : TraceCore) : Nat :=
  match c.pc with
  | .idle | .tryLock | .spin => 0
  | .putsNext => 8 * c.rest.length + c.str.length + 4
  | .swLock => 8 * c.rest.length + c.str.length + 11
  | .putc => 8 * c.rest.length + c.str.length + 5 + accessesLeft c.writer
  | .swUnlock => 8 * c.rest.length + c.str.length + 5
  | .star => c.str.length + 3
  | .consoleNext => c.rest.length + 2
  | .unlock => 1

/-- The inner lock is taken with the outer one held. -/
theorem HoldsSwLog.holdsPuts {c : TraceCore} (h : HoldsSwLog c) : HoldsPuts c := by
  unfold HoldsSwLog at h
  unfold HoldsPuts
  cases hpc : c.pc <;> simp_all

/-! ## Messages -/

/-- A message that has taken `puts_lock`: the core, the text, and whether the lock was
    contended. -/
structure Message (ι : Type) where
  core : ι
  str : List UInt8
  contended : Bool

/-- The bytes of a message that go to the log. -/
def Message.log (m : Message ι) : List UInt8 := cstr m.str

/-- The bytes of a message that go to the console. -/
def Message.console (m : Message ι) : List UInt8 := consoleText m.contended m.str

/-- The messages of one core. -/
def messagesOf [DecidableEq ι] (msgs : List (Message ι)) (i : ι) : List (List UInt8) :=
  (msgs.filter fun m => m.core = i).map (·.str)

/-- The messages that core `i` has passed to `trace_ext_puts`. -/
def callsOf [DecidableEq ι] (acts : List (TraceAct ι)) (i : ι) : List (List UInt8) :=
  acts.filterMap fun
    | .call j str => if j = i then some str else none
    | .step _ => none

/-- One more message, of one core. -/
theorem messagesOf_concat [DecidableEq ι] (msgs : List (Message ι)) (m : Message ι) (i : ι) :
    messagesOf (msgs ++ [m]) i = messagesOf msgs i ++ if m.core = i then [m.str] else [] := by
  by_cases h : m.core = i
  · simp [messagesOf, h]
  · simp [messagesOf, h]

/-- The messages put one after the other are one string. -/
theorem cstr_flatMap_log (msgs : List (Message ι)) :
    cstr (msgs.flatMap Message.log) = msgs.flatMap Message.log := by
  rw [cstr, List.takeWhile_eq_self_iff]
  intro ch hch
  obtain ⟨m, -, hm⟩ := List.mem_flatMap.mp hch
  exact List.mem_takeWhile_imp (p := fun ch : UInt8 => decide (ch ≠ 0)) hm

/-! ## The single writer -/

/-- The log as the owner of `puts_lock` sees it: what it has still to put, and the put that
    it is in. -/
def regionOf (statics : SwLogStatics) (mem : Buf) : Option TraceCore → LogRegion
  | none => ⟨statics, mem, [], ⟨.idle, 0, 0, 0⟩, []⟩
  | some c =>
    ⟨statics, mem, toLog c, if c.pc = .putc then c.writer else ⟨.idle, 0, 0, 0⟩, []⟩

/-- Where the owner of `puts_lock` is in `sw_log_putc`: it has a character to put while it
    waits for `sw_log_lock`, and accesses left while it holds it. -/
def PutsOk (statics : SwLogStatics) (c : TraceCore) : Prop :=
  match c.pc with
  | .swLock => c.writer.ch ≠ 0 ∧ statics.disabled = false
  | .putc => c.writer.pc ≠ .idle
  | .idle | .tryLock | .spin | .putsNext | .swUnlock | .star | .consoleNext | .unlock => True

/-- The log region and the console, with the owner of `puts_lock` as their only writer.
    `mem₀` is the region before the first message. -/
structure SharedInv (mem₀ : Buf) (msgs : List (Message ι)) (statics : SwLogStatics) (mem : Buf)
    (uart : List UInt8) (holder : Option TraceCore) : Prop where
  region : finishCall (regionOf statics mem holder) =
    putBytes statics mem₀ (msgs.flatMap Message.log)
  puts : ∀ c, holder = some c → PutsOk statics c
  uart : uart ++ holder.elim [] toConsole = msgs.flatMap Message.console

/-- The system since the start `s₀`: who holds the locks, the outputs, and the messages of
    each core in the order of its calls. -/
structure TraceInv [DecidableEq ι] (s₀ : TraceSys ι) (msgs : List (Message ι))
    (acts : List (TraceAct ι)) (s : TraceSys ι) (owner : Option ι) : Prop where
  statics : s.statics = s₀.statics
  puts : SpinLock.Held HoldsPuts s.putsLock s.core owner
  swLog : ∃ owner', SpinLock.Held HoldsSwLog s.swLogLock s.core owner'
  shared : SharedInv s₀.mem msgs s.statics s.mem s.uart (owner.map s.core)
  order : ∀ i, messagesOf msgs i ++ waiting (s.core i) = callsOf acts i
  bound : ∀ i, HoldsPuts (s.core i) → stepsLeft (s.core i) ≤ 9 * (s.core i).str.length + 4

/-! ## What the owner of `puts_lock` does -/

namespace SharedInv

variable {mem₀ mem : Buf} {msgs : List (Message ι)} {statics : SwLogStatics} {uart : List UInt8}
  {c c' : TraceCore}

/-- The lock is taken: the message is the next one. -/
theorem acquire (h : SharedInv mem₀ msgs statics mem uart none) (i : ι) (c : TraceCore) :
    SharedInv mem₀ (msgs ++ [⟨i, c.str, c.wasContended⟩]) statics mem uart
      (some (TraceSys.locked c)) where
  region := by
    have hregion := h.region
    rw [finishCall_of_idle rfl] at hregion
    rw [finishCall_of_idle rfl, List.flatMap_append, putBytes_append, ← hregion]
    simp [regionOf, toLog, TraceSys.locked, Message.log, cstr, putBytes]
  puts := by
    rintro _ ⟨⟩
    trivial
  uart := by
    have huart := h.uart
    simp only [Option.elim_none, List.append_nil] at huart
    simp [huart, toConsole, TraceSys.locked, Message.console]

/-- A step of the owner that does not change what its call comes to, and may send something
    to the console. -/
theorem send {mem' : Buf} {out : List UInt8} (h : SharedInv mem₀ msgs statics mem uart (some c))
    (hregion : finishCall (regionOf statics mem' (some c')) =
      finishCall (regionOf statics mem (some c)))
    (hputs : PutsOk statics c') (hconsole : toConsole c = out ++ toConsole c') :
    SharedInv mem₀ msgs statics mem' (uart ++ out) (some c') where
  region := hregion.trans h.region
  puts := by
    rintro _ ⟨⟩
    exact hputs
  uart := by
    rw [← h.uart]
    simp only [Option.elim_some, hconsole, List.append_assoc]

/-- A step of the owner that sends nothing. -/
theorem stay {mem' : Buf} (h : SharedInv mem₀ msgs statics mem uart (some c))
    (hregion : finishCall (regionOf statics mem' (some c')) =
      finishCall (regionOf statics mem (some c)))
    (hputs : PutsOk statics c') (hconsole : toConsole c = toConsole c') :
    SharedInv mem₀ msgs statics mem' uart (some c') := by
  have hsend : SharedInv mem₀ msgs statics mem' (uart ++ []) (some c') :=
    h.send hregion hputs hconsole
  rwa [List.append_nil] at hsend

/-- The loop of `plat_trace_ext_puts` comes to the end of the message. -/
theorem endLog (h : SharedInv mem₀ msgs statics mem uart (some c)) (hpc : c.pc = .putsNext)
    (hend : cstr c.rest = []) :
    SharedInv mem₀ msgs statics mem uart (some { c with pc := .star }) := by
  refine h.stay ?_ trivial (by simp [toConsole, hpc])
  have hnil : cstr [] = [] := rfl
  simp [finishCall, regionOf, toLog, hpc, hend, hnil]

/-- The loop of `plat_trace_ext_puts` goes on with the next character. -/
theorem nextChar (h : SharedInv mem₀ msgs statics mem uart (some c)) (hpc : c.pc = .putsNext)
    {ch : UInt8} {rest : List UInt8} (hc : c.rest = ch :: rest) (hch : ch ≠ 0)
    (henabled : statics.disabled = false) :
    SharedInv mem₀ msgs statics mem uart (some { c with
      pc := .swLock, rest := rest, writer := { c.writer with ch := ch } }) := by
  refine h.stay ?_ ⟨hch, henabled⟩ (by simp [toConsole, hpc])
  simp [regionOf, toLog, hpc, hc]

/-- `sw_log_putc` returns at once if the log is disabled. -/
theorem skipChar (h : SharedInv mem₀ msgs statics mem uart (some c)) (hpc : c.pc = .putsNext)
    {ch : UInt8} {rest : List UInt8} (hc : c.rest = ch :: rest) (hch : ch ≠ 0)
    (hdisabled : statics.disabled = true) :
    SharedInv mem₀ msgs statics mem uart (some { c with rest := rest }) := by
  refine h.stay ?_ (by simp [PutsOk, hpc]) (by simp [toConsole, hpc])
  refine (finishCall_secureStep ?_).1
  simp [LogRegion.secureStep, regionOf, toLog, hpc, hc, hch, hdisabled]

/-- `sw_log_lock` is taken: the put begins. -/
theorem startPut (h : SharedInv mem₀ msgs statics mem uart (some c)) (hpc : c.pc = .swLock) :
    SharedInv mem₀ msgs statics mem uart (some { c with
      pc := .putc, writer := { c.writer with pc := .readPos } }) := by
  obtain ⟨hch, henabled⟩ : c.writer.ch ≠ 0 ∧ statics.disabled = false := by
    simpa [PutsOk, hpc] using h.puts c rfl
  refine h.stay ?_ (by simp [PutsOk]) (by simp [toConsole, hpc])
  -- the step of the one writer, with the locals of this core
  have hstep : (regionOf statics mem (some c)).secureStep =
      some ⟨statics, mem, c.rest, ⟨.readPos, c.writer.ch, 0, 0⟩, []⟩ := by
    simp [LogRegion.secureStep, regionOf, toLog, hpc, hch, henabled]
  rw [← (finishCall_secureStep hstep).1]
  simp only [finishCall, regionOf, toLog, if_true]
  rw [finishPut_readPos mem c.writer.ch c.writer.pos c.writer.gen 0 0]

/-- An access of `sw_log_putc`. -/
theorem access (h : SharedInv mem₀ msgs statics mem uart (some c)) (hpc : c.pc = .putc)
    {w : LogWriter} (hw : (putcStep statics.dataSize (logArea mem) c.writer).2 = w) :
    SharedInv mem₀ msgs statics (putcMem mem c.writer) uart (some { c with
      pc := if w.pc = .idle then .swUnlock else .putc, writer := w }) := by
  have hfinish : finishPut statics.dataSize (putcMem mem c.writer) w =
      finishPut statics.dataSize mem c.writer := by
    rw [← hw, finishPut_access]
  by_cases hidle : w.pc = .idle
  · -- the last access: the region is what the put comes to
    rw [finishPut_idle hidle] at hfinish
    simp only [hidle, if_true]
    refine h.stay ?_ trivial (by simp [toConsole, hpc])
    simp [finishCall, regionOf, toLog, hpc, hfinish, finishPut_idle]
  · simp only [hidle, if_false]
    refine h.stay ?_ (by simp [PutsOk, hidle]) (by simp [toConsole, hpc])
    simp [finishCall, regionOf, toLog, hpc, hfinish]

/-- The lock is released. -/
theorem release (h : SharedInv mem₀ msgs statics mem uart (some c)) (hpc : c.pc = .unlock) :
    SharedInv mem₀ msgs statics mem uart none where
  region := by simpa [regionOf, toLog, hpc] using h.region
  puts := by
    rintro _ ⟨⟩
  uart := by simpa [toConsole, hpc] using h.uart

/-- The owner is in a put until its last access. -/
theorem busy (h : SharedInv mem₀ msgs statics mem uart (some c)) (hpc : c.pc = .putc) :
    c.writer.pc ≠ .idle := by
  simpa [PutsOk, hpc] using h.puts c rfl

/-- Between two messages the region is what one writer who puts all of them leaves. -/
theorem mem_eq (h : SharedInv mem₀ msgs statics mem uart none) :
    mem = putBytes statics mem₀ (msgs.flatMap Message.log) := by
  have hregion := h.region
  rwa [finishCall_of_idle rfl] at hregion

end SharedInv

/-! ## Steps of the system -/

section Steps

variable [DecidableEq ι] {s₀ : TraceSys ι} {msgs : List (Message ι)}
  {acts : List (TraceAct ι)} {s s' : TraceSys ι} {owner : Option ι} {i : ι} {c' : TraceCore}

/-- The calls of a run in two parts. -/
theorem callsOf_append (acts acts' : List (TraceAct ι)) (i : ι) :
    callsOf (acts ++ acts') i = callsOf acts i ++ callsOf acts' i :=
  List.filterMap_append

@[simp] theorem callsOf_step (i j : ι) : callsOf [.step i] j = [] := rfl

@[simp] theorem setCore_mem (s : TraceSys ι) (i : ι) (c : TraceCore) :
    (s.setCore i c).mem = s.mem := rfl

/-- The head of a loop over a message. -/
theorem cstr_cases (str : List UInt8) :
    cstr str = [] ∨ ∃ ch rest, ch ≠ 0 ∧ str = ch :: rest := by
  cases str with
  | nil => exact .inl rfl
  | cons ch rest =>
    by_cases hch : ch = 0
    · exact .inl (by simp [cstr, hch])
    · exact .inr ⟨ch, rest, hch, rfl⟩

/-- At the end of the message the loop over the log ends. -/
theorem stepCore_putsNext_end (hpc : (s.core i).pc = .putsNext)
    (hend : cstr (s.core i).rest = []) :
    s.stepCore i = some (s.setCore i { s.core i with pc := .star }) := by
  cases hrest : (s.core i).rest with
  | nil => simp [TraceSys.stepCore, hpc, hrest]
  | cons ch rest =>
    have hch : ch = 0 := by simpa [cstr, hrest, List.takeWhile_cons] using hend
    simp [TraceSys.stepCore, hpc, hrest, hch]

/-- A character of the message is put into the log. -/
theorem stepCore_putsNext_char {ch : UInt8} {rest : List UInt8} (hpc : (s.core i).pc = .putsNext)
    (hrest : (s.core i).rest = ch :: rest) (hch : ch ≠ 0) (henabled : s.statics.disabled = false) :
    s.stepCore i = some (s.setCore i { s.core i with
      pc := .swLock, rest := rest, writer := { (s.core i).writer with ch := ch } }) := by
  simp [TraceSys.stepCore, hpc, hrest, hch, henabled]

/-- With the log disabled it is skipped. -/
theorem stepCore_putsNext_disabled {ch : UInt8} {rest : List UInt8}
    (hpc : (s.core i).pc = .putsNext) (hrest : (s.core i).rest = ch :: rest) (hch : ch ≠ 0)
    (hdisabled : s.statics.disabled = true) :
    s.stepCore i = some (s.setCore i { s.core i with rest := rest }) := by
  simp [TraceSys.stepCore, hpc, hrest, hch, hdisabled]

/-- At the end of the message the loop over the console ends. -/
theorem stepCore_consoleNext_end (hpc : (s.core i).pc = .consoleNext)
    (hend : cstr (s.core i).rest = []) :
    s.stepCore i = some (s.setCore i { s.core i with pc := .unlock }) := by
  cases hrest : (s.core i).rest with
  | nil => simp [TraceSys.stepCore, hpc, hrest]
  | cons ch rest =>
    have hch : ch = 0 := by simpa [cstr, hrest, List.takeWhile_cons] using hend
    simp [TraceSys.stepCore, hpc, hrest, hch]

/-- A character of the message goes to the console. -/
theorem stepCore_consoleNext_char {ch : UInt8} {rest : List UInt8}
    (hpc : (s.core i).pc = .consoleNext) (hrest : (s.core i).rest = ch :: rest) (hch : ch ≠ 0) :
    s.stepCore i = some { s.setCore i { s.core i with pc := .consoleNext, rest := rest } with
      uart := s.uart ++ consolePutc ch } := by
  simp [TraceSys.stepCore, hpc, hrest, hch]

/-- A core that does not hold `puts_lock` waits for it, or finds it clear and takes it. -/
theorem stepCore_outside (hout : ¬ HoldsPuts (s.core i)) (hs : s.stepCore i = some s') :
    (∃ c', ¬ HoldsPuts c' ∧ waiting c' = waiting (s.core i) ∧ s' = s.setCore i c') ∨
    (s.putsLock = false ∧ waiting (s.core i) = [(s.core i).str] ∧
      s' = { s.setCore i (TraceSys.locked (s.core i)) with putsLock := true }) := by
  cases hpc : (s.core i).pc with
  | idle => simp [TraceSys.stepCore, hpc] at hs
  | tryLock =>
    simp only [TraceSys.stepCore, hpc] at hs
    cases hlock : s.putsLock with
    | false =>
      simp only [hlock, Bool.false_eq_true, if_false, Option.some.injEq] at hs
      exact .inr ⟨rfl, by simp [waiting, hpc], hs.symm⟩
    | true =>
      simp only [hlock, if_true, Option.some.injEq] at hs
      exact .inl ⟨_, by simp [HoldsPuts], by simp [waiting, hpc], hs.symm⟩
  | spin =>
    simp only [TraceSys.stepCore, hpc] at hs
    cases hlock : s.putsLock with
    | false =>
      simp only [hlock, Bool.false_eq_true, if_false, Option.some.injEq] at hs
      exact .inr ⟨rfl, by simp [waiting, hpc], hs.symm⟩
    | true =>
      simp only [hlock, if_true, Option.some.injEq] at hs
      -- a core that spins does not change
      exact .inl ⟨s.core i, hout, rfl, by simp [TraceSys.setCore, ← hs]⟩
  | putsNext | swLock | putc | swUnlock | star | consoleNext | unlock =>
    simp [HoldsPuts, hpc] at hout

/-- The holder of the lock does not wait for it. -/
theorem waiting_eq_nil {c : TraceCore} (h : HoldsPuts c) : waiting c = [] := by
  unfold HoldsPuts at h
  unfold waiting
  cases hpc : c.pc <;> simp_all

/-- What a step of the owner of `puts_lock` comes to: it gets nearer to the release, or it
    has released the lock. -/
def Advanced (s₀ : TraceSys ι) (msgs : List (Message ι)) (acts : List (TraceAct ι))
    (s s' : TraceSys ι) (i : ι) : Prop :=
  (TraceInv s₀ msgs (acts ++ [.step i]) s' (some i) ∧
    stepsLeft (s'.core i) < stepsLeft (s.core i)) ∨
  (TraceInv s₀ msgs (acts ++ [.step i]) s' none ∧ (s'.core i).pc = .idle)

namespace TraceInv

/-- A step of a core outside `puts_lock`, which may begin a call. -/
theorem outside (h : TraceInv s₀ msgs acts s owner) {a : TraceAct ι} (hout : ¬ HoldsPuts (s.core i))
    (hout' : ¬ HoldsPuts c') (hwait : waiting c' = waiting (s.core i) ++ callsOf [a] i)
    (hothers : ∀ j, j ≠ i → callsOf [a] j = []) :
    TraceInv s₀ msgs (acts ++ [a]) (s.setCore i c') owner where
  statics := h.statics
  puts := h.puts.move (iff_of_false hout' hout)
  swLog := by
    obtain ⟨owner', hsw⟩ := h.swLog
    exact ⟨owner', hsw.move
      (iff_of_false (hout' ∘ HoldsSwLog.holdsPuts) (hout ∘ HoldsSwLog.holdsPuts))⟩
  shared := by
    have hshared := h.shared
    rw [← h.puts.map_update hout c'] at hshared
    exact hshared
  order j := by
    rw [callsOf_append, ← h.order j, List.append_assoc]
    by_cases hj : j = i
    · simp [TraceSys.setCore, hj, hwait]
    · simp [TraceSys.setCore, hj, hothers j hj]
  bound j hin := by
    by_cases hj : j = i
    · simp [TraceSys.setCore, hj, hout'] at hin
    · simp only [TraceSys.setCore, Function.update_of_ne hj] at hin ⊢
      exact h.bound j hin

/-- A core finds `puts_lock` clear, and its message is the next one. -/
theorem enter (h : TraceInv s₀ msgs acts s owner) (hclear : s.putsLock = false)
    (hwait : waiting (s.core i) = [(s.core i).str]) :
    TraceInv s₀ (msgs ++ [⟨i, (s.core i).str, (s.core i).wasContended⟩]) (acts ++ [.step i])
      { s.setCore i (TraceSys.locked (s.core i)) with putsLock := true } (some i) where
  statics := h.statics
  puts := h.puts.acquire hclear trivial
  swLog := by
    obtain ⟨owner', hsw⟩ := h.swLog
    refine ⟨owner', hsw.move (iff_of_false id fun hin => ?_)⟩
    -- a core that waits holds neither lock
    rw [waiting_eq_nil hin.holdsPuts] at hwait
    exact absurd hwait.symm (List.cons_ne_nil _ _)
  shared := by
    have hshared := h.shared
    rw [h.puts.owner_eq_none hclear] at hshared
    simpa [TraceSys.setCore] using hshared.acquire i (s.core i)
  order j := by
    rw [callsOf_append, ← h.order j, messagesOf_concat]
    by_cases hj : j = i
    · subst hj
      have hlocked : waiting (TraceSys.locked (s.core j)) = [] := rfl
      simp [TraceSys.setCore, hwait, hlocked]
    · simp [TraceSys.setCore, hj, Ne.symm hj]
  bound j hin := by
    by_cases hj : j = i
    · subst hj
      simp only [TraceSys.setCore, Function.update_self, stepsLeft, TraceSys.locked]
      omega
    · simp only [TraceSys.setCore, Function.update_of_ne hj] at hin ⊢
      exact h.bound j hin

/-- A step of the owner that keeps `puts_lock`. -/
theorem inside (h : TraceInv s₀ msgs acts s (some i))
    (hcore : s'.core = Function.update s.core i c') (hstatics : s'.statics = s.statics)
    (hputs : s'.putsLock = s.putsLock) (hin' : HoldsPuts c')
    (hstr : c'.str = (s.core i).str) (hleft : stepsLeft c' < stepsLeft (s.core i))
    (hsw : ∃ owner', SpinLock.Held HoldsSwLog s'.swLogLock (Function.update s.core i c') owner')
    (hshared : SharedInv s₀.mem msgs s'.statics s'.mem s'.uart (some c')) :
    TraceInv s₀ msgs (acts ++ [.step i]) s' (some i) where
  statics := hstatics.trans h.statics
  puts := by
    have hin := (h.puts.inside_iff i).mpr rfl
    rw [hcore, hputs]
    exact h.puts.move (iff_of_true hin' hin)
  swLog := by rwa [hcore]
  shared := by simpa [hcore] using hshared
  order j := by
    rw [callsOf_append, ← h.order j, hcore]
    by_cases hj : j = i
    · subst hj
      simp [waiting_eq_nil hin', waiting_eq_nil ((h.puts.inside_iff j).mpr rfl)]
    · simp [hj]
  bound j hin := by
    rw [hcore] at hin ⊢
    by_cases hj : j = i
    · subst hj
      -- the message is the same and the measure has decreased
      have hbound := h.bound j ((h.puts.inside_iff j).mpr rfl)
      rw [Function.update_self, hstr]
      omega
    · rw [Function.update_of_ne hj] at hin ⊢
      exact h.bound j hin

/-- The owner releases `puts_lock`. -/
theorem leave (h : TraceInv s₀ msgs acts s (some i)) (hpc : (s.core i).pc = .unlock) :
    TraceInv s₀ msgs (acts ++ [.step i])
      { s.setCore i { s.core i with pc := .idle } with putsLock := false } none where
  statics := h.statics
  puts := h.puts.release ((h.puts.inside_iff i).mpr rfl) id
  swLog := by
    obtain ⟨owner', hsw⟩ := h.swLog
    exact ⟨owner', hsw.move (iff_of_false id (by simp [HoldsSwLog, hpc]))⟩
  shared := h.shared.release hpc
  order j := by
    rw [callsOf_append, ← h.order j]
    by_cases hj : j = i
    · subst hj
      simp [TraceSys.setCore, waiting, hpc]
    · simp [TraceSys.setCore, hj]
  bound j hin := by
    by_cases hj : j = i
    · simp [TraceSys.setCore, hj, HoldsPuts] at hin
    · simp only [TraceSys.setCore, Function.update_of_ne hj] at hin ⊢
      exact h.bound j hin

/-- `sw_log_lock` is clear when a core asks for it. -/
theorem swLog_clear (h : TraceInv s₀ msgs acts s owner) (hpc : (s.core i).pc = .swLock) :
    s.swLogLock = false := by
  obtain ⟨owner', hsw⟩ := h.swLog
  apply hsw.locked_eq_false
  -- whoever is in `sw_log_putc` holds `puts_lock` too, and that is this core
  intro j hj
  have hi : HoldsPuts (s.core i) := by simp [HoldsPuts, hpc]
  rw [h.puts.unique hj.holdsPuts hi] at hj
  simp [HoldsSwLog, hpc] at hj

/-- A step of the owner outside `sw_log_putc` leaves `sw_log_lock` alone. -/
theorem swLog_move (h : TraceInv s₀ msgs acts s owner)
    (hin : HoldsSwLog c' ↔ HoldsSwLog (s.core i)) :
    ∃ owner', SpinLock.Held HoldsSwLog s.swLogLock (Function.update s.core i c') owner' := by
  obtain ⟨owner', hsw⟩ := h.swLog
  exact ⟨owner', hsw.move hin⟩

/-- The owner keeps `puts_lock`, and gets nearer to its release. -/
theorem advance (h : TraceInv s₀ msgs acts s (some i))
    (hcore : s'.core = Function.update s.core i c') (hstatics : s'.statics = s.statics)
    (hputs : s'.putsLock = s.putsLock) (hin' : HoldsPuts c')
    (hstr : c'.str = (s.core i).str) (hleft : stepsLeft c' < stepsLeft (s.core i))
    (hsw : ∃ owner', SpinLock.Held HoldsSwLog s'.swLogLock (Function.update s.core i c') owner')
    (hshared : SharedInv s₀.mem msgs s'.statics s'.mem s'.uart (some c')) :
    Advanced s₀ msgs acts s s' i :=
  .inl ⟨h.inside hcore hstatics hputs hin' hstr hleft hsw hshared,
    by rwa [hcore, Function.update_self]⟩

/-- The owner is at the head of the loop of `plat_trace_ext_puts`. -/
theorem putsNext (h : TraceInv s₀ msgs acts s (some i)) (hpc : (s.core i).pc = .putsNext)
    (hs : s.stepCore i = some s') : Advanced s₀ msgs acts s s' i := by
  have hshared : SharedInv s₀.mem msgs s.statics s.mem s.uart (some (s.core i)) := h.shared
  have hout : ¬ HoldsSwLog (s.core i) := by simp [HoldsSwLog, hpc]
  obtain hend | ⟨ch, rest, hch, hrest⟩ := cstr_cases (s.core i).rest
  · rw [stepCore_putsNext_end hpc hend, Option.some.injEq] at hs
    subst hs
    refine h.advance rfl rfl rfl trivial rfl ?_ (h.swLog_move (iff_of_false id hout))
      (hshared.endLog hpc hend)
    simp only [stepsLeft, hpc]
    omega
  · cases hdis : s.statics.disabled with
    | true =>
      rw [stepCore_putsNext_disabled hpc hrest hch hdis, Option.some.injEq] at hs
      subst hs
      refine h.advance rfl rfl rfl (by simp [HoldsPuts, hpc]) rfl ?_
        (h.swLog_move (iff_of_false (by simp [HoldsSwLog, hpc]) hout))
        (hshared.skipChar hpc hrest hch hdis)
      simp only [stepsLeft, hpc, hrest, List.length_cons]
      omega
    | false =>
      rw [stepCore_putsNext_char hpc hrest hch hdis, Option.some.injEq] at hs
      subst hs
      refine h.advance rfl rfl rfl trivial rfl ?_ (h.swLog_move (iff_of_false id hout))
        (hshared.nextChar hpc hrest hch hdis)
      simp only [stepsLeft, hpc, hrest, List.length_cons]
      omega

/-- The owner is in `sw_log_putc`. -/
theorem putc (h : TraceInv s₀ msgs acts s (some i)) (hpc : (s.core i).pc = .putc)
    (hs : s.stepCore i = some s') : Advanced s₀ msgs acts s s' i := by
  have hshared : SharedInv s₀.mem msgs s.statics s.mem s.uart (some (s.core i)) := h.shared
  have hin : HoldsSwLog (s.core i) := by simp [HoldsSwLog, hpc]
  have hleft := accessesLeft_putcStep (hshared.busy hpc) s.statics.dataSize (logArea s.mem)
  simp only [TraceSys.stepCore, hpc, Option.some.injEq] at hs
  subst hs
  generalize hw : (putcStep s.statics.dataSize (logArea s.mem) (s.core i).writer).2 = w at hleft ⊢
  have haccess := hshared.access hpc hw
  -- the last access of the put leaves for the release of `sw_log_lock`
  by_cases hidle : w.pc = .idle
  · simp only [hidle, if_true] at haccess ⊢
    refine h.advance rfl rfl rfl trivial rfl ?_ (h.swLog_move (iff_of_true trivial hin)) haccess
    simp only [stepsLeft, hpc]
    omega
  · simp only [hidle, if_false] at haccess ⊢
    refine h.advance rfl rfl rfl trivial rfl ?_ (h.swLog_move (iff_of_true trivial hin)) haccess
    simp only [stepsLeft, hpc]
    omega

/-- The owner is at the head of the loop that sends the message to the console. -/
theorem consoleNext (h : TraceInv s₀ msgs acts s (some i)) (hpc : (s.core i).pc = .consoleNext)
    (hs : s.stepCore i = some s') : Advanced s₀ msgs acts s s' i := by
  have hshared : SharedInv s₀.mem msgs s.statics s.mem s.uart (some (s.core i)) := h.shared
  have hout : ¬ HoldsSwLog (s.core i) := by simp [HoldsSwLog, hpc]
  obtain hend | ⟨ch, rest, hch, hrest⟩ := cstr_cases (s.core i).rest
  · rw [stepCore_consoleNext_end hpc hend, Option.some.injEq] at hs
    subst hs
    refine h.advance rfl rfl rfl trivial rfl ?_ (h.swLog_move (iff_of_false id hout))
      (hshared.stay (by simp [regionOf, toLog, hpc]) trivial (by simp [toConsole, hpc, hend]))
    simp only [stepsLeft, hpc]
    omega
  · rw [stepCore_consoleNext_char hpc hrest hch, Option.some.injEq] at hs
    subst hs
    refine h.advance rfl rfl rfl trivial rfl ?_ (h.swLog_move (iff_of_false id hout))
      (hshared.send (by simp [regionOf, toLog, hpc]) trivial
        (by simp [toConsole, hpc, hrest, hch, cstr]))
    simp [stepsLeft, hpc, hrest]

/-- What a step of the owner does. -/
theorem ownerStep (h : TraceInv s₀ msgs acts s (some i)) (hs : s.stepCore i = some s') :
    Advanced s₀ msgs acts s s' i := by
  have hin : HoldsPuts (s.core i) := (h.puts.inside_iff i).mpr rfl
  have hshared : SharedInv s₀.mem msgs s.statics s.mem s.uart (some (s.core i)) := h.shared
  obtain ⟨owner', hsw⟩ := h.swLog
  -- one case for each program point; the first three are outside the lock
  cases hpc : (s.core i).pc with
  | idle => simp [HoldsPuts, hpc] at hin
  | tryLock => simp [HoldsPuts, hpc] at hin
  | spin => simp [HoldsPuts, hpc] at hin
  | putsNext => exact h.putsNext hpc hs
  | swLock =>
    have hclear := h.swLog_clear hpc
    simp only [TraceSys.stepCore, hpc, hclear, Bool.false_eq_true, if_false, Option.some.injEq]
      at hs
    subst hs
    exact h.advance rfl rfl rfl trivial rfl (by simp [stepsLeft, hpc, accessesLeft])
      ⟨some i, hsw.acquire hclear trivial⟩ (hshared.startPut hpc)
  | putc => exact h.putc hpc hs
  | swUnlock =>
    simp only [TraceSys.stepCore, hpc, Option.some.injEq] at hs
    subst hs
    exact h.advance rfl rfl rfl trivial rfl (by simp [stepsLeft, hpc])
      ⟨none, hsw.release (by simp [HoldsSwLog, hpc]) id⟩
      (hshared.stay (by simp [regionOf, toLog, hpc]) trivial (by simp [toConsole, hpc]))
  | star =>
    simp only [TraceSys.stepCore, hpc, Option.some.injEq] at hs
    subst hs
    exact h.advance rfl rfl rfl trivial rfl (by simp [stepsLeft, hpc])
      (h.swLog_move (iff_of_false id (by simp [HoldsSwLog, hpc])))
      (hshared.send (by simp [regionOf, toLog, hpc]) trivial
        (by simp [toConsole, consoleText, hpc]))
  | consoleNext => exact h.consoleNext hpc hs
  | unlock =>
    simp only [TraceSys.stepCore, hpc, Option.some.injEq] at hs
    subst hs
    exact .inr ⟨h.leave hpc, by simp [TraceSys.setCore]⟩

/-- A step of any core. The messages so far stay, in their order. -/
theorem step (h : TraceInv s₀ msgs acts s owner) {a : TraceAct ι} (hs : s.step a = some s') :
    ∃ more owner', TraceInv s₀ (msgs ++ more) (acts ++ [a]) s' owner' := by
  cases a with
  | call i str =>
    simp only [TraceSys.step, Option.ite_none_right_eq_some, Option.some.injEq] at hs
    obtain ⟨hpc, rfl⟩ := hs
    refine ⟨[], owner, ?_⟩
    rw [List.append_nil]
    apply h.outside
    · simp [HoldsPuts, hpc]
    · simp [HoldsPuts]
    · simp [waiting, hpc, callsOf]
    · intro j hj
      simp [callsOf, hj.symm]
  | step i =>
    by_cases hin : HoldsPuts (s.core i)
    · rw [(h.puts.inside_iff i).mp hin] at h
      obtain ⟨h', -⟩ | ⟨h', -⟩ := h.ownerStep hs
      · exact ⟨[], some i, by rwa [List.append_nil]⟩
      · exact ⟨[], none, by rwa [List.append_nil]⟩
    · obtain ⟨c', hout, hwait, rfl⟩ | ⟨hclear, hwait, rfl⟩ := stepCore_outside hin hs
      · exact ⟨[], owner, by simpa using h.outside hin hout (by simpa using hwait) (by simp)⟩
      · exact ⟨_, some i, h.enter hclear hwait⟩

/-- Whole runs. -/
theorem exec (h : TraceInv s₀ msgs acts s owner) {acts' : List (TraceAct ι)}
    (hs : Run.exec TraceSys.step s acts' = some s') :
    ∃ more owner', TraceInv s₀ (msgs ++ more) (acts ++ acts') s' owner' := by
  induction acts' generalizing msgs acts s owner with
  | nil =>
    obtain rfl : s = s' := Option.some.inj hs
    exact ⟨[], owner, by simpa using h⟩
  | cons a acts' ih =>
    obtain ⟨s₁, hstep, hrest⟩ := Option.bind_eq_some_iff.mp hs
    obtain ⟨more₁, owner₁, h₁⟩ := h.step hstep
    obtain ⟨more₂, owner₂, h₂⟩ := ih h₁ hrest
    exact ⟨more₁ ++ more₂, owner₂, by simpa using h₂⟩

/-- Before the first message. -/
theorem start (statics : SwLogStatics) (mem : Buf) :
    TraceInv (.start statics mem) [] [] (.start statics mem : TraceSys ι) none where
  statics := rfl
  puts := .free fun _ => id
  swLog := ⟨none, .free fun _ => id⟩
  shared := ⟨finishCall_of_idle rfl, by rintro _ ⟨⟩, rfl⟩
  order _ := rfl
  bound _ hin := hin.elim

end TraceInv

/-! ## The order of the messages -/

/-- The messages `msgs` are those of the calls so far that have taken `puts_lock`. While the
    lock is free, the region is what one writer who puts them leaves of that of `s₀`, and
    the console has sent all of them. -/
structure Serialized (s₀ : TraceSys ι) (msgs : List (Message ι)) (acts : List (TraceAct ι))
    (s : TraceSys ι) : Prop where
  order : ∀ i, messagesOf msgs i ++ waiting (s.core i) = callsOf acts i
  log : s.putsLock = false → s.mem = putBytes s₀.statics s₀.mem (msgs.flatMap Message.log)
  console : s.putsLock = false → s.uart = msgs.flatMap Message.console

/-- What the invariant says of the memory, the console and the order. -/
theorem TraceInv.serialized (h : TraceInv s₀ msgs acts s owner) : Serialized s₀ msgs acts s := by
  have hfree (hclear : s.putsLock = false) :
      SharedInv s₀.mem msgs s₀.statics s.mem s.uart none := by
    have hshared := h.shared
    rwa [h.puts.owner_eq_none hclear, h.statics] at hshared
  exact ⟨h.order, fun hclear => (hfree hclear).mem_eq,
    fun hclear => by simpa using (hfree hclear).uart⟩

/-- After the first initialisation the region holds the tail of the messages. -/
theorem Serialized.holdsTail {env : TraceEnv} {st : SwLogStatics} {va : Nat} {mem : Buf}
    (h : Serialized (.booted env st va mem) msgs acts s) (hva : va ≠ 0)
    (hmagic : mem.le32 hdrMagic ≠ rpi5SwLogMagic) (hclear : s.putsLock = false) :
    HoldsTail (msgs.flatMap Message.log) s.mem := by
  have htail := holdsTail_putBytes hmagic env st hva (msgs.flatMap Message.log)
  rw [cstr_flatMap_log] at htail
  rw [h.log hclear]
  exact htail

/-- A region of an earlier boot, with one slot left in its first lap. -/
def warmRegion : Buf := fun i =>
  if i < 4 then Buf.byteOf rpi5SwLogMagic i
  else if i < 8 then Buf.byteOf 65519 (i - 4)
  else 0

/-- The steps of one core in a run. -/
def ownSteps (acts : List (TraceAct ι)) (i : ι) : Nat :=
  acts.countP fun
    | .call _ _ => false
    | .step j => j = i

/-- The holder of the lock has steps to take. -/
theorem stepsLeft_pos {c : TraceCore} (h : HoldsPuts c) : 0 < stepsLeft c := by
  cases hpc : c.pc with
  | idle | tryLock | spin => simp [HoldsPuts, hpc] at h
  | putsNext | swLock | putc | swUnlock | star | consoleNext | unlock =>
    simp only [stepsLeft, hpc]
    omega

/-- The other cores do not change the owner of `puts_lock`. -/
theorem TraceInv.core_owner (h : TraceInv s₀ msgs acts s (some i)) {a : TraceAct ι}
    (ha : a ≠ .step i) (hs : s.step a = some s') : s'.core i = s.core i := by
  have hin : HoldsPuts (s.core i) := (h.puts.inside_iff i).mpr rfl
  cases a with
  | call j str =>
    simp only [TraceSys.step, Option.ite_none_right_eq_some, Option.some.injEq] at hs
    obtain ⟨hpc, rfl⟩ := hs
    have hij : i ≠ j := by
      rintro rfl
      simp [HoldsPuts, hpc] at hin
    simp [TraceSys.setCore, hij]
  | step j =>
    have hij : i ≠ j := fun hij => ha (congrArg TraceAct.step hij.symm)
    have hout : ¬ HoldsPuts (s.core j) := fun hj => hij (h.puts.unique hin hj)
    obtain ⟨c', -, -, rfl⟩ | ⟨-, -, rfl⟩ := stepCore_outside hout hs
    · simp [TraceSys.setCore, hij]
    · simp [TraceSys.setCore, hij]

/-- After enough steps of the owner the lock has been released. -/
theorem TraceInv.released (h : TraceInv s₀ msgs acts s (some i)) {acts' : List (TraceAct ι)}
    (hs : Run.exec TraceSys.step s acts' = some s')
    (hsteps : stepsLeft (s.core i) ≤ ownSteps acts' i) :
    ∃ pre suf s₁, acts' = pre ++ suf ∧ Run.exec TraceSys.step s pre = some s₁ ∧
      (s₁.core i).pc = .idle ∧ s₁.putsLock = false := by
  induction acts' generalizing msgs acts s with
  | nil =>
    have hpos := stepsLeft_pos ((h.puts.inside_iff i).mpr rfl)
    simp only [ownSteps, List.countP_nil] at hsteps
    omega
  | cons a acts' ih =>
    obtain ⟨s₁, hstep, hrest⟩ := Option.bind_eq_some_iff.mp hs
    -- the run up to the release goes on from the state after `a`
    have later {msgs' : List (Message ι)} {acts₁ : List (TraceAct ι)}
        (h₁ : TraceInv s₀ msgs' acts₁ s₁ (some i))
        (hleft : stepsLeft (s₁.core i) ≤ ownSteps acts' i) :
        ∃ pre suf s₂, a :: acts' = pre ++ suf ∧ Run.exec TraceSys.step s pre = some s₂ ∧
          (s₂.core i).pc = .idle ∧ s₂.putsLock = false := by
      obtain ⟨pre, suf, s₂, rfl, hpre, hidle⟩ := ih h₁ hrest hleft
      exact ⟨a :: pre, suf, s₂, rfl, by simp [Run.exec, hstep, hpre], hidle⟩
    by_cases ha : a = .step i
    · subst ha
      obtain ⟨h₁, hless⟩ | ⟨h₁, hidle⟩ := h.ownerStep hstep
      · apply later h₁
        simp only [ownSteps, List.countP_cons, decide_true, if_true] at hsteps ⊢
        omega
      · exact ⟨[.step i], acts', s₁, rfl, by simp [Run.exec, hstep], hidle,
          h₁.puts.locked_eq⟩
    · have hcore := h.core_owner ha hstep
      obtain ⟨more, owner', h₁⟩ := h.step hstep
      have howner : owner' = some i :=
        (h₁.puts.inside_iff i).mp (hcore ▸ (h.puts.inside_iff i).mpr rfl)
      rw [howner] at h₁
      apply later h₁
      rw [hcore]
      cases a with
      | call j str => simpa [ownSteps] using hsteps
      | step j =>
        have hji : j ≠ i := fun hji => ha (congrArg TraceAct.step hji)
        simpa [ownSteps, hji] using hsteps

/-- From every start and in every interleaving: one core at most is between the lock and the
    unlock of `puts_lock`, no core ever waits for `sw_log_lock`, and the owner of
    `puts_lock` has released it by the time it has made nine steps for each character of
    its message and four more, whatever the other cores do meanwhile. -/
theorem puts_lock_bounded (statics : SwLogStatics) (mem : Buf) (acts : List (TraceAct ι))
    (s : TraceSys ι) (hrun : Run.exec TraceSys.step (.start statics mem) acts = some s) :
    (∀ i j, HoldsPuts (s.core i) → HoldsPuts (s.core j) → i = j) ∧
    (∀ i, (s.core i).pc = .swLock → s.swLogLock = false) ∧
    ∀ i, HoldsPuts (s.core i) → ∀ acts' s', Run.exec TraceSys.step s acts' = some s' →
      9 * (s.core i).str.length + 4 ≤ ownSteps acts' i →
      ∃ pre suf s₁, acts' = pre ++ suf ∧ Run.exec TraceSys.step s pre = some s₁ ∧
        (s₁.core i).pc = .idle ∧ s₁.putsLock = false := by
  obtain ⟨msgs, owner, h⟩ := (TraceInv.start statics mem).exec hrun
  refine ⟨fun i j hi hj => h.puts.unique hi hj, fun i => h.swLog_clear, ?_⟩
  intro i hin acts' s' hrun' hsteps
  rw [(h.puts.inside_iff i).mp hin] at h
  exact h.released hrun' ((h.bound i hin).trans hsteps)

/-- Core 0 logs one character while core 1 waits for the lock, from the start of a warm
    boot. -/
theorem puts_lock_bounded_twoCores : ∃ s s' : TraceSys (Fin 2),
    Run.exec TraceSys.step (.start ⟨rpi5SwLogPaddr, 0x10000000, rpi5SwLogSize⟩ warmRegion)
      [.call 0 [0x41], .call 1 [0x42, 0], .step 0, .step 1] = some s ∧
    Run.exec TraceSys.step s (List.replicate 13 [.step 1, .step 0]).flatten = some s' ∧
    ∃ pre suf s₁, (List.replicate 13 [.step 1, .step 0]).flatten = pre ++ suf ∧
      Run.exec TraceSys.step s pre = some s₁ ∧ (s₁.core 0).pc = .idle ∧ s₁.putsLock = false := by
  have hrun : ∃ s s' : TraceSys (Fin 2),
      Run.exec TraceSys.step (.start ⟨rpi5SwLogPaddr, 0x10000000, rpi5SwLogSize⟩ warmRegion)
        [.call 0 [0x41], .call 1 [0x42, 0], .step 0, .step 1] = some s ∧
      Run.exec TraceSys.step s (List.replicate 13 [.step 1, .step 0]).flatten = some s' ∧
      (s.core 0).pc = .putsNext ∧ (s.core 0).str.length = 1 := ⟨_, _, rfl, rfl, rfl, rfl⟩
  obtain ⟨s, s', hexec, hexec', hpc, hlen⟩ := hrun
  have hin : HoldsPuts (s.core 0) := by simp [HoldsPuts, hpc]
  have hsteps : 9 * (s.core 0).str.length + 4 ≤
      ownSteps (List.replicate 13 [.step 1, .step 0]).flatten (0 : Fin 2) := by
    rw [hlen]
    decide
  exact ⟨s, s', hexec, hexec',
    (puts_lock_bounded _ _ _ s hexec).2.2 0 hin _ s' hexec' hsteps⟩

end Steps

end OpteeRpi5.Spec
