import Mathlib.Data.List.GetD
import Mathlib.Data.UInt
import OpteeRpi5.ForStd.RingPos
import OpteeRpi5.ForStd.Run
import OpteeRpi5.Native.SwLog

/-!
# No loss and no duplication in the secure-world log

The reader should emit the bytes that are put, each once and in order, as long as the
writer does not lap it. It does so in every interleaving but one: between the generation
store and the write position store of a put that fills the last slot, the header reads
as the end of the new lap. A reader that has already emitted the byte of that put and
wrapped takes it for a full lap of new bytes and emits the stale contents of the ring.

## Key results

- `LogTrace`: the system together with the stream of bytes that have been put
- `PutcAccess`, `DrainAccess`: what a step of the writer and of the reader does
- `RingInv`: the header words as positions of the stream, and the last bytes in their slots
- `LogInv`: the reader's position as well
- `drainNew_faithful`: without a torn read the reader emits a prefix of the stream
- `drainNew_duplicates`: an interleaving with a torn read
-/

namespace OpteeRpi5.Spec

open OpteeRpi5.Native

/-! ## Traces -/

/-- A run of the log with what has been put: the bytes stored since the start, the number
    of generation and of write position stores, and the number of completed puts when
    the reader last read `write_pos`. -/
structure LogTrace where
  sys : SwLog
  stream : List UInt8
  gens : Nat
  completed : Nat
  seen : Nat

namespace LogTrace

/-- A step of the system, recorded. -/
def step (dataSize : UInt32) (t : LogTrace) (a : LogAct) : Option LogTrace :=
  (t.sys.step dataSize a).map fun sys =>
    match a with
    | .put _ => { t with sys := sys }
    | .writer =>
      match t.sys.writer.pc with
      | .writeData => { t with sys := sys, stream := t.stream ++ [t.sys.writer.ch] }
      | .writeGen => { t with sys := sys, gens := t.gens + 1 }
      | .writePos => { t with sys := sys, completed := t.completed + 1 }
      | _ => { t with sys := sys }
    | .drain => { t with sys := sys }
    | .reader =>
      match t.sys.reader.pc with
      | .readWp => { t with sys := sys, seen := t.completed }
      | _ => { t with sys := sys }

/-- The writer does not overwrite a byte that the reader has not emitted: the slot of the
    next byte holds the byte of a lap ago. -/
def noOverwrite (dataSize : UInt32) (t : LogTrace) : LogAct → Bool
  | .writer => t.sys.writer.pc ≠ .writeData ||
      t.stream.length < t.sys.reader.out.length + dataSize.toNat
  | _ => true

/-- The header is torn for the reader: the generation store of a put that wraps is done,
    its write position store is not, and the reader is at the start of the new lap. -/
def torn (t : LogTrace) : Bool :=
  t.sys.writer.pc = .writePos && t.sys.reader.readPos = 0 &&
    t.sys.reader.readGen = t.sys.area.generation && t.sys.area.writePos ≠ 0

/-- The reader does not read `write_pos` when the header is torn. -/
def noTornRead (t : LogTrace) : LogAct → Bool
  | .reader => t.sys.reader.pc ≠ .readWp || !t.torn
  | _ => true

/-! ## What a step does -/

variable {dataSize : UInt32} {t t' : LogTrace}

/-- A step of `sw_log_putc`, by the access that it makes. -/
inductive PutcAccess (dataSize : UInt32) (t : LogTrace) : LogTrace → Prop where
  | readPos (hpc : t.sys.writer.pc = .readPos) :
    PutcAccess dataSize t { t with sys := { t.sys with
      writer := { t.sys.writer with pos := t.sys.area.writePos, pc := .readGen } } }
  | readGen (hpc : t.sys.writer.pc = .readGen) :
    PutcAccess dataSize t { t with sys := { t.sys with
      writer := { t.sys.writer with
        pos := (wrapPos dataSize t.sys.writer.pos t.sys.area.generation).1
        gen := (wrapPos dataSize t.sys.writer.pos t.sys.area.generation).2
        pc := .writeData } } }
  | writeData (hpc : t.sys.writer.pc = .writeData) :
    PutcAccess dataSize t { t with
      stream := t.stream ++ [t.sys.writer.ch]
      sys := { t.sys with
        area := { t.sys.area with
          data := fun i =>
            if i = t.sys.writer.pos.toNat then t.sys.writer.ch else t.sys.area.data i }
        writer := { t.sys.writer with
          pos := (wrapPos dataSize (t.sys.writer.pos + 1) t.sys.writer.gen).1
          gen := (wrapPos dataSize (t.sys.writer.pos + 1) t.sys.writer.gen).2
          pc := .writeGen } } }
  | writeGen (hpc : t.sys.writer.pc = .writeGen) :
    PutcAccess dataSize t { t with
      gens := t.gens + 1
      sys := { t.sys with
        area := { t.sys.area with generation := t.sys.writer.gen }
        writer := { t.sys.writer with pc := .writePos } } }
  | writePos (hpc : t.sys.writer.pc = .writePos) :
    PutcAccess dataSize t { t with
      completed := t.completed + 1
      sys := { t.sys with
        area := { t.sys.area with writePos := t.sys.writer.pos }
        writer := { t.sys.writer with pc := .idle } } }

/-- Every step of the writer is one access. -/
theorem putcAccess_of_step (hs : t.step dataSize .writer = some t') :
    PutcAccess dataSize t t' := by
  have hbusy : t.sys.writer.pc ≠ .idle := by
    intro hidle
    simp [step, SwLog.step, hidle] at hs
  simp only [step, SwLog.step, if_neg hbusy, Option.map_some, Option.some.injEq] at hs
  subst hs
  unfold putcStep
  cases hpc : t.sys.writer.pc with
  | idle => exact absurd hpc hbusy
  | readPos => exact .readPos hpc
  | readGen => exact .readGen hpc
  | writeData => exact .writeData hpc
  | writeGen => exact .writeGen hpc
  | writePos => exact .writePos hpc

/-- A step of the reader, by the access that it makes. After it has read `generation` it
    stops or goes on, and from the last slot it wraps. -/
inductive DrainAccess (dataSize : UInt32) (t : LogTrace) : LogTrace → Prop where
  | mapPos (hpc : t.sys.reader.pc = .mapPos) :
    DrainAccess dataSize t { t with sys := { t.sys with
      reader := { t.sys.reader with readPos := t.sys.area.writePos, pc := .mapGen } } }
  | mapGen (hpc : t.sys.reader.pc = .mapGen) :
    DrainAccess dataSize t { t with sys := { t.sys with
      reader := { t.sys.reader with readGen := t.sys.area.generation, pc := .idle } } }
  | readWp (hpc : t.sys.reader.pc = .readWp) :
    DrainAccess dataSize t { t with
      seen := t.completed
      sys := { t.sys with
        reader := { t.sys.reader with wp := t.sys.area.writePos, pc := .readGen } } }
  | stop (hpc : t.sys.reader.pc = .readGen)
      (heq : t.sys.reader.readPos = t.sys.reader.wp ∧
        t.sys.reader.readGen = t.sys.area.generation) :
    DrainAccess dataSize t { t with sys := { t.sys with
      reader := { t.sys.reader with gen := t.sys.area.generation, pc := .idle } } }
  | goOn (hpc : t.sys.reader.pc = .readGen)
      (hne : ¬ (t.sys.reader.readPos = t.sys.reader.wp ∧
        t.sys.reader.readGen = t.sys.area.generation)) :
    DrainAccess dataSize t { t with sys := { t.sys with
      reader := { t.sys.reader with gen := t.sys.area.generation, pc := .emit } } }
  | emit (hpc : t.sys.reader.pc = .emit) :
    DrainAccess dataSize t { t with sys := { t.sys with
      reader := { t.sys.reader with
        out := t.sys.reader.out ++ [t.sys.area.data t.sys.reader.readPos.toNat]
        pc := .advance } } }
  | wrap (hpc : t.sys.reader.pc = .advance) (hge : t.sys.reader.readPos + 1 ≥ dataSize) :
    DrainAccess dataSize t { t with sys := { t.sys with
      reader := { t.sys.reader with readPos := 0, readGen := t.sys.reader.gen, pc := .readWp } } }
  | next (hpc : t.sys.reader.pc = .advance) (hlt : ¬ t.sys.reader.readPos + 1 ≥ dataSize) :
    DrainAccess dataSize t { t with sys := { t.sys with
      reader := { t.sys.reader with readPos := t.sys.reader.readPos + 1, pc := .readWp } } }

/-- Every step of the reader is one access. -/
theorem drainAccess_of_step (hs : t.step dataSize .reader = some t') :
    DrainAccess dataSize t t' := by
  have hbusy : t.sys.reader.pc ≠ .idle := by
    intro hidle
    simp [step, SwLog.step, hidle] at hs
  simp only [step, SwLog.step, if_neg hbusy, Option.map_some, Option.some.injEq] at hs
  subst hs
  unfold drainStep
  cases hpc : t.sys.reader.pc with
  | idle => exact absurd hpc hbusy
  | mapPos => exact .mapPos hpc
  | mapGen => exact .mapGen hpc
  | readWp => exact .readWp hpc
  | readGen =>
    by_cases heq : t.sys.reader.readPos = t.sys.reader.wp ∧
        t.sys.reader.readGen = t.sys.area.generation
    · simp only [if_pos heq]
      exact .stop hpc heq
    · simp only [if_neg heq]
      exact .goOn hpc heq
  | emit => exact .emit hpc
  | advance =>
    by_cases hge : t.sys.reader.readPos + 1 ≥ dataSize
    · simp only [if_pos hge]
      exact .wrap hpc hge
    · simp only [if_neg hge]
      exact .next hpc hge

/-- A call of `sw_log_putc`. -/
theorem step_put {ch : UInt8} (hs : t.step dataSize (.put ch) = some t') :
    t.sys.writer.pc = .idle ∧
      t' = { t with sys := { t.sys with
        writer := { t.sys.writer with ch := ch, pc := .readPos } } } := by
  simp only [step, SwLog.step] at hs
  split at hs
  · next hpc => exact ⟨hpc, (Option.some.inj hs).symm⟩
  · cases hs

/-- A call of `drain_new`. -/
theorem step_drain (hs : t.step dataSize .drain = some t') :
    t.sys.reader.pc = .idle ∧
      t' = { t with sys := { t.sys with reader := { t.sys.reader with pc := .readWp } } } := by
  simp only [step, SwLog.step] at hs
  split at hs
  · next hpc => exact ⟨hpc, (Option.some.inj hs).symm⟩
  · cases hs

end LogTrace

/-- A log between two puts, with any header that a put leaves and any contents. -/
structure LogStart where
  dataSize : UInt32
  pos : UInt32
  gen : UInt32
  data : Nat → UInt8
  pos_lt : pos.toNat < dataSize.toNat

/-- A ring of the default size at the start of its first lap. -/
def freshRing : LogStart where
  dataSize := 65520
  pos := 0
  gen := 0
  data := fun _ => 0
  pos_lt := by decide

/-- The trace at the start: the reader is at the position of the header. -/
def LogStart.init (S : LogStart) : LogTrace where
  sys :=
    { area := ⟨S.pos, S.gen, S.data⟩
      writer := ⟨.idle, 0, 0, 0⟩
      reader := ⟨.idle, S.pos, S.gen, 0, 0, []⟩ }
  stream := []
  gens := 0
  completed := 0
  seen := 0

/-- The actions of a put that is not interrupted. -/
def putActs (ch : UInt8) : List LogAct :=
  .put ch :: List.replicate 5 .writer

/-- Puts that are not interrupted, each with its byte and its three stores. -/
theorem exec_puts (dataSize : UInt32) (ch : UInt8) (n : Nat) (t : LogTrace)
    (hidle : t.sys.writer.pc = .idle) : ∃ t',
    Run.exec (LogTrace.step dataSize) t (List.replicate n (putActs ch)).flatten = some t' ∧
    t'.sys.writer.pc = .idle ∧ t'.stream.length = t.stream.length + n ∧
    t'.completed = t.completed + n ∧ t'.sys.reader = t.sys.reader := by
  have hround : ∀ k (t₁ : LogTrace), (t₁.sys.writer.pc = .idle ∧
        t₁.stream.length = t.stream.length + k ∧ t₁.completed = t.completed + k ∧
        t₁.sys.reader = t.sys.reader) →
      ∃ t₂, Run.exec (LogTrace.step dataSize) t₁ (putActs ch) = some t₂ ∧
        (t₂.sys.writer.pc = .idle ∧ t₂.stream.length = t.stream.length + (k + 1) ∧
        t₂.completed = t.completed + (k + 1) ∧ t₂.sys.reader = t.sys.reader) := by
    intro k t₁ h₁
    obtain ⟨hidle₁, hstream₁, hcompleted₁, hreader₁⟩ := h₁
    rw [← hreader₁, ← Nat.add_assoc, ← Nat.add_assoc, ← hstream₁, ← hcompleted₁]
    obtain ⟨⟨area, ⟨pc, ch', pos, gen⟩, reader⟩, stream, gens, completed, seen⟩ := t₁
    cases hidle₁
    exact ⟨_, rfl, rfl, List.length_append, rfl, rfl⟩
  obtain ⟨t', hrun, h⟩ := Run.exec_rounds _ hround n (k := 0) ⟨hidle, rfl, rfl, rfl⟩
  rw [Nat.zero_add] at h
  exact ⟨t', hrun, h⟩

/-! ## Positions of the stream -/

namespace LogStart

variable (S : LogStart)

/-- The number of slots. -/
def d : Nat := S.dataSize.toNat

/-- The slot of byte `k` of the stream. -/
def slot (k : Nat) : Nat := (S.pos.toNat + k) % S.d

/-- `write_pos` after `k` puts. -/
def wpos (k : Nat) : UInt32 := UInt32.ofNat (S.slot k)

/-- `generation` after `k` puts. -/
def lap (k : Nat) : UInt32 := S.gen + UInt32.ofNat ((S.pos.toNat + k) / S.d)

theorem d_pos : 0 < S.d := Nat.lt_of_le_of_lt (Nat.zero_le _) S.pos_lt

theorem pos_lt_d : S.pos.toNat < S.d := S.pos_lt

theorem d_lt : S.d < 2 ^ 32 := S.dataSize.toNat_lt

/-- A slot is inside the ring. -/
theorem slot_lt (k : Nat) : S.slot k < S.d := Nat.mod_lt _ S.d_pos

/-- The position of the writer does not overflow. -/
theorem wpos_toNat (k : Nat) : (S.wpos k).toNat = S.slot k := by
  have hslot := S.slot_lt k
  have hd := S.d_lt
  rw [wpos, UInt32.toNat_ofNat']
  exact Nat.mod_eq_of_lt (by omega)

/-- Equal positions are the same slot. -/
theorem wpos_inj {k m : Nat} (h : S.wpos k = S.wpos m) : S.slot k = S.slot m := by
  rw [← S.wpos_toNat, ← S.wpos_toNat, h]

theorem wpos_eq_zero {k : Nat} (h : S.slot k = 0) : S.wpos k = 0 := by
  rw [wpos, h]
  rfl

/-- Before the first byte the position is the one found. -/
theorem wpos_zero : S.wpos 0 = S.pos := by
  rw [wpos, slot, Nat.add_zero, Nat.mod_eq_of_lt S.pos_lt_d, UInt32.ofNat_toNat]

theorem lap_zero : S.lap 0 = S.gen := by
  rw [lap, Nat.add_zero, Nat.div_eq_of_lt S.pos_lt_d]
  exact UInt32.add_zero S.gen

/-- The position after the next put. -/
theorem wrapPos_succ (k : Nat) :
    wrapPos S.dataSize (S.wpos k + 1) (S.lap k) = (S.wpos (k + 1), S.lap (k + 1)) := by
  have hslot := S.slot_lt k
  have hd := S.d_lt
  have hnext : (S.wpos k + 1).toNat = S.slot k + 1 := by
    rw [UInt32.toNat_add, S.wpos_toNat, UInt32.toNat_one]
    omega
  have hge : S.wpos k + 1 ≥ S.dataSize ↔ S.d ≤ S.slot k + 1 := by
    rw [ge_iff_le, UInt32.le_iff_toNat_le, hnext]
    rfl
  unfold wrapPos
  -- the last slot of the ring begins a new lap
  by_cases hwrap : S.slot k + 1 = S.d
  · rw [if_pos (hge.mpr (by omega))]
    have hmod : S.slot (k + 1) = 0 := RingPos.succ_mod_of_eq hwrap
    have hdiv : (S.pos.toNat + (k + 1)) / S.d = (S.pos.toNat + k) / S.d + 1 :=
      RingPos.succ_div_of_eq hwrap
    rw [S.wpos_eq_zero hmod, lap, lap, hdiv, UInt32.ofNat_add]
    exact congrArg _ (UInt32.add_assoc _ _ _)
  · rw [if_neg (by rw [hge]; omega)]
    have hmod : S.slot (k + 1) = S.slot k + 1 := 
      RingPos.succ_mod_of_lt (show S.slot k + 1 < S.d by omega)
    have hdiv : (S.pos.toNat + (k + 1)) / S.d = (S.pos.toNat + k) / S.d :=
      RingPos.succ_div_of_lt (show S.slot k + 1 < S.d by omega)
    rw [lap, lap, hdiv, wpos, wpos, hmod, UInt32.ofNat_add]
    rfl

/-- A position that a put has left needs no wrapping. -/
theorem wrapPos_self (k : Nat) (g : UInt32) :
    wrapPos S.dataSize (S.wpos k) g = (S.wpos k, g) := by
  have hlt : ¬ S.wpos k ≥ S.dataSize := by
    rw [ge_iff_le, UInt32.le_iff_toNat_le, S.wpos_toNat]
    exact Nat.not_le_of_lt (S.slot_lt k)
  rw [wrapPos, if_neg hlt]

/-- Within a window of one lap, position and generation tell the bytes apart. -/
theorem wpos_lap_inj {k m : Nat} (h : k ≤ m) (hle : m ≤ k + S.d) (hpos : S.wpos m = S.wpos k) :
    m = k ∨ (m = k + S.d ∧ S.lap m ≠ S.lap k) := by
  have hmod : (S.pos.toNat + m) % S.d = (S.pos.toNat + k) % S.d := S.wpos_inj hpos
  rcases RingPos.eq_or_eq_add_of_mod_eq (by omega) (by omega) hmod with heq | heq
  · left
    omega
  · right
    have hm : m = k + S.d := by omega
    refine ⟨hm, ?_⟩
    rw [hm, lap, lap, ← Nat.add_assoc, Nat.add_div_right _ S.d_pos, UInt32.ofNat_add]
    simp

/-- The generation changes in the first slot only. -/
theorem slot_eq_zero_of_lap_ne {k : Nat} (h : S.lap (k + 1) ≠ S.lap k) : S.slot (k + 1) = 0 := by
  have hslot := S.slot_lt k
  by_cases hwrap : S.slot k + 1 = S.d
  · exact RingPos.succ_mod_of_eq hwrap
  · have hdiv : (S.pos.toNat + (k + 1)) / S.d = (S.pos.toNat + k) / S.d :=
      RingPos.succ_div_of_lt (show S.slot k + 1 < S.d by omega)
    exact absurd (by rw [lap, lap, hdiv]) h

/-- The bytes of one lap have the same generation. -/
theorem lap_eq_of_slot_eq_zero {k m : Nat} (h0 : S.slot k = 0) (h : k ≤ m) (hlt : m < k + S.d) :
    S.lap m = S.lap k := by
  have hdiv : (S.pos.toNat + m) / S.d = (S.pos.toNat + k) / S.d :=
    RingPos.div_eq_of_mod_eq_zero h0 (by omega) (by omega)
  rw [lap, lap, hdiv]

end LogStart

/-! ## The invariant -/

section Invariant

variable (S : LogStart)

/-- The locals of a put, after `w` data stores, `g` generation stores and `c` write
    position stores. -/
def WriterAt (wr : LogWriter) (w g c : Nat) : Prop :=
  match wr.pc with
  | .idle => w = c ∧ g = c
  | .readPos => w = c ∧ g = c
  | .readGen => w = c ∧ g = c ∧ wr.pos = S.wpos c
  | .writeData => w = c ∧ g = c ∧ wr.pos = S.wpos c ∧ wr.gen = S.lap c
  | .writeGen => w = c + 1 ∧ g = c ∧ wr.pos = S.wpos (c + 1) ∧ wr.gen = S.lap (c + 1)
  | .writePos => w = c + 1 ∧ g = c + 1 ∧ wr.pos = S.wpos (c + 1) ∧ wr.gen = S.lap (c + 1)

/-- The reader is at byte `k` of the stream. -/
def ReaderPos (r : LogReader) (k : Nat) : Prop :=
  r.readPos = S.wpos k ∧ r.readGen = S.lap k

/-- The locals of `drain_new`. Once the reader has decided to emit a byte, the generation
    it has read is that of a later position `m`, at most one lap away. -/
def ReaderAt (r : LogReader) (g c seen : Nat) : Prop :=
  let e := r.out.length
  match r.pc with
  | .mapPos => False
  | .mapGen => False
  | .idle => ReaderPos S r e ∧ seen ≤ e
  | .readWp => ReaderPos S r e
  | .readGen => ReaderPos S r e ∧ r.wp = S.wpos seen ∧ seen ≤ c ∧
      (e ≤ seen ∨ S.wpos seen = S.wpos e)
  | .emit => ReaderPos S r e ∧ ∃ m, e < m ∧ m ≤ g ∧ m ≤ e + S.d ∧ r.gen = S.lap m ∧
      (e < c ∨ S.lap m ≠ S.lap e)
  | .advance => ∃ k m, e = k + 1 ∧ ReaderPos S r k ∧ k < m ∧ m ≤ k + S.d ∧ r.gen = S.lap m

/-- What holds along a run without torn reads. -/
structure LogInv (t : LogTrace) : Prop where
  writePos : t.sys.area.writePos = S.wpos t.completed
  generation : t.sys.area.generation = S.lap t.gens
  data : ∀ k < t.stream.length, t.stream.length ≤ k + S.d →
    t.sys.area.data (S.slot k) = t.stream.getD k 0
  emitted_le : t.sys.reader.out.length ≤ t.gens
  room : t.stream.length ≤ t.sys.reader.out.length + S.d
  ahead : t.sys.reader.out.length = t.completed + 1 → S.slot t.sys.reader.out.length = 0
  writer : WriterAt S t.sys.writer t.stream.length t.gens t.completed
  reader : ReaderAt S t.sys.reader t.gens t.completed t.seen
  out : t.sys.reader.out <+: t.stream

variable {S}

/-- Stores come in the order data, generation, write position, one put at a time. -/
theorem WriterAt.counts {wr : LogWriter} {w g c : Nat} (h : WriterAt S wr w g c) :
    c ≤ g ∧ g ≤ w ∧ w ≤ c + 1 := by
  unfold WriterAt at h
  cases hpc : wr.pc <;> simp only [hpc] at h <;> omega

/-- Between the last two stores of a put. -/
theorem WriterAt.pc_of_gens {wr : LogWriter} {w g c : Nat} (h : WriterAt S wr w g c)
    (hg : g = c + 1) : wr.pc = .writePos := by
  unfold WriterAt at h
  cases hpc : wr.pc with
  | writePos => rfl
  | idle | readPos | readGen | writeData | writeGen =>
    simp only [hpc] at h
    omega

/-- The header words and the locals of a put, as positions of the stream. The reader has
    no part in this. -/
structure HeaderInv (S : LogStart) (t : LogTrace) : Prop where
  writePos : t.sys.area.writePos = S.wpos t.completed
  generation : t.sys.area.generation = S.lap t.gens
  writer : WriterAt S t.sys.writer t.stream.length t.gens t.completed

/-- A step of `sw_log_putc`, whatever it overwrites. -/
theorem HeaderInv.writer_step {t t' : LogTrace} (h : HeaderInv S t)
    (hs : t.step S.dataSize .writer = some t') : HeaderInv S t' := by
  have hw := h.writer
  cases LogTrace.putcAccess_of_step hs with
  | readPos hpc =>
    simp only [WriterAt, hpc] at hw
    exact { h with writer := ⟨hw.1, hw.2, h.writePos⟩ }
  | readGen hpc =>
    simp only [WriterAt, hpc] at hw
    obtain ⟨hwc, hgc, hpos⟩ := hw
    rw [hpos, S.wrapPos_self]
    -- the position is that of a completed put, so nothing wraps here
    have hgen : t.sys.area.generation = S.lap t.completed := by rw [h.generation, hgc]
    exact { h with writer := ⟨hwc, hgc, rfl, hgen⟩ }
  | writeData hpc =>
    simp only [WriterAt, hpc] at hw
    obtain ⟨hwc, hgc, hpos, hgen⟩ := hw
    have hlen : (t.stream ++ [t.sys.writer.ch]).length = t.completed + 1 := by
      rw [List.length_append, List.length_singleton, hwc]
    have hnext := S.wrapPos_succ t.completed
    rw [← hpos, ← hgen] at hnext
    rw [hnext]
    exact ⟨h.writePos, h.generation, ⟨hlen, hgc, rfl, rfl⟩⟩
  | writeGen hpc =>
    simp only [WriterAt, hpc] at hw
    obtain ⟨hwc, hgc, hpos, hgen⟩ := hw
    exact ⟨h.writePos, by rw [hgen, hgc], ⟨hwc, by rw [hgc], hpos, hgen⟩⟩
  | writePos hpc =>
    simp only [WriterAt, hpc] at hw
    obtain ⟨hwc, hgc, hpos, hgen⟩ := hw
    exact ⟨hpos, h.generation, ⟨hwc, hgc⟩⟩

/-- Every step keeps the header invariant: the reader stores nothing. -/
theorem HeaderInv.step {t t' : LogTrace} {a : LogAct} (h : HeaderInv S t)
    (hs : t.step S.dataSize a = some t') : HeaderInv S t' := by
  cases a with
  | put ch =>
    obtain ⟨hpc, rfl⟩ := LogTrace.step_put hs
    have hw := h.writer
    simp only [WriterAt, hpc] at hw
    exact { h with writer := hw }
  | writer => exact h.writer_step hs
  | drain =>
    obtain ⟨-, rfl⟩ := LogTrace.step_drain hs
    exact ⟨h.writePos, h.generation, h.writer⟩
  | reader =>
    cases LogTrace.drainAccess_of_step hs <;> exact ⟨h.writePos, h.generation, h.writer⟩

/-- The next data store: its slot is that of no other byte of the window. -/
private theorem window_store {data : Nat → UInt8} {stream : List UInt8}
    (h : ∀ k < stream.length, stream.length ≤ k + S.d → data (S.slot k) = stream.getD k 0)
    (ch : UInt8) :
    ∀ k < (stream ++ [ch]).length, (stream ++ [ch]).length ≤ k + S.d →
      (if S.slot k = S.slot stream.length then ch else data (S.slot k)) =
        (stream ++ [ch]).getD k 0 := by
  intro k hk hle
  rw [List.length_append, List.length_singleton] at hk hle
  by_cases hlast : k = stream.length
  · subst hlast
    rw [if_pos rfl, List.getD_append_right _ _ _ _ (Nat.le_refl _), Nat.sub_self,
      List.getD_cons_zero]
  · have hne : S.slot k ≠ S.slot stream.length :=
      RingPos.mod_ne_of_lt (show S.pos.toNat + k < S.pos.toNat + stream.length by omega)
        (by omega)
    rw [if_neg hne, h k (by omega) (by omega), List.getD_append _ _ _ _ (by omega)]

/-- The header words, and the last bytes of the stream in their slots. -/
structure RingInv (S : LogStart) (t : LogTrace) : Prop extends HeaderInv S t where
  data : ∀ k < t.stream.length, t.stream.length ≤ k + S.d →
    t.sys.area.data (S.slot k) = t.stream.getD k 0

/-- A step of `sw_log_putc` keeps the last bytes in place, whatever it overwrites. -/
theorem RingInv.writer_step {t t' : LogTrace} (h : RingInv S t)
    (hs : t.step S.dataSize .writer = some t') : RingInv S t' := by
  refine ⟨h.toHeaderInv.writer_step hs, ?_⟩
  have hw := h.writer
  cases LogTrace.putcAccess_of_step hs with
  | readPos hpc | readGen hpc | writeGen hpc | writePos hpc => exact h.data
  | writeData hpc =>
    simp only [WriterAt, hpc] at hw
    obtain ⟨hwc, -, hpos, -⟩ := hw
    have hdata := window_store h.data t.sys.writer.ch
    simp only [hwc, ← S.wpos_toNat t.completed, ← hpos] at hdata
    exact hdata

/-- Every step keeps the last bytes in place. -/
theorem RingInv.step {t t' : LogTrace} {a : LogAct} (h : RingInv S t)
    (hs : t.step S.dataSize a = some t') : RingInv S t' := by
  refine ⟨h.toHeaderInv.step hs, ?_⟩
  cases a with
  | put ch =>
    obtain ⟨-, rfl⟩ := LogTrace.step_put hs
    exact h.data
  | writer => exact (h.writer_step hs).data
  | drain =>
    obtain ⟨-, rfl⟩ := LogTrace.step_drain hs
    exact h.data
  | reader => cases LogTrace.drainAccess_of_step hs <;> exact h.data

/-- The reader stays in place when the writer moves on. -/
theorem ReaderAt.mono {r : LogReader} {g c seen g' c' : Nat} (h : ReaderAt S r g c seen)
    (hg : g ≤ g') (hc : c ≤ c') : ReaderAt S r g' c' seen := by
  unfold ReaderAt at h ⊢
  cases hpc : r.pc with
  | mapPos | mapGen => simp only [hpc] at h
  | idle | readWp | advance =>
    simp only [hpc] at h ⊢
    exact h
  | readGen =>
    simp only [hpc] at h ⊢
    obtain ⟨hpos, hwp, hseen, hor⟩ := h
    exact ⟨hpos, hwp, by omega, hor⟩
  | emit =>
    simp only [hpc] at h ⊢
    obtain ⟨hpos, m, hm, hmg, hmd, hgen, hor⟩ := h
    exact ⟨hpos, m, hm, by omega, hmd, hgen, hor.imp_left (fun hlt => by omega)⟩

/-- The invariant holds at the start. -/
theorem LogInv.init (S : LogStart) : LogInv S S.init where
  writePos := S.wpos_zero.symm
  generation := S.lap_zero.symm
  data k hk := absurd hk (Nat.not_lt_zero k)
  emitted_le := Nat.le_refl 0
  room := Nat.zero_le _
  ahead h := by cases h
  writer := ⟨rfl, rfl⟩
  reader := ⟨⟨S.wpos_zero.symm, S.lap_zero.symm⟩, Nat.le_refl 0⟩
  out := List.nil_prefix

/-! ## Steps of the writer -/

/-- A call of `sw_log_putc`. -/
theorem LogInv.put {t t' : LogTrace} {ch : UInt8} (h : LogInv S t)
    (hs : t.step S.dataSize (.put ch) = some t') : LogInv S t' := by
  obtain ⟨hpc, rfl⟩ := LogTrace.step_put hs
  have hw := h.writer
  simp only [WriterAt, hpc] at hw
  exact { h with writer := hw }

/-- The header part of the invariant. -/
theorem LogInv.header {t : LogTrace} (h : LogInv S t) : HeaderInv S t :=
  ⟨h.writePos, h.generation, h.writer⟩

/-- A step of `sw_log_putc` that overwrites no byte the reader still has to emit. -/
theorem LogInv.writer_step {t t' : LogTrace} (h : LogInv S t)
    (hok : t.noOverwrite S.dataSize .writer = true)
    (hs : t.step S.dataSize .writer = some t') : LogInv S t' := by
  have hw := h.writer
  have hring : RingInv S t := ⟨h.header, h.data⟩
  obtain ⟨⟨hwritePos, hgeneration, hwriter⟩, hdata⟩ := hring.writer_step hs
  cases LogTrace.putcAccess_of_step hs with
  | readPos hpc => exact { h with writer := hwriter }
  | readGen hpc => exact { h with writer := hwriter }
  | writeData hpc =>
    have hroom : t.stream.length < t.sys.reader.out.length + S.d := by
      simpa [LogTrace.noOverwrite, hpc, LogStart.d] using hok
    have hlen : (t.stream ++ [t.sys.writer.ch]).length = t.stream.length + 1 := by simp
    exact
      { writePos := hwritePos
        generation := hgeneration
        data := hdata
        emitted_le := h.emitted_le
        room := by
          rw [hlen]
          exact hroom
        ahead := h.ahead
        writer := hwriter
        reader := h.reader
        out := h.out.trans (List.prefix_append _ _) }
  | writeGen hpc =>
    exact { h with
      generation := hgeneration
      emitted_le := Nat.le_succ_of_le h.emitted_le
      writer := hwriter
      reader := h.reader.mono (Nat.le_succ _) (Nat.le_refl _) }
  | writePos hpc =>
    have hle := h.emitted_le
    simp only [WriterAt, hpc] at hw
    exact { h with
      writePos := hwritePos
      ahead := fun he => by
        -- the reader is not past the put that has just completed
        exact absurd he (by simp only; omega)
      writer := hwriter
      reader := h.reader.mono (Nat.le_refl _) (Nat.le_succ _) }

/-! ## Steps of the reader -/

/-- A call of `drain_new`. -/
theorem LogInv.drain {t t' : LogTrace} (h : LogInv S t)
    (hs : t.step S.dataSize .drain = some t') : LogInv S t' := by
  obtain ⟨hpc, rfl⟩ := LogTrace.step_drain hs
  have hr := h.reader
  simp only [ReaderAt, hpc] at hr
  exact { h with reader := hr.1 }

/-- A `write_pos` that is not torn is not behind the reader, unless the ring has one
    slot. -/
theorem LogInv.not_behind {t : LogTrace} (h : LogInv S t) (hpc : t.sys.reader.pc = .readWp)
    (htorn : t.torn = false) :
    t.sys.reader.out.length ≤ t.completed ∨
      S.wpos t.completed = S.wpos t.sys.reader.out.length := by
  have hcounts := h.writer.counts
  have hle := h.emitted_le
  by_cases hbehind : t.sys.reader.out.length ≤ t.completed
  · exact Or.inl hbehind
  right
  -- the reader has emitted the byte of a put whose `write_pos` is still to be stored
  have he : t.sys.reader.out.length = t.completed + 1 := by omega
  have hg : t.gens = t.sys.reader.out.length := by omega
  have hr := h.reader
  simp only [ReaderAt, hpc] at hr
  have hzero : S.wpos t.sys.reader.out.length = 0 := S.wpos_eq_zero (h.ahead he)
  have hwriter : t.sys.writer.pc = .writePos := h.writer.pc_of_gens (by omega)
  have hpos : t.sys.reader.readPos = 0 := hr.1.trans hzero
  have hgen : t.sys.reader.readGen = t.sys.area.generation := by
    rw [hr.2, h.generation, hg]
  have hwp : t.sys.area.writePos = 0 := by
    simpa [LogTrace.torn, hwriter, hpos, hgen] using htorn
  rw [hzero, ← h.writePos, hwp]

/-- The decision of `drain_new`: to return, having emitted every byte whose put it has
    seen completed, or to emit a byte that has been stored. -/
theorem LogInv.decide {t : LogTrace} (h : LogInv S t) (hpc : t.sys.reader.pc = .readGen) :
    if t.sys.reader.readPos = t.sys.reader.wp ∧ t.sys.reader.readGen = t.sys.area.generation
    then t.seen ≤ t.sys.reader.out.length
    else t.sys.reader.out.length < t.gens ∧ (t.sys.reader.out.length < t.completed ∨
      S.lap t.gens ≠ S.lap t.sys.reader.out.length) := by
  have hcounts := h.writer.counts
  have hle := h.emitted_le
  have hroom := h.room
  have hr := h.reader
  simp only [ReaderAt, hpc] at hr
  obtain ⟨⟨hpos, hgen⟩, hwp, hseen, hor⟩ := hr
  rw [hpos, hgen, hwp, h.generation]
  generalize t.sys.reader.out.length = e at *
  split
  · next heq =>
    -- a completed put that was seen and not emitted would be a whole lap ahead
    by_contra hlate
    rcases S.wpos_lap_inj (by omega) (by omega) heq.1.symm with hsame | ⟨hlap, hne⟩
    · omega
    · have hg : t.gens = t.seen := by omega
      rw [hg] at heq
      exact hne heq.2.symm
  · next hdiff =>
    by_cases hw : S.wpos e = S.wpos t.seen
    · -- the positions agree, so the generations do not
      have hne : S.lap t.gens ≠ S.lap e := fun heq => hdiff ⟨hw, heq.symm⟩
      refine ⟨?_, Or.inr hne⟩
      by_contra hge
      exact hne (by rw [show t.gens = e by omega])
    · -- the position is ahead of the reader
      have hse : t.seen ≠ e := fun heq => hw (by rw [heq])
      have hlt : e ≤ t.seen := hor.resolve_right (fun heq => hw heq.symm)
      exact ⟨by omega, Or.inl (by omega)⟩

/-- The next byte to emit is in its slot. -/
theorem LogInv.next_byte {t : LogTrace} (h : LogInv S t)
    (hlt : t.sys.reader.out.length < t.stream.length) :
    t.sys.reader.out ++ [t.sys.area.data (S.slot t.sys.reader.out.length)] <+: t.stream := by
  have hbyte := h.data _ hlt h.room
  obtain ⟨rest, hrest⟩ := h.out
  rw [hbyte, ← hrest]
  rw [← hrest, List.length_append] at hlt
  cases rest with
  | nil => simp at hlt
  | cons b rest =>
    rw [List.getD_append_right _ _ _ _ (Nat.le_refl _), Nat.sub_self, List.getD_cons_zero]
    exact ⟨rest, by simp⟩

/-- Advancing the reader by one byte. -/
theorem ReaderPos.advance {r : LogReader} {k m : Nat} (h : ReaderPos S r k) (hm : k < m)
    (hmd : m ≤ k + S.d) (hgen : r.gen = S.lap m) :
    if r.readPos + 1 ≥ S.dataSize then S.wpos (k + 1) = 0 ∧ r.gen = S.lap (k + 1)
    else r.readPos + 1 = S.wpos (k + 1) ∧ r.readGen = S.lap (k + 1) := by
  have hwrap := S.wrapPos_succ k
  obtain ⟨hpos, hlap⟩ := h
  rw [hpos, hlap, hgen]
  unfold wrapPos at hwrap
  split
  · next hge =>
    rw [if_pos hge, Prod.mk.injEq] at hwrap
    refine ⟨hwrap.1.symm, S.lap_eq_of_slot_eq_zero ?_ hm (by omega)⟩
    rw [← S.wpos_toNat, ← hwrap.1]
    rfl
  · next hlt =>
    rw [if_neg hlt, Prod.mk.injEq] at hwrap
    exact hwrap

/-- A step of the reader that does not read a torn header. -/
theorem LogInv.reader_step {t t' : LogTrace} (h : LogInv S t)
    (hok : t.noTornRead .reader = true) (hs : t.step S.dataSize .reader = some t') :
    LogInv S t' := by
  have hr := h.reader
  have hcounts := h.writer.counts
  have hroom := h.room
  cases LogTrace.drainAccess_of_step hs with
  | mapPos hpc | mapGen hpc => simp only [ReaderAt, hpc] at hr
  | readWp hpc =>
    have htorn : t.torn = false := by simpa [LogTrace.noTornRead, hpc] using hok
    have hbehind := h.not_behind hpc htorn
    simp only [ReaderAt, hpc] at hr
    exact { h with reader := ⟨hr, h.writePos, Nat.le_refl _, hbehind⟩ }
  | stop hpc heq =>
    have hdecide := h.decide hpc
    rw [if_pos heq] at hdecide
    simp only [ReaderAt, hpc] at hr
    exact { h with reader := ⟨hr.1, hdecide⟩ }
  | goOn hpc hne =>
    have hdecide := h.decide hpc
    rw [if_neg hne] at hdecide
    simp only [ReaderAt, hpc] at hr
    -- the generation that was read is that of the last generation store
    exact { h with
      reader :=
        ⟨hr.1, t.gens, hdecide.1, Nat.le_refl _, by simp only; omega, h.generation, hdecide.2⟩ }
  | emit hpc =>
    simp only [ReaderAt, hpc] at hr
    obtain ⟨hpos, m, hm, hmg, hmd, hgen, hor⟩ := hr
    have hnext := h.next_byte (by omega)
    rw [← S.wpos_toNat, ← hpos.1] at hnext
    have hlen : ∀ b, (t.sys.reader.out ++ [b]).length = t.sys.reader.out.length + 1 := by
      intro b
      simp
    exact { h with
      emitted_le := by
        simp only [hlen]
        omega
      room := by
        simp only [hlen]
        omega
      ahead := by
        -- past the last completed put, the byte was emitted because of its generation
        simp only [hlen]
        intro he
        have hlap := hor.resolve_left (by omega)
        have hme : m = t.sys.reader.out.length + 1 := by omega
        rw [hme] at hlap
        exact S.slot_eq_zero_of_lap_ne hlap
      reader := by
        simp only [ReaderAt, hlen]
        exact ⟨_, m, rfl, hpos, hm, hmd, hgen⟩
      out := hnext }
  | wrap hpc hge =>
    simp only [ReaderAt, hpc] at hr
    obtain ⟨k, m, he, hpos, hm, hmd, hgen⟩ := hr
    have hadvance := hpos.advance hm hmd hgen
    rw [if_pos hge] at hadvance
    exact { h with
      reader := by
        simp only [ReaderAt, ReaderPos, he]
        exact ⟨hadvance.1.symm, hadvance.2⟩ }
  | next hpc hlt =>
    simp only [ReaderAt, hpc] at hr
    obtain ⟨k, m, he, hpos, hm, hmd, hgen⟩ := hr
    have hadvance := hpos.advance hm hmd hgen
    rw [if_neg hlt] at hadvance
    exact { h with
      reader := by
        simp only [ReaderAt, ReaderPos, he]
        exact hadvance }

/-- Every step without a torn read keeps the invariant. -/
theorem LogInv.step {t t' : LogTrace} {a : LogAct} (h : LogInv S t)
    (hover : t.noOverwrite S.dataSize a = true) (htorn : t.noTornRead a = true)
    (hs : t.step S.dataSize a = some t') : LogInv S t' := by
  cases a with
  | put ch => exact h.put hs
  | writer => exact h.writer_step hover hs
  | drain => exact h.drain hs
  | reader => exact h.reader_step htorn hs

end Invariant

/-! ## Runs -/

/-- In every interleaving in which the writer does not overwrite a byte that is still to
    be emitted and the reader does not read a torn header, the reader has emitted a
    prefix of the stream at every moment, and whenever `drain_new` has returned, every
    byte whose put was complete when `write_pos` was last read has been emitted. -/
theorem drainNew_faithful (S : LogStart) {acts : List LogAct} {t : LogTrace}
    (h : Run.exec (Run.guard (fun t a => t.noOverwrite S.dataSize a && t.noTornRead a)
      (LogTrace.step S.dataSize)) S.init acts = some t) :
    t.sys.reader.out <+: t.stream ∧
    (t.sys.reader.pc = .idle → t.seen ≤ t.sys.reader.out.length) := by
  have hinv : LogInv S t := by
    refine Run.exec_inv (LogInv S) ?_ (LogInv.init S) h
    intro s a s' hs hstep
    obtain ⟨hok, hstep⟩ := Run.guard_eq_some hstep
    rw [Bool.and_eq_true] at hok
    exact hs.step hok.1 hok.2 hstep
  refine ⟨hinv.out, ?_⟩
  intro hpc
  have hr := hinv.reader
  simp only [ReaderAt, hpc] at hr
  exact hr.2

/-- A ring of the default size with one slot left on the lap, full of the byte `x`. -/
def lastSlot : LogStart where
  dataSize := 65520
  pos := 65519
  gen := 0
  data := fun _ => 0x78
  pos_lt := by decide

/-- The byte `A` is put in the last slot, then `drain_new` is called and returns. -/
theorem drainNew_faithful_lastSlot : ∃ t,
    Run.exec (Run.guard (fun t a => t.noOverwrite lastSlot.dataSize a && t.noTornRead a)
      (LogTrace.step lastSlot.dataSize)) lastSlot.init
      (.put 0x41 :: List.replicate 5 .writer ++ .drain :: List.replicate 6 .reader) = some t ∧
    t.sys.reader.pc = .idle ∧ t.sys.reader.out = [0x41] ∧
    t.sys.reader.out <+: t.stream ∧
    (t.sys.reader.pc = .idle → t.seen ≤ t.sys.reader.out.length) := by
  have hrun : ∃ t,
      Run.exec (Run.guard (fun t a => t.noOverwrite lastSlot.dataSize a && t.noTornRead a)
        (LogTrace.step lastSlot.dataSize)) lastSlot.init
        (.put 0x41 :: List.replicate 5 .writer ++ .drain :: List.replicate 6 .reader) = some t ∧
      t.sys.reader.pc = .idle ∧ t.sys.reader.out = [0x41] := ⟨_, rfl, rfl, rfl⟩
  obtain ⟨t, ht, hpc, hout⟩ := hrun
  exact ⟨t, ht, hpc, hout, drainNew_faithful lastSlot ht⟩

/-- The same put is interrupted between its generation store and its `write_pos` store.
    `drain_new` emits `A`, wraps, takes the old `write_pos` for the end of a new lap and
    goes on with the stale byte in slot 0. Nothing is overwritten. -/
theorem drainNew_duplicates : ∃ t,
    Run.exec (Run.guard (LogTrace.noOverwrite lastSlot.dataSize)
      (LogTrace.step lastSlot.dataSize)) lastSlot.init
      (.put 0x41 :: List.replicate 4 .writer ++ .drain :: List.replicate 7 .reader) = some t ∧
    t.stream = [0x41] ∧ t.sys.reader.out = [0x41, 0x78] ∧
    ¬ t.sys.reader.out <+: t.stream :=
  ⟨_, rfl, rfl, rfl, by decide⟩

end OpteeRpi5.Spec
