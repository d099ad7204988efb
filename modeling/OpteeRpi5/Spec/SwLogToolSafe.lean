import Mathlib.Data.UInt
import OpteeRpi5.ForStd.Run
import OpteeRpi5.Native.SwLogTool
import OpteeRpi5.Spec.SwLogCorrect
import OpteeRpi5.Spec.SwLogRegionSafe

/-!
# What the log tool reads, and when it stops

`drain_new` stops when its position equals a `write_pos` that nobody has checked against
the size of the mapping. A position below `data_size` is always reached, and one beyond
it never is: the tool then emits the mapped bytes over and over. The first position that
it reads from is the `write_pos` at the time of `map_log`, wherever that points.

The initial position has a second effect. It is the end of the log, so a run without
`-f` has nothing to emit.

## Key results

- `drainNew_returns`: with `write_pos` in range `drain_new` returns, from any state of it
- `toolOk_iff`: the tool is safe on a header if and only if its size covers the ring and
  the position
- `oneShotWrites_iff`: the tool without `-f` writes nothing
-/

namespace OpteeRpi5.Spec

open OpteeRpi5.Native

/-! ## One turn of the loop -/

/-- `read_pos` after a byte has been emitted. -/
def nextPos (dataSize readPos : UInt32) : UInt32 :=
  if readPos + 1 ≥ dataSize then 0 else readPos + 1

/-- The number of positions of the tool: a data size of `0` keeps it at position `0`. -/
def positions (dataSize : UInt32) : Nat := max 1 dataSize.toNat

/-- The next position is one of the ring of the tool. -/
theorem nextPos_lt (dataSize readPos : UInt32) :
    (nextPos dataSize readPos).toNat < positions dataSize := by
  unfold nextPos positions
  split
  · simp
  · next h =>
    rw [ge_iff_le, UInt32.le_iff_toNat_le] at h
    omega

/-- Before the last position the next one is not wrapped. -/
theorem nextPos_of_lt {dataSize readPos : UInt32} (h : readPos.toNat + 1 < dataSize.toNat) :
    nextPos dataSize readPos = readPos + 1 ∧
      (readPos + 1).toNat = readPos.toNat + 1 := by
  have hval : (readPos + 1).toNat = readPos.toNat + 1 := by
    rw [UInt32.toNat_add, UInt32.toNat_one, Nat.mod_eq_of_lt]
    have := dataSize.toNat_lt
    omega
  refine ⟨if_neg ?_, hval⟩
  rw [ge_iff_le, UInt32.le_iff_toNat_le, hval]
  omega

/-- The last position wraps. -/
theorem last_wraps {dataSize readPos : UInt32} (h : readPos.toNat + 1 = positions dataSize) :
    readPos + 1 ≥ dataSize := by
  have hsize := dataSize.toNat_lt
  unfold positions at h
  rw [ge_iff_le, UInt32.le_iff_toNat_le, UInt32.toNat_add, UInt32.toNat_one]
  omega

section Drain

variable {dataSize : UInt32} {a : LogArea} {r : LogReader} {k : Nat}

/-- `drain_new` returns on a log that does not change, and emits at most `k` bytes more. -/
def Returns (dataSize : UInt32) (a : LogArea) (r : LogReader) (k : Nat) : Prop :=
  ∃ n, ((drainStep dataSize a)^[n] r).pc = .idle ∧
    ((drainStep dataSize a)^[n] r).out.length ≤ r.out.length + k

theorem Returns.mono {l : Nat} (h : Returns dataSize a r k) (hle : k ≤ l) :
    Returns dataSize a r l := by
  obtain ⟨n, hidle, hout⟩ := h
  exact ⟨n, hidle, by omega⟩

/-- A reader that is idle has returned. -/
theorem Returns.of_idle (h : r.pc = .idle) : Returns dataSize a r 0 :=
  ⟨0, h, Nat.le_refl _⟩

/-- A step that emits nothing. -/
theorem Returns.step {r' : LogReader} (h : Returns dataSize a r' k)
    (hstep : drainStep dataSize a r = r') (hout : r'.out = r.out) : Returns dataSize a r k := by
  obtain ⟨n, hidle, hlen⟩ := h
  refine ⟨n + 1, ?_, ?_⟩
  · rw [Function.iterate_succ_apply, hstep]
    exact hidle
  · rw [Function.iterate_succ_apply, hstep, ← hout]
    exact hlen

/-- The state at the head of the loop after a byte has been emitted. -/
def afterEmit (dataSize : UInt32) (a : LogArea) (r : LogReader) : LogReader :=
  { r with
    out := r.out ++ [a.data r.readPos.toNat]
    readPos := nextPos dataSize r.readPos
    readGen := if r.readPos + 1 ≥ dataSize then r.gen else r.readGen
    pc := .readWp }

/-- The reader moves to the next position. -/
private theorem step_advance (h : r.pc = .advance) :
    drainStep dataSize a r =
      { r with
        readPos := nextPos dataSize r.readPos
        readGen := if r.readPos + 1 ≥ dataSize then r.gen else r.readGen
        pc := .readWp } := by
  simp only [drainStep, h, nextPos]
  split <;> rfl

/-- From `emit` one byte is emitted before the next turn. -/
theorem Returns.emit (hpc : r.pc = .emit) (h : Returns dataSize a (afterEmit dataSize a r) k) :
    Returns dataSize a r (k + 1) := by
  have hsteps : (drainStep dataSize a)^[2] r = afterEmit dataSize a r := by
    have hemit : drainStep dataSize a r =
        { r with out := r.out ++ [a.data r.readPos.toNat], pc := .advance } := by
      simp only [drainStep, hpc]
    rw [Function.iterate_succ_apply, hemit, Function.iterate_one, step_advance rfl]
    rfl
  obtain ⟨n, hidle, hlen⟩ := h
  refine ⟨n + 2, ?_, ?_⟩
  · rw [Function.iterate_add_apply, hsteps]
    exact hidle
  · rw [Function.iterate_add_apply, hsteps]
    simp only [afterEmit, List.length_append, List.length_singleton] at hlen
    simp only [afterEmit]
    omega

/-- The loop condition, at its second read. -/
private theorem step_readGen (h : r.pc = .readGen) :
    drainStep dataSize a r =
      { r with
        gen := a.generation
        pc := if r.readPos = r.wp ∧ r.readGen = a.generation then .idle else .emit } := by
  simp only [drainStep, h]

/-- The reader looks at the position of the writer again. -/
private theorem step_readWp (h : r.pc = .readWp) :
    drainStep dataSize a r = { r with wp := a.writePos, pc := .readGen } := by
  simp only [drainStep, h]

/-- At the head of the loop, with the header reached. -/
theorem Returns.stop (hpc : r.pc = .readWp)
    (hpos : r.readPos = a.writePos) (hgen : r.readGen = a.generation) :
    Returns dataSize a r 0 := by
  refine Returns.step ?_ (step_readWp hpc) rfl
  refine Returns.step (Returns.of_idle ?_) (step_readGen rfl) rfl
  exact if_pos ⟨hpos, hgen⟩

/-- A turn of the loop that emits a byte. The new generation of the reader is that of the
    header if it wraps. -/
theorem Returns.turn (hpc : r.pc = .readWp)
    (hgo : ¬ (r.readPos = a.writePos ∧ r.readGen = a.generation))
    (h : ∀ r', r'.pc = .readWp → r'.readPos = nextPos dataSize r.readPos →
      (r'.readGen = if r.readPos + 1 ≥ dataSize then a.generation else r.readGen) →
      Returns dataSize a r' k) :
    Returns dataSize a r (k + 1) := by
  refine Returns.step ?_ (step_readWp hpc) rfl
  refine Returns.step ?_ (step_readGen rfl) rfl
  exact Returns.emit (if_neg hgo) (h _ rfl rfl rfl)

/-! ## A position in range is reached -/

/-- In the lap of the header, before its position. -/
private theorem returns_of_le (hwp : a.writePos.toNat < positions dataSize) (d : Nat)
    (hpc : r.pc = .readWp) (hgen : r.readGen = a.generation)
    (hd : r.readPos.toNat + d = a.writePos.toNat) : Returns dataSize a r d := by
  -- on the distance to the write position, in the same lap
  induction d generalizing r with
  | zero => exact Returns.stop hpc (UInt32.toNat_inj.mp hd) hgen
  | succ d ih =>
    have hlt : r.readPos.toNat + 1 < dataSize.toNat := by
      unfold positions at hwp
      omega
    obtain ⟨hnext, hval⟩ := nextPos_of_lt hlt
    have hgo : ¬ (r.readPos + 1 ≥ dataSize) := by
      rw [ge_iff_le, UInt32.le_iff_toNat_le, hval]
      omega
    refine Returns.turn hpc ?_ ?_
    · rintro ⟨hpos, -⟩
      rw [hpos] at hd
      omega
    · intro r' hpc' hpos' hgen'
      rw [if_neg hgo] at hgen'
      refine ih hpc' (hgen'.trans hgen) ?_
      rw [hpos', hnext, hval]
      omega

/-- At the start of the lap of the header. -/
private theorem returns_of_wrapped {r r' : LogReader} (hwp : a.writePos.toNat < positions dataSize)
    (hwrap : r.readPos + 1 ≥ dataSize) (hpc : r'.pc = .readWp)
    (hpos : r'.readPos = nextPos dataSize r.readPos)
    (hgen : r'.readGen = if r.readPos + 1 ≥ dataSize then a.generation else r.readGen) :
    Returns dataSize a r' a.writePos.toNat := by
  rw [if_pos hwrap] at hgen
  rw [nextPos, if_pos hwrap] at hpos
  refine returns_of_le hwp _ hpc hgen ?_
  rw [hpos, UInt32.toNat_zero, Nat.zero_add]

/-- From a position of the ring: to its end at most, and then to the header's position. -/
private theorem returns_of_pos_lt (hwp : a.writePos.toNat < positions dataSize) (d : Nat)
    (hpc : r.pc = .readWp) (hd : r.readPos.toNat + 1 + d = positions dataSize) :
    Returns dataSize a r (d + 1 + a.writePos.toNat) := by
  induction d generalizing r with
  | zero =>
    -- the last position: the next turn is in the lap of the header
    by_cases hstop : r.readPos = a.writePos ∧ r.readGen = a.generation
    · exact (Returns.stop hpc hstop.1 hstop.2).mono (Nat.zero_le _)
    · have hwrap : r.readPos + 1 ≥ dataSize := last_wraps (by omega)
      refine (Returns.turn hpc hstop (k := a.writePos.toNat) ?_).mono (by omega)
      intro r' hpc' hpos' hgen'
      exact returns_of_wrapped hwp hwrap hpc' hpos' hgen'
  | succ d ih =>
    by_cases hstop : r.readPos = a.writePos ∧ r.readGen = a.generation
    · exact (Returns.stop hpc hstop.1 hstop.2).mono (Nat.zero_le _)
    · have hlt : r.readPos.toNat + 1 < dataSize.toNat := by
        unfold positions at hd
        omega
      obtain ⟨hnext, hval⟩ := nextPos_of_lt hlt
      refine (Returns.turn hpc hstop (k := d + 1 + a.writePos.toNat) ?_).mono (by omega)
      intro r' hpc' hpos' _
      refine ih hpc' ?_
      rw [hpos', hnext, hval]
      omega

/-- From inside its ring the reader gets to the writer within one lap. -/
private theorem returns_of_ring (hwp : a.writePos.toNat < positions dataSize)
    (hpc : r.pc = .readWp) (hpos : r.readPos.toNat < positions dataSize) :
    Returns dataSize a r (positions dataSize + a.writePos.toNat) := by
  refine (returns_of_pos_lt hwp (positions dataSize - 1 - r.readPos.toNat) hpc ?_).mono ?_
  · omega
  · omega

/-- At the head of the loop, wherever the reader is: it is in the ring after one byte. -/
private theorem returns_of_readWp (hwp : a.writePos.toNat < positions dataSize)
    (hpc : r.pc = .readWp) : Returns dataSize a r (positions dataSize + a.writePos.toNat + 1) := by
  by_cases hstop : r.readPos = a.writePos ∧ r.readGen = a.generation
  · exact (Returns.stop hpc hstop.1 hstop.2).mono (Nat.zero_le _)
  · refine Returns.turn hpc hstop ?_
    intro r' hpc' hpos' _
    refine returns_of_ring hwp hpc' ?_
    rw [hpos']
    exact nextPos_lt _ _

/-- With `write_pos` in range `drain_new` returns, from every state that it can be in, also
    with the locals of an earlier header. It emits at most two rings. -/
theorem drainNew_returns (r : LogReader) (hwp : a.writePos.toNat < positions dataSize) :
    Returns dataSize a r (2 * positions dataSize) := by
  -- after a byte the position is inside the ring, whatever it was before
  have hemit : ∀ r : LogReader, r.pc = .emit →
      Returns dataSize a r (positions dataSize + a.writePos.toNat + 1) := fun r hpc =>
    Returns.emit hpc (returns_of_ring hwp rfl (nextPos_lt _ _))
  have hbound : positions dataSize + a.writePos.toNat + 1 ≤ 2 * positions dataSize := by omega
  cases hpc : r.pc with
  | idle => exact (Returns.of_idle hpc).mono (Nat.zero_le _)
  | mapPos =>
    have hmap : drainStep dataSize a r = { r with readPos := a.writePos, pc := .mapGen } := by
      simp only [drainStep, hpc]
    refine Returns.step ?_ hmap rfl
    exact Returns.step ((Returns.of_idle rfl).mono (Nat.zero_le _)) rfl rfl
  | mapGen =>
    have hmap : drainStep dataSize a r = { r with readGen := a.generation, pc := .idle } := by
      simp only [drainStep, hpc]
    exact Returns.step ((Returns.of_idle rfl).mono (Nat.zero_le _)) hmap rfl
  | readWp => exact (returns_of_readWp hwp hpc).mono hbound
  | readGen =>
    refine Returns.step ?_ (step_readGen hpc) rfl
    by_cases hstop : r.readPos = r.wp ∧ r.readGen = a.generation
    · exact (Returns.of_idle (if_pos hstop)).mono (Nat.zero_le _)
    · exact (hemit _ (if_neg hstop)).mono hbound
  | emit => exact (hemit r hpc).mono hbound
  | advance =>
    refine Returns.step ?_ (step_advance hpc) rfl
    exact (returns_of_ring hwp rfl (nextPos_lt _ _)).mono (by omega)

/-! ## A position out of range is not -/

/-- The loop goes on for ever. Before the loop condition is read the header must differ
    from the reader; after a byte has been emitted it does. -/
def Stuck (a : LogArea) (r : LogReader) : Prop :=
  match r.pc with
  | .mapPos | .mapGen | .idle => False
  | .readWp => ¬ (r.readPos = a.writePos ∧ r.readGen = a.generation)
  | .readGen => r.wp = a.writePos ∧ ¬ (r.readPos = a.writePos ∧ r.readGen = a.generation)
  | .emit | .advance => True

/-- A reader that never meets the writer goes on. -/
theorem stuck_step (hwp : positions dataSize ≤ a.writePos.toNat) (h : Stuck a r) :
    Stuck a (drainStep dataSize a r) := by
  unfold Stuck at h
  cases hpc : r.pc with
  | mapPos | mapGen | idle =>
    rw [hpc] at h
    exact h.elim
  | readWp =>
    rw [hpc] at h
    rw [step_readWp hpc]
    exact ⟨rfl, h⟩
  | readGen =>
    rw [hpc] at h
    have hgo : ¬ (r.readPos = r.wp ∧ r.readGen = a.generation) := by
      rw [h.1]
      exact h.2
    rw [step_readGen hpc, if_neg hgo]
    trivial
  | emit =>
    simp only [drainStep, hpc]
    trivial
  | advance =>
    -- the new position is in range, that of the header is not
    rw [step_advance hpc]
    rintro ⟨hpos, -⟩
    have hlt := nextPos_lt dataSize r.readPos
    rw [show nextPos dataSize r.readPos = a.writePos from hpos] at hlt
    omega

/-- So it does not return. -/
theorem stuck_never_idle (hwp : positions dataSize ≤ a.writePos.toNat) (h : Stuck a r) (n : Nat) :
    ((drainStep dataSize a)^[n] r).pc ≠ .idle := by
  have hn : Stuck a ((drainStep dataSize a)^[n] r) := by
    induction n with
    | zero => exact h
    | succ n ih =>
      rw [Function.iterate_succ_apply']
      exact stuck_step hwp ih
  intro hidle
  unfold Stuck at hn
  rw [hidle] at hn
  exact hn

end Drain

/-! ## Tool and writer -/

/-- The position of a put that has passed the first bounds check of `sw_log_putc`. -/
def PutInRing (w : LogWriter) : Prop :=
  w.pc = .writeData ∨ w.pc = .writeGen ∨ w.pc = .writePos → w.pos < ringDataSize

/-- The indices that have been read are those of the mapping, and if the header does not
    change any more then `drain_new` returns within two rings. -/
structure ToolOk (size : UInt64) (s : LogTool) : Prop where
  inBounds : ∀ i ∈ s.reads, i < size.toNat - 16
  returns : Returns (toolDataSize size) s.area s.reader (2 * (size.toNat - 16))

/-- The data size is at most the part of the mapping after the header, and smaller if that
    does not fit in 32 bits. -/
theorem positions_le {size : UInt64} (h : 17 ≤ size) :
    positions (toolDataSize size) ≤ size.toNat - 16 := by
  have hsize : 17 ≤ size.toNat := UInt64.le_iff_toNat_le.mp h
  have hsub : (size - 16).toNat = size.toNat - 16 :=
    UInt64.toNat_sub_of_le _ _ (UInt64.le_iff_toNat_le.mpr (by
      rw [show (16 : UInt64).toNat = 16 from rfl]
      omega))
  unfold positions toolDataSize
  rw [UInt64.toNat_toUInt32, hsub]
  have hmod := Nat.mod_le (size.toNat - 16) (2 ^ 32)
  omega

section Tool

variable {size : UInt64} {s s' : LogTool}

/-- A step of the tool or of the writer. -/
inductive ToolStep (size : UInt64) (s : LogTool) : LogAct → LogTool → Prop where
  | put (ch : UInt8) :
    ToolStep size s (.put ch) { s with writer := { s.writer with ch := ch, pc := .readPos } }
  | writer :
    ToolStep size s .writer { s with
      area := (putcStep ringDataSize s.area s.writer).1
      writer := (putcStep ringDataSize s.area s.writer).2 }
  | drain : ToolStep size s .drain { s with reader := { s.reader with pc := .readWp } }
  | reader :
    ToolStep size s .reader { s with
      reader := drainStep (toolDataSize size) s.area s.reader
      reads := if s.reader.pc = .emit then s.reads ++ [s.reader.readPos.toNat] else s.reads }

/-- Every step starts a put or a drain, or is one access of them. -/
theorem toolStep_of_step {act : LogAct} (hs : s.step size act = some s') :
    ToolStep size s act s' := by
  cases act with
  | put ch =>
    obtain ⟨t, ht, rfl⟩ := Option.map_eq_some_iff.mp hs
    obtain ⟨-, ⟨⟩⟩ := Option.ite_none_right_eq_some.mp ht
    exact .put ch
  | writer =>
    obtain ⟨t, ht, rfl⟩ := Option.map_eq_some_iff.mp hs
    obtain ⟨-, ⟨⟩⟩ := Option.ite_none_left_eq_some.mp ht
    exact .writer
  | drain =>
    obtain ⟨t, ht, rfl⟩ := Option.map_eq_some_iff.mp hs
    obtain ⟨-, ⟨⟩⟩ := Option.ite_none_right_eq_some.mp ht
    exact .drain
  | reader =>
    obtain ⟨t, ht, rfl⟩ := Option.map_eq_some_iff.mp hs
    obtain ⟨-, ⟨⟩⟩ := Option.ite_none_left_eq_some.mp ht
    exact .reader

/-- What the secure world keeps: the header's position is below a bound that covers the
    ring. -/
structure HeaderBelow (n : Nat) (s : LogTool) : Prop where
  header : s.area.writePos.toNat < n
  writer : PutInRing s.writer

/-- What the tool keeps: its position and the indices it has read are below a bound. -/
structure ReadsBelow (n : Nat) (s : LogTool) : Prop where
  attached : s.reader.pc ≠ .mapPos
  pos : s.reader.readPos.toNat < n
  reads : ∀ i ∈ s.reads, i < n

/-- The writer stays in its own ring. -/
theorem putcStep_below {n : Nat} {a : LogArea} {w : LogWriter} (hn : ringDataSize.toNat ≤ n)
    (ha : a.writePos.toNat < n) (hw : PutInRing w) :
    (putcStep ringDataSize a w).1.writePos.toNat < n ∧ PutInRing (putcStep ringDataSize a w).2 := by
  have hring : 0 < ringDataSize := by decide
  unfold putcStep
  cases hpc : w.pc with
  | idle => exact ⟨ha, hw⟩
  | readPos => exact ⟨ha, fun h => by simp at h⟩
  | readGen => exact ⟨ha, fun _ => wrapPos_fst_lt hring _ _⟩
  | writeData => exact ⟨ha, fun _ => wrapPos_fst_lt hring _ _⟩
  | writeGen => exact ⟨ha, fun _ => hw (by simp [hpc])⟩
  | writePos =>
    have hpos : w.pos < ringDataSize := hw (by simp [hpc])
    exact ⟨Nat.lt_of_lt_of_le (UInt32.lt_iff_toNat_lt.mp hpos) hn, fun h => by simp at h⟩

/-- The position in the header stays below the bound. -/
theorem headerBelow_step {n : Nat} (hn : ringDataSize.toNat ≤ n) {act : LogAct}
    (h : HeaderBelow n s) (hs : s.step size act = some s') : HeaderBelow n s' := by
  cases toolStep_of_step hs with
  | put ch => exact ⟨h.header, fun hpc => by simp at hpc⟩
  | writer =>
    obtain ⟨hheader, hwriter⟩ := putcStep_below hn h.header h.writer
    exact ⟨hheader, hwriter⟩
  | drain => exact ⟨h.header, h.writer⟩
  | reader => exact ⟨h.header, h.writer⟩

/-- `map_log` sets the position once, and `drain_new` keeps it in range. -/
theorem drainStep_pos_lt {n : Nat} {dataSize : UInt32} {a : LogArea} {r : LogReader}
    (hn : positions dataSize ≤ n) (hmap : r.pc ≠ .mapPos) (hpos : r.readPos.toNat < n) :
    (drainStep dataSize a r).pc ≠ .mapPos ∧ (drainStep dataSize a r).readPos.toNat < n := by
  cases hpc : r.pc with
  | mapPos => exact absurd hpc hmap
  | advance =>
    rw [step_advance hpc]
    exact ⟨by simp, Nat.lt_of_lt_of_le (nextPos_lt _ _) hn⟩
  | readGen =>
    rw [step_readGen hpc]
    refine ⟨?_, hpos⟩
    split <;> simp
  | mapGen | idle | readWp | emit =>
    simp only [drainStep, hpc]
    exact ⟨by simp, hpos⟩

/-- The reads of the tool stay below the bound. -/
theorem readsBelow_step {n : Nat} (hn : positions (toolDataSize size) ≤ n) {act : LogAct}
    (h : ReadsBelow n s) (hs : s.step size act = some s') : ReadsBelow n s' := by
  cases toolStep_of_step hs with
  | put ch => exact ⟨h.attached, h.pos, h.reads⟩
  | writer => exact ⟨h.attached, h.pos, h.reads⟩
  | drain => exact ⟨by simp, h.pos, h.reads⟩
  | reader =>
    obtain ⟨hattached, hpos⟩ := drainStep_pos_lt (a := s.area) hn h.attached h.pos
    refine ⟨hattached, hpos, ?_⟩
    intro i hi
    simp only at hi
    split at hi
    · rcases List.mem_append.mp hi with hold | hnew
      · exact h.reads i hold
      · rw [List.mem_singleton.mp hnew]
        exact h.pos
    · exact h.reads i hi

/-! ### Headers that an idle writer comes to -/

/-- A put that is not interrupted leaves the position in the ring, further on or in a new
    lap. -/
private theorem exec_onePut (size : UInt64) (ch : UInt8) {s : LogTool}
    (hidle : s.writer.pc = .idle) : ∃ s',
    Run.exec (LogTool.step size) s (putActs ch) = some s' ∧ s'.writer.pc = .idle ∧
    s'.reader = s.reader ∧
    (s'.area.writePos, s'.area.generation) =
      wrapPos ringDataSize ((wrapPos ringDataSize s.area.writePos s.area.generation).1 + 1)
        (wrapPos ringDataSize s.area.writePos s.area.generation).2 := by
  obtain ⟨⟨area, ⟨pc, ch', pos, gen⟩, reader⟩, reads⟩ := s
  cases hidle
  exact ⟨_, rfl, rfl, rfl, rfl⟩

/-- Before the last slot a put goes on to the next one. -/
private theorem wrapPos_next {wp gen : UInt32} (h : wp.toNat + 1 < ringDataSize.toNat) :
    wrapPos ringDataSize ((wrapPos ringDataSize wp gen).1 + 1) (wrapPos ringDataSize wp gen).2 =
      (wp + 1, gen) := by
  have hnext : (wp + 1).toNat = wp.toNat + 1 := by
    have hring : ringDataSize.toNat = 65520 := rfl
    rw [UInt32.toNat_add, UInt32.toNat_one]
    omega
  have hlt : ¬ wp ≥ ringDataSize := by
    rw [ge_iff_le, UInt32.le_iff_toNat_le]
    omega
  have hlt' : ¬ wp + 1 ≥ ringDataSize := by
    rw [ge_iff_le, UInt32.le_iff_toNat_le, hnext]
    omega
  simp only [wrapPos, if_neg hlt, if_neg hlt']

/-- From the last slot, or from a position that is none, a put begins a new lap. -/
private theorem wrapPos_newLap (wp gen : UInt32) (h : ringDataSize.toNat ≤ wp.toNat + 1) :
    (wrapPos ringDataSize ((wrapPos ringDataSize wp gen).1 + 1)
        (wrapPos ringDataSize wp gen).2).2 = gen + 1 := by
  by_cases hge : wp ≥ ringDataSize
  · -- clamped to the first slot, whose successor is no end
    have hone : ¬ (0 : UInt32) + 1 ≥ ringDataSize := by decide
    simp only [wrapPos, if_pos hge, if_neg hone]
  · have hlast : wp + 1 ≥ ringDataSize := by
      rw [ge_iff_le, UInt32.le_iff_toNat_le] at hge ⊢
      have hring : ringDataSize.toNat = 65520 := rfl
      rw [UInt32.toNat_add, UInt32.toNat_one]
      omega
    simp only [wrapPos, if_neg hge, if_pos hlast]

/-- Puts up to a slot of the same lap. -/
private theorem exec_fill (size : UInt64) (ch : UInt8) (k : Nat) {s : LogTool}
    (hidle : s.writer.pc = .idle) (hk : s.area.writePos.toNat + k < ringDataSize.toNat) : ∃ s',
    Run.exec (LogTool.step size) s (List.replicate k (putActs ch)).flatten = some s' ∧
    s'.reader = s.reader ∧ s'.area.writePos.toNat = s.area.writePos.toNat + k ∧
    s'.area.generation = s.area.generation := by
  -- the header is followed only up to the last slot, where a put starts a new lap
  have hround : ∀ n (t : LogTool), (t.writer.pc = .idle ∧ t.reader = s.reader ∧
        (n < ringDataSize.toNat →
          t.area.writePos.toNat = n ∧ t.area.generation = s.area.generation)) →
      ∃ t', Run.exec (LogTool.step size) t (putActs ch) = some t' ∧
        (t'.writer.pc = .idle ∧ t'.reader = s.reader ∧ (n + 1 < ringDataSize.toNat →
          t'.area.writePos.toNat = n + 1 ∧ t'.area.generation = s.area.generation)) := by
    rintro n t ⟨hidle, hreader, hheader⟩
    obtain ⟨t', hrun, hidle', hreader', hput⟩ := exec_onePut size ch hidle
    refine ⟨t', hrun, hidle', hreader'.trans hreader, fun hn => ?_⟩
    obtain ⟨hwp, hgen⟩ := hheader (by omega)
    rw [wrapPos_next (by omega), Prod.mk.injEq] at hput
    have hring : ringDataSize.toNat = 65520 := rfl
    refine ⟨?_, hput.2.trans hgen⟩
    rw [hput.1, UInt32.toNat_add, UInt32.toNat_one]
    omega
  obtain ⟨s', hrun, -, hreader, hheader⟩ :=
    Run.exec_rounds _ hround k ⟨hidle, rfl, fun _ => ⟨rfl, rfl⟩⟩
  exact ⟨s', hrun, hreader, hheader hk⟩

/-- The tool has attached to the header and calls `drain_new`. -/
private theorem exec_attach (size : UInt64) (a : LogArea) (w : LogWriter) :
    Run.exec (LogTool.step size) (.start a w) [.reader, .reader, .drain] =
      some ⟨⟨a, w, ⟨.readWp, a.writePos, a.generation, 0, 0, []⟩⟩, []⟩ :=
  rfl

/-- Once it has attached the tool does not come to an end at a header that is out of its
    reach and not the one it has found. -/
private theorem not_toolOk_of_header {a : LogArea}
    (hreader : s.reader = ⟨.readWp, a.writePos, a.generation, 0, 0, []⟩)
    (hwp : positions (toolDataSize size) ≤ s.area.writePos.toNat)
    (hne : s.area.generation ≠ a.generation ∨ a.writePos.toNat < s.area.writePos.toNat) :
    ¬ ToolOk size s := by
  intro hok
  obtain ⟨n, hidle, -⟩ := hok.returns
  refine stuck_never_idle hwp ?_ n hidle
  rw [hreader]
  rintro ⟨hpos, hgen⟩
  rcases hne with hne | hlt
  · exact hne hgen.symm
  · have heq : a.writePos = s.area.writePos := hpos
    rw [heq] at hlt
    exact absurd hlt (Nat.lt_irrefl _)

/-- The tool's data size covers the ring, but the position is beyond it: the next put stores
    its generation while the old position is still there. -/
private theorem exists_beyond (size : UInt64) (a : LogArea)
    (h : ringDataSize.toNat ≤ a.writePos.toNat) : ∃ acts s,
    Run.exec (LogTool.step size) (.start a ⟨.idle, 0, 0, 0⟩) (.reader :: acts) = some s ∧
    s.reader = ⟨.readWp, a.writePos, a.generation, 0, 0, []⟩ ∧
    s.area.writePos = a.writePos ∧ s.area.generation = a.generation + 1 :=
  ⟨[.reader, .drain, .put 0, .writer, .writer, .writer, .writer], _, rfl, rfl, rfl,
    wrapPos_newLap a.writePos a.generation (by omega)⟩

/-- The tool's data size does not cover the ring: puts take the position to the last slot. -/
private theorem exists_lastSlot (size : UInt64) (a : LogArea) : ∃ acts s,
    Run.exec (LogTool.step size) (.start a ⟨.idle, 0, 0, 0⟩) (.reader :: acts) = some s ∧
    s.reader = ⟨.readWp, a.writePos, a.generation, 0, 0, []⟩ ∧
    s.area.writePos.toNat + 1 = ringDataSize.toNat ∧
    (s.area.generation ≠ a.generation ∨ a.writePos.toNat < s.area.writePos.toNat) := by
  obtain ⟨s₁, h₁, hidle₁, hreader₁, hput⟩ := exec_onePut size 0
    (s := ⟨⟨a, ⟨.idle, 0, 0, 0⟩, ⟨.readWp, a.writePos, a.generation, 0, 0, []⟩⟩, []⟩) rfl
  have hlt : s₁.area.writePos.toNat < ringDataSize.toNat := by
    have h := wrapPos_fst_lt (show 0 < ringDataSize by decide)
      ((wrapPos ringDataSize a.writePos a.generation).1 + 1)
      (wrapPos ringDataSize a.writePos a.generation).2
    rw [← hput] at h
    exact UInt32.lt_iff_toNat_lt.mp h
  -- and then up to the last slot of the ring
  obtain ⟨s, h, hreader, hwp, hgen⟩ := exec_fill size 0
    (ringDataSize.toNat - 1 - s₁.area.writePos.toNat) hidle₁ (by omega)
  refine ⟨[.reader, .drain] ++ (putActs 0 ++ (List.replicate
    (ringDataSize.toNat - 1 - s₁.area.writePos.toNat) (putActs 0)).flatten), s, ?_,
    hreader.trans hreader₁, by omega, ?_⟩
  · show Run.exec (LogTool.step size) _ ([.reader, .reader, .drain] ++ _) = _
    rw [Run.exec_append, exec_attach, Option.bind_some, Run.exec_append, h₁]
    exact h
  · rw [hgen]
    -- the first put either began a new lap or moved past the position
    by_cases hlap : ringDataSize.toNat ≤ a.writePos.toNat + 1
    · left
      have hnew : s₁.area.generation = a.generation + 1 :=
        (congrArg Prod.snd hput).trans (wrapPos_newLap _ _ hlap)
      rw [hnew]
      simp
    · right
      rw [wrapPos_next (show a.writePos.toNat + 1 < _ by omega), Prod.mk.injEq] at hput
      have hring : ringDataSize.toNat = 65520 := rfl
      rw [hwp, hput.1, UInt32.toNat_add, UInt32.toNat_one]
      omega

/-- For every size and every header that `map_log` finds: whatever the writer of the ring
    does later, in the middle of a put or not, the tool reads in range and returns when the
    header stops to change, if and only if its data size covers the ring and the position
    in the header. -/
theorem toolOk_iff (size : UInt64) (hsize : 17 ≤ size) (a : LogArea) :
    (∀ w acts s, PutInRing w →
      Run.exec (LogTool.step size) (.start a w) (.reader :: acts) = some s → ToolOk size s) ↔
    ringDataSize ≤ toolDataSize size ∧ a.writePos < toolDataSize size := by
  have hle := positions_le hsize
  constructor
  · intro hok
    by_contra hout
    have hidle : PutInRing ⟨.idle, 0, 0, 0⟩ := fun h => by simp at h
    have hbig : ringDataSize.toNat = 65520 := rfl
    -- either the tool sees a shorter ring than the writer, or it starts beyond the end
    by_cases hring : ringDataSize ≤ toolDataSize size
    · have hge : toolDataSize size ≤ a.writePos := UInt32.not_lt.mp fun h => hout ⟨hring, h⟩
      rw [UInt32.le_iff_toNat_le] at hge hring
      obtain ⟨acts, s, hrun, hreader, hwp, hgen⟩ := exists_beyond size a (hring.trans hge)
      refine not_toolOk_of_header hreader ?_ (.inl (by simp [hgen])) (hok _ _ _ hidle hrun)
      rw [hwp]
      unfold positions
      omega
    · obtain ⟨acts, s, hrun, hreader, hwp, hne⟩ := exists_lastSlot size a
      refine not_toolOk_of_header hreader ?_ hne (hok _ _ _ hidle hrun)
      have hlt : (toolDataSize size).toNat < ringDataSize.toNat :=
        UInt32.lt_iff_toNat_lt.mp (UInt32.not_le.mp hring)
      unfold positions
      omega
  · rintro ⟨hring, hpos⟩ w acts s hw hs
    have hwp : a.writePos.toNat < positions (toolDataSize size) :=
      Nat.lt_of_lt_of_le (UInt32.lt_iff_toNat_lt.mp hpos) (Nat.le_max_right _ _)
    have hcover : ringDataSize.toNat ≤ positions (toolDataSize size) :=
      Nat.le_trans (UInt32.le_iff_toNat_le.mp hring) (Nat.le_max_right _ _)
    have hheader : HeaderBelow (positions (toolDataSize size)) s :=
      Run.exec_inv _ (fun _ _ _ h hs => headerBelow_step hcover h hs) ⟨hwp, hw⟩ hs
    have hreads : ReadsBelow (size.toNat - 16) s := by
      have hmap : LogTool.step size (.start a w) .reader =
          some { LogTool.start a w with reader := ⟨.mapGen, a.writePos, 0, 0, 0, []⟩ } := rfl
      rw [Run.exec, hmap] at hs
      refine Run.exec_inv _ (fun _ _ _ h hs => readsBelow_step hle h hs) ?_ hs
      exact ⟨by simp, Nat.lt_of_lt_of_le hwp hle, fun i hi => absurd hi List.not_mem_nil⟩
    exact ⟨hreads.reads, (drainNew_returns s.reader hheader.header).mono (by omega)⟩

end Tool

/-- A byte is put while the tool attaches, and then `drain_new` emits it. -/
def onePutRun : List LogAct :=
  [.reader, .reader, .put 65, .writer, .writer, .writer, .writer, .writer,
    .drain, .reader, .reader, .reader, .reader]

/-- With the default size and a header of the ring the tool is safe. -/
theorem toolOk_default :
    ∃ s, Run.exec (LogTool.step rpi5SwLogSizeDefault) (.start ⟨500, 0, fun _ => 0⟩ ⟨.idle, 0, 0, 0⟩)
        onePutRun = some s ∧
      s.reader.out = [65] ∧ ToolOk rpi5SwLogSizeDefault s := by
  refine ⟨_, rfl, by decide, ?_⟩
  have hok := (toolOk_iff rpi5SwLogSizeDefault (by decide) ⟨500, 0, fun _ => 0⟩).mpr (by decide)
  exact hok ⟨.idle, 0, 0, 0⟩ onePutRun.tail _ (fun h => by simp at h) rfl

/-- One byte is put after the tool has attached, with a size of 17, to a ring at position
    500. -/
def smallSizeRun : List LogAct :=
  [.reader, .reader, .put 65, .writer, .writer, .writer, .writer, .writer,
    .drain, .reader, .reader, .reader]

/-- The tool has read `data[500]` of a mapping with one data byte, and it does not return. -/
theorem small_size_reads_out_of_bounds :
    ∃ s, Run.exec (LogTool.step 17) (.start ⟨500, 0, fun _ => 0⟩ ⟨.idle, 0, 0, 0⟩) smallSizeRun =
        some s ∧
      s.reads = [500] ∧ (17 : UInt64).toNat - 16 = 1 ∧
      ∀ n, ((drainStep (toolDataSize 17) s.area)^[n] s.reader).pc ≠ .idle := by
  refine ⟨_, rfl, rfl, rfl, ?_⟩
  intro n
  refine stuck_never_idle ?_ ?_ n
  · exact (by decide : positions (toolDataSize 17) ≤ (501 : UInt32).toNat)
  · trivial

/-! ## Without `-f` -/

/-- The tool without `-f` comes to its end and has written `out`. -/
def OneShotWrites (size : UInt64) (a : LogArea) (out : List UInt8) : Prop :=
  ∃ n, (oneShot size a n).pc = .idle ∧ (oneShot size a n).out = out

/-- The position that `map_log` takes is the one at which `drain_new` stops. -/
private theorem oneShot_add_two (size : UInt64) (a : LogArea) (n : Nat) :
    (oneShot size a (n + 2)).pc = .idle ∧ (oneShot size a (n + 2)).out = [] := by
  induction n with
  | zero =>
    have hstop : oneShot size a 2 =
        { pc := if a.writePos = a.writePos ∧ a.generation = a.generation then .idle else .emit,
          readPos := a.writePos, readGen := a.generation, wp := a.writePos, gen := a.generation,
          out := [] } := rfl
    rw [hstop, if_pos ⟨rfl, rfl⟩]
    exact ⟨rfl, rfl⟩
  | succ n ih =>
    have hidle : oneShot size a (n + 3) = oneShot size a (n + 2) := by
      rw [oneShot, Function.iterate_succ_apply', ← oneShot]
      simp only [drainStep, ih.1]
    rw [hidle]
    exact ih

/-- On every log that does not change, the tool without `-f` writes nothing. -/
theorem oneShotWrites_iff (size : UInt64) (a : LogArea) (out : List UInt8) :
    OneShotWrites size a out ↔ out = [] := by
  constructor
  · rintro ⟨n, hidle, rfl⟩
    match n, hidle with
    | 0, hidle => cases hidle
    | 1, hidle => cases hidle
    | n + 2, _ => exact (oneShot_add_two size a n).2
  · rintro rfl
    exact ⟨2, oneShot_add_two size a 0⟩

/-- The log after the bytes have been put, from a zeroed header. -/
def putAll (data : Nat → UInt8) (bytes : List UInt8) : LogArea :=
  bytes.foldl swLogPutc ⟨0, 0, data⟩

/-- The last bytes that fit in the ring. -/
def lastBytes (bytes : List UInt8) : List UInt8 :=
  bytes.drop (bytes.length - min bytes.length 65520)

/-- For every list of bytes that have been put, the tool without `-f` writes the last ones if
    and only if there are none. -/
theorem oneShot_dumps_iff (data : Nat → UInt8) (bytes : List UInt8) :
    OneShotWrites rpi5SwLogSizeDefault (putAll data bytes) (lastBytes bytes) ↔ bytes = [] := by
  rw [oneShotWrites_iff, lastBytes, List.drop_eq_nil_iff, ← List.length_eq_zero_iff]
  omega

/-- After one byte has been put it is the last one, and nothing is written. -/
theorem oneShot_misses_byte :
    lastBytes [65] = [65] ∧
    OneShotWrites rpi5SwLogSizeDefault (putAll (fun _ => 0) [65]) [] ∧
    ¬ OneShotWrites rpi5SwLogSizeDefault (putAll (fun _ => 0) [65]) (lastBytes [65]) := by
  refine ⟨rfl, (oneShotWrites_iff _ _ _).mpr rfl, ?_⟩
  rw [oneShotWrites_iff]
  decide

end OpteeRpi5.Spec
