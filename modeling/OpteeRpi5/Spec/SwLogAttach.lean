import OpteeRpi5.Spec.SwLogCorrect

/-!
# Where the log tool attaches

`map_log` ends with two reads of the header, first `write_pos` and then `generation`, and
takes the pair for the position of the reader. The writer may go on in between. If it
crosses the end of the ring, the pair is the position on the next lap, which has not been
reached: once the writer gets there `drain_new` takes the ring for empty, with a whole lap
of bytes to emit. The same happens if the generation of a put that wraps is stored and its
position is not.

## Key results

- `MapLogRun`: `map_log` among the steps of the writer
- `attachedInv_step`: what holds after it until a byte is emitted
- `mapLog_attaches_iff`: when the pair is the position of a moment between the two reads
- `mapLog_torn`: one put at the end of the ring, between the two reads
-/

namespace OpteeRpi5.Spec

open OpteeRpi5.Native

/-! ## Numbers of puts -/

namespace LogStart

variable (S : LogStart)

/-- The number of puts, the header at the start counted by its laps and its position. -/
def total (k : Nat) : Nat := S.gen.toNat * S.d + S.pos.toNat + k

/-- The slot of a byte. -/
theorem total_mod (k : Nat) : S.total k % S.d = S.slot k := by
  rw [total, Nat.add_assoc, Nat.mul_comm, Nat.mul_add_mod, slot]

/-- The lap of a byte. -/
theorem total_div (k : Nat) : S.total k / S.d = S.gen.toNat + (S.pos.toNat + k) / S.d := by
  rw [total, Nat.add_assoc, Nat.mul_comm, Nat.mul_add_div S.d_pos]

/-- Bytes are counted in the order they are stored. -/
theorem total_le_total {k m : Nat} : S.total k ≤ S.total m ↔ k ≤ m := by
  unfold total
  omega

/-- The position in the header, by the count. -/
theorem wpos_eq_total (k : Nat) : (S.wpos k).toNat = S.total k % S.d := by
  rw [S.wpos_toNat, S.total_mod]

/-- The generation in the header, by the count, which wraps. -/
theorem lap_eq_total (k : Nat) : (S.lap k).toNat = S.total k / S.d % 2 ^ 32 := by
  rw [lap, UInt32.toNat_add, UInt32.toNat_ofNat', Nat.add_mod_mod, S.total_div]

/-- A put that leaves position `0` is one that completes a lap. -/
theorem total_succ_div (k : Nat) :
    S.total (k + 1) / S.d = S.total k / S.d ↔ S.wpos (k + 1) ≠ 0 := by
  have hslot : S.total k % S.d < S.d := Nat.mod_lt _ S.d_pos
  have hpos : S.wpos (k + 1) = 0 ↔ (S.total k + 1) % S.d = 0 := by
    rw [← UInt32.toNat_inj, S.wpos_eq_total]
    rfl
  rw [show S.total (k + 1) = S.total k + 1 from rfl, ne_eq, hpos]
  by_cases hwrap : S.total k % S.d + 1 = S.d
  · rw [RingPos.succ_div_of_eq hwrap, RingPos.succ_mod_of_eq hwrap]
    simp
  · have hlt : S.total k % S.d + 1 < S.d := by omega
    rw [RingPos.succ_div_of_lt hlt, RingPos.succ_mod_of_lt hlt]
    simp

end LogStart

/-! ## `map_log` -/

/-- A call of `sw_log_putc` or a step of it. -/
def byWriter : LogAct → Bool
  | .put _ | .writer => true
  | .drain | .reader => false

/-- The steps of the writer alone. -/
def writerStep (dataSize : UInt32) : LogTrace → LogAct → Option LogTrace :=
  Run.guard (fun _ a => byWriter a) (LogTrace.step dataSize)

/-- The log when `map_log` is about to read `write_pos`. -/
def LogStart.mapLog (S : LogStart) : LogTrace :=
  { S.init with sys := { S.init.sys with reader := ⟨.mapPos, 0, 0, 0, 0, []⟩ } }

/-- The end of `map_log` among the steps of the writer: the log when `write_pos` is read,
    when `generation` is read, and after that. -/
structure MapLogRun (S : LogStart) where
  before : List LogAct
  between : List LogAct
  first : LogTrace
  second : LogTrace
  attached : LogTrace
  run_before : Run.exec (writerStep S.dataSize) S.mapLog before = some first
  run_between : (first.step S.dataSize .reader).bind
    (fun t => Run.exec (writerStep S.dataSize) t between) = some second
  run_end : second.step S.dataSize .reader = some attached

section Attach

variable {S : LogStart}

/-- The writer goes on: the reader is where it was. -/
structure WriterOn (t t' : LogTrace) : Prop where
  reader : t'.sys.reader = t.sys.reader
  seen : t'.seen = t.seen
  gens : t.gens ≤ t'.gens
  completed : t.completed ≤ t'.completed

theorem WriterOn.refl (t : LogTrace) : WriterOn t t :=
  ⟨rfl, rfl, Nat.le_refl _, Nat.le_refl _⟩

/-- A step of the writer only adds bytes. -/
theorem writerOn_step {dataSize : UInt32} {t t' : LogTrace} {a : LogAct} (ha : byWriter a = true)
    (hs : t.step dataSize a = some t') : WriterOn t t' := by
  cases a with
  | put ch =>
    obtain ⟨-, rfl⟩ := LogTrace.step_put hs
    exact ⟨rfl, rfl, Nat.le_refl _, Nat.le_refl _⟩
  | writer =>
    cases LogTrace.putcAccess_of_step hs with
    | readPos | readGen | writeData => exact ⟨rfl, rfl, Nat.le_refl _, Nat.le_refl _⟩
    | writeGen => exact ⟨rfl, rfl, Nat.le_succ _, Nat.le_refl _⟩
    | writePos => exact ⟨rfl, rfl, Nat.le_refl _, Nat.le_succ _⟩
  | drain | reader => cases ha

/-- A run of the writer. -/
theorem writerOn_exec {t t' : LogTrace} {acts : List LogAct} (h : HeaderInv S t)
    (hs : Run.exec (writerStep S.dataSize) t acts = some t') : HeaderInv S t' ∧ WriterOn t t' := by
  refine Run.exec_inv (fun t' => HeaderInv S t' ∧ WriterOn t t') ?_ ⟨h, WriterOn.refl t⟩ hs
  intro s a s' hinv hstep
  obtain ⟨hinv, hon⟩ := hinv
  obtain ⟨ha, hstep⟩ := Run.guard_eq_some hstep
  have hnext := writerOn_step ha hstep
  exact ⟨hinv.step hstep, hnext.reader.trans hon.reader, hnext.seen.trans hon.seen,
    Nat.le_trans hon.gens hnext.gens, Nat.le_trans hon.completed hnext.completed⟩

namespace MapLogRun

variable (r : MapLogRun S)

/-- The pair is the position after `T` puts, and this was the position at some time from the
    first to the second read. -/
def RealAt (T : Nat) : Prop :=
  S.total r.first.completed ≤ T ∧ T ≤ S.total r.second.completed ∧
  (r.attached.sys.reader.readGen.toNat, r.attached.sys.reader.readPos.toNat) =
    (T / S.d % 2 ^ 32, T % S.d)

/-- No unread lap is taken for an empty ring: whenever `drain_new` has returned and nothing
    has been emitted, the puts that were complete when it read `write_pos` are the `T` ones
    from which the tool starts. The generation comes round after `2 ^ 32` laps. -/
def NoMistake (T : Nat) : Prop :=
  ∀ acts t, Run.exec (LogTrace.step S.dataSize) r.attached acts = some t →
    t.sys.reader.pc = .idle → t.sys.reader.out = [] →
    S.total t.gens / S.d < T / S.d + 2 ^ 32 → S.total t.seen ≤ T

/-- The position has not gone back from the first to the second read, and the put in
    progress, if any, has not stored the generation of a lap whose position is still to be
    stored. -/
def Untorn : Prop :=
  r.first.sys.area.writePos ≤ r.second.sys.area.writePos ∧
  ¬ (r.second.sys.writer.pc = .writePos ∧ r.second.sys.writer.pos = 0)

/-- `2 ^ 32` laps or more between the two reads. -/
def ManyLaps : Prop :=
  S.total r.first.completed / S.d + 2 ^ 32 ≤ S.total r.second.gens / S.d

/-- The header at the two reads, and the reader after them. -/
structure Reads : Prop where
  first : HeaderInv S r.first
  second : HeaderInv S r.second
  attached : HeaderInv S r.attached
  completed : r.first.completed ≤ r.second.completed
  eq : r.attached = { r.second with sys := { r.second.sys with
    reader := ⟨.idle, r.first.sys.area.writePos, r.second.sys.area.generation, 0, 0, []⟩ } }
  seen : r.attached.seen = 0

/-- What `map_log` reads, each word at its own time. -/
theorem reads : r.Reads := by
  have hstart : HeaderInv S S.mapLog := ⟨S.wpos_zero.symm, S.lap_zero.symm, ⟨rfl, rfl⟩⟩
  obtain ⟨hfirst, hon₁⟩ := writerOn_exec hstart r.run_before
  have hreader₁ : r.first.sys.reader = ⟨.mapPos, 0, 0, 0, 0, []⟩ := hon₁.reader
  -- the first read
  obtain ⟨mid, hmid, hrun⟩ := Option.bind_eq_some_iff.mp r.run_between
  have hmidInv := hfirst.step hmid
  simp only [LogTrace.step, SwLog.step, drainStep, hreader₁, reduceCtorEq, if_false,
    Option.map_some, Option.some.injEq] at hmid
  subst hmid
  obtain ⟨hsecond, hon₂⟩ := writerOn_exec hmidInv hrun
  have hreader₂ : r.second.sys.reader =
      ⟨.mapGen, r.first.sys.area.writePos, 0, 0, 0, []⟩ := hon₂.reader
  -- the second read
  have hend := r.run_end
  have hattached := hsecond.step hend
  simp only [LogTrace.step, SwLog.step, drainStep, hreader₂, reduceCtorEq, if_false,
    Option.map_some, Option.some.injEq] at hend
  refine ⟨hfirst, hsecond, hattached, hon₂.completed, hend.symm, ?_⟩
  rw [← hend]
  exact hon₂.seen.trans hon₁.seen

end MapLogRun

/-- The lap of the generation is that of the position, unless a put that wraps has stored
    the one and not the other. -/
theorem HeaderInv.lap_eq_iff {t : LogTrace} (h : HeaderInv S t) :
    S.total t.gens / S.d = S.total t.completed / S.d ↔
      ¬ (t.sys.writer.pc = .writePos ∧ t.sys.writer.pos = 0) := by
  have hw := h.writer
  cases hpc : t.sys.writer.pc with
  | writePos =>
    simp only [WriterAt, hpc] at hw
    obtain ⟨-, hg, hpos, -⟩ := hw
    rw [hg, hpos, S.total_succ_div]
    simp
  | idle | readPos | readGen | writeData | writeGen =>
    simp only [WriterAt, hpc] at hw
    have hg : t.gens = t.completed := by omega
    simp [hg]

/-- A byte has the position and the generation that are read if the reads are not torn, or
    if the generation has wrapped between them. -/
theorem MapLogRun.exists_realAt_iff (r : MapLogRun S) :
    (∃ T, r.RealAt T) ↔ r.Untorn ∨ r.ManyLaps := by
  obtain ⟨hfirst, hsecond, -, hcompleted, heq, -⟩ := r.reads
  have hcounts := hsecond.writer.counts
  have hpos : r.attached.sys.reader.readPos.toNat = S.total r.first.completed % S.d := by
    rw [heq, ← S.wpos_eq_total, ← hfirst.writePos]
  have hgen : r.attached.sys.reader.readGen.toNat = S.total r.second.gens / S.d % 2 ^ 32 := by
    rw [heq, ← S.lap_eq_total, ← hsecond.generation]
  have hle : r.first.sys.area.writePos ≤ r.second.sys.area.writePos ↔
      S.total r.first.completed % S.d ≤ S.total r.second.completed % S.d := by
    rw [UInt32.le_iff_toNat_le, hfirst.writePos, hsecond.writePos, S.wpos_eq_total,
      S.wpos_eq_total]
  rw [Untorn, ManyLaps, hle, ← hsecond.lap_eq_iff]
  rw [← RingPos.exists_slot_lap_iff S.d_pos (by decide) (S.total_le_total.mpr hcompleted)
    (S.total_le_total.mpr hcounts.1) (S.total_le_total.mpr (Nat.le_trans hcounts.2.1 hcounts.2.2))]
  simp only [RealAt, hpos, hgen, Prod.mk.injEq, eq_comm, and_comm, and_left_comm]

/-! ## `drain_new` after it -/

/-- The reader before it has emitted a byte. `T` is the number of puts it starts from. -/
def AttachedAt (S : LogStart) (T : Nat) (t : LogTrace) : Prop :=
  t.sys.reader.readPos.toNat = T % S.d ∧ t.sys.reader.readGen.toNat = T / S.d % 2 ^ 32 ∧
  match t.sys.reader.pc with
  | .mapPos | .mapGen | .advance => False
  | .idle => S.total t.seen ≤ T ∨ T / S.d + 2 ^ 32 ≤ S.total t.gens / S.d
  | .readWp | .emit => True
  | .readGen => t.sys.reader.wp = S.wpos t.seen ∧ t.seen ≤ t.completed

/-- What holds after `map_log`. -/
structure AttachedInv (S : LogStart) (T : Nat) (t : LogTrace) : Prop where
  header : HeaderInv S t
  passed : T ≤ S.total t.completed
  reader : t.sys.reader.out = [] → AttachedAt S T t

/-- The writer does not disturb what the reader has seen. -/
theorem AttachedAt.writerOn {T : Nat} {t t' : LogTrace} (h : AttachedAt S T t)
    (hon : WriterOn t t') : AttachedAt S T t' := by
  obtain ⟨hpos, hgen, hpc⟩ := h
  unfold AttachedAt
  rw [hon.reader, hon.seen]
  refine ⟨hpos, hgen, ?_⟩
  cases hr : t.sys.reader.pc with
  | mapPos | mapGen | advance | readWp | emit =>
    simp only [hr] at hpc ⊢
  | idle =>
    simp only [hr] at hpc ⊢
    have hlap : S.total t.gens / S.d ≤ S.total t'.gens / S.d :=
      Nat.div_le_div_right (S.total_le_total.mpr hon.gens)
    exact hpc.imp_right (fun hfar => Nat.le_trans hfar hlap)
  | readGen =>
    simp only [hr] at hpc ⊢
    exact ⟨hpc.1, Nat.le_trans hpc.2 hon.completed⟩

/-- The decision to return: the position and the generation that the reader has are those
    of the header. -/
theorem AttachedInv.stop {T : Nat} {t : LogTrace} (h : AttachedInv S T t)
    (hpos : (S.wpos t.seen).toNat = T % S.d) (hgen : t.sys.area.generation.toNat = T / S.d % 2 ^ 32)
    (hseen : t.seen ≤ t.completed) :
    S.total t.seen ≤ T ∨ T / S.d + 2 ^ 32 ≤ S.total t.gens / S.d := by
  have hcounts := h.header.writer.counts
  have hpassed : T / S.d ≤ S.total t.gens / S.d :=
    Nat.div_le_div_right (Nat.le_trans h.passed (S.total_le_total.mpr hcounts.1))
  rw [h.header.generation, S.lap_eq_total] at hgen
  rcases RingPos.eq_or_add_le_of_mod_eq hpassed hgen.symm with heq | hfar
  · left
    -- the put that was seen last is on a lap up to that of `T`, and in the same slot
    have hlap : S.total t.seen / S.d ≤ T / S.d := by
      rw [heq]
      exact Nat.div_le_div_right (S.total_le_total.mpr (Nat.le_trans hseen hcounts.1))
    have hle := RingPos.le_mul_add_mod hlap
    rw [← S.wpos_eq_total, hpos, Nat.div_add_mod] at hle
    exact hle
  · exact .inr hfar

/-- A step of the reader. -/
theorem AttachedInv.reader_step {T : Nat} {t t' : LogTrace} (h : AttachedInv S T t)
    (hs : t.step S.dataSize .reader = some t') : AttachedInv S T t' := by
  have hheader := h.header.step hs
  have hreader := h.reader
  unfold AttachedAt at hreader
  cases LogTrace.drainAccess_of_step hs with
  | mapPos hpc | mapGen hpc | wrap hpc | next hpc =>
    refine ⟨hheader, h.passed, fun hout => ?_⟩
    have hr := hreader hout
    simp only [hpc] at hr
    exact hr.2.2.elim
  | readWp hpc =>
    refine ⟨hheader, h.passed, fun hout => ?_⟩
    obtain ⟨hpos, hgen, -⟩ := hreader hout
    exact ⟨hpos, hgen, h.header.writePos, Nat.le_refl _⟩
  -- the pair the reader compares is the pair it attached with
  | stop hpc heq =>
    refine ⟨hheader, h.passed, fun hout => ?_⟩
    have hr := hreader hout
    simp only [hpc] at hr
    obtain ⟨hpos, hgen, hwp, hseen⟩ := hr
    refine ⟨hpos, hgen, h.stop ?_ ?_ hseen⟩
    · rw [← hwp, ← heq.1, hpos]
    · rw [← heq.2, hgen]
  | goOn hpc hne =>
    refine ⟨hheader, h.passed, fun hout => ?_⟩
    obtain ⟨hpos, hgen, -⟩ := hreader hout
    exact ⟨hpos, hgen, trivial⟩
  | emit hpc => exact ⟨hheader, h.passed, fun hout => absurd hout (by simp)⟩

/-- Every step keeps the invariant. -/
theorem attachedInv_step {T : Nat} {t t' : LogTrace} {a : LogAct} (h : AttachedInv S T t)
    (hs : t.step S.dataSize a = some t') : AttachedInv S T t' := by
  cases a with
  | put _ | writer =>
    have hon := writerOn_step rfl hs
    refine ⟨h.header.step hs, Nat.le_trans h.passed (S.total_le_total.mpr hon.completed), ?_⟩
    rw [hon.reader]
    exact fun hout => (h.reader hout).writerOn hon
  | drain =>
    have hheader := h.header.step hs
    obtain ⟨hpc, rfl⟩ := LogTrace.step_drain hs
    refine ⟨hheader, h.passed, fun hout => ?_⟩
    obtain ⟨hpos, hgen, -⟩ := h.reader hout
    exact ⟨hpos, hgen, trivial⟩
  | reader => exact h.reader_step hs

/-- A real position is not mistaken. -/
theorem MapLogRun.RealAt.noMistake {r : MapLogRun S} {T : Nat} (h : r.RealAt T) :
    r.NoMistake T := by
  obtain ⟨hfrom, hto, hpair⟩ := h
  obtain ⟨-, -, hattached, -, heq, hseen⟩ := r.reads
  rw [Prod.mk.injEq] at hpair
  -- the invariant holds when `map_log` returns: nothing is seen yet
  have hstart : AttachedInv S T r.attached := by
    refine ⟨hattached, ?_, fun _ => ⟨hpair.2, hpair.1, ?_⟩⟩
    · rw [heq]
      exact hto
    · have hzero : S.total r.attached.seen ≤ T := by
        rw [hseen]
        exact Nat.le_trans (S.total_le_total.mpr (Nat.zero_le _)) hfrom
      rw [heq] at hzero ⊢
      exact .inl hzero
  intro acts t hrun hpc hout hlaps
  have hinv : AttachedInv S T t :=
    Run.exec_inv (AttachedInv S T) (fun _ _ _ h hs => attachedInv_step h hs) hstart hrun
  have hr := hinv.reader hout
  simp only [AttachedAt, hpc] at hr
  rcases hr.2.2 with hle | hfar
  · exact hle
  · exact absurd hfar (Nat.not_le_of_lt hlaps)

end Attach

/-- For every log between two puts, everything the writer does before and between the two
    header reads of `map_log`, and every ring size: the pair is the position of some moment
    between the reads, and no unread lap is taken for an empty ring, if and only if the
    reads are not torn (or `2 ^ 32` laps lie between them). -/
theorem mapLog_attaches_iff (S : LogStart) (r : MapLogRun S) :
    (∃ T, r.RealAt T ∧ r.NoMistake T) ↔ r.Untorn ∨ r.ManyLaps := by
  rw [← r.exists_realAt_iff]
  constructor
  · intro h
    obtain ⟨T, hreal, -⟩ := h
    exact ⟨T, hreal⟩
  · intro h
    obtain ⟨T, hreal⟩ := h
    exact ⟨T, hreal, hreal.noMistake⟩

/-! ## A torn attachment -/

/-- The last slot has been filled while the reader was at `r`. -/
def lastSlotFilled (r : LogReader) : LogTrace where
  sys :=
    { area := ⟨0, 1, fun i => if i = 65519 then 0x41 else 0x78⟩
      writer := ⟨.idle, 0x41, 0, 1⟩
      reader := r }
  stream := [0x41]
  gens := 1
  completed := 1
  seen := 0

/-- One put fills the last slot between the two reads. -/
def tornRun : MapLogRun lastSlot where
  before := []
  between := putActs 0x41
  first := lastSlot.mapLog
  second := lastSlotFilled ⟨.mapGen, 65519, 0, 0, 0, []⟩
  attached := lastSlotFilled ⟨.idle, 65519, 1, 0, 0, []⟩
  run_before := rfl
  run_between := rfl
  run_end := rfl

/-- When the writer has come to the position of the reader, `drain_new` returns at once. -/
private theorem exec_drain_stop (dataSize : UInt32) {t : LogTrace}
    (hpc : t.sys.reader.pc = .idle) (hpos : t.sys.reader.readPos = t.sys.area.writePos)
    (hgen : t.sys.reader.readGen = t.sys.area.generation) : ∃ t',
    Run.exec (LogTrace.step dataSize) t [.drain, .reader, .reader] = some t' ∧
    t'.sys.reader.pc = .idle ∧ t'.sys.reader.out = t.sys.reader.out ∧ t'.seen = t.completed := by
  simp only [Run.exec, LogTrace.step, SwLog.step, drainStep, hpc, hpos, hgen, reduceCtorEq, if_true,
    if_false, and_self, Option.map_some, Option.bind_some]
  exact ⟨_, rfl, rfl, rfl, rfl⟩

/-- `map_log` reads the position 65519 after 65519 puts and the generation 1 after one put
    more. The pair is the position after 131039 puts. When 65519 more bytes have been put,
    `drain_new` returns without having emitted any of the 65520 that the ring holds. -/
theorem mapLog_torn :
    lastSlot.total tornRun.first.completed = 65519 ∧
    lastSlot.total tornRun.second.completed = 65520 ∧
    tornRun.attached.sys.reader.readGen = 1 ∧ tornRun.attached.sys.reader.readPos = 65519 ∧
    (¬ ∃ T, tornRun.RealAt T) ∧
    ∃ t, Run.exec (LogTrace.step lastSlot.dataSize) tornRun.attached
        ((List.replicate 65519 (putActs 0x42)).flatten ++ [.drain, .reader, .reader]) = some t ∧
      t.sys.reader.pc = .idle ∧ t.sys.reader.out = [] ∧ lastSlot.total t.seen = 131039 := by
  refine ⟨rfl, rfl, rfl, rfl, ?_, ?_⟩
  · rw [tornRun.exists_realAt_iff, MapLogRun.Untorn, MapLogRun.ManyLaps]
    decide
  · obtain ⟨t₁, h₁, hidle, -, hcompleted, hreader⟩ :=
      exec_puts lastSlot.dataSize 0x42 65519 tornRun.attached rfl
    have hinv : HeaderInv lastSlot t₁ :=
      Run.exec_inv (HeaderInv lastSlot) (fun _ _ _ h hs => h.step hs) tornRun.reads.attached h₁
    have hlen : t₁.completed = 65520 := hcompleted
    -- the header after the puts, from the invariant and not by running them
    have hw := hinv.writer
    simp only [WriterAt, hidle, hlen] at hw
    have hwp : t₁.sys.area.writePos = 65519 := by
      rw [hinv.writePos, hlen]
      decide
    have hgen : t₁.sys.area.generation = 1 := by
      rw [hinv.generation, hw.2]
      decide
    obtain ⟨t, hdrain, hpc, hout, hseen⟩ := exec_drain_stop lastSlot.dataSize (t := t₁)
      (by rw [hreader]; rfl) (by rw [hreader, hwp]; rfl) (by rw [hreader, hgen]; rfl)
    refine ⟨t, ?_, hpc, ?_, ?_⟩
    · rw [Run.exec_append, h₁]
      exact hdrain
    · rw [hout, hreader]
      rfl
    · rw [hseen, hlen]
      rfl

end OpteeRpi5.Spec
