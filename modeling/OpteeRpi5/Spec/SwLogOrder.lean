import OpteeRpi5.Spec.SwLogCorrect

/-!
# The order of the emitted bytes after an overrun

A writer that laps the reader leaves bytes of several laps in the ring. `drain_new` goes
on slot by slot, compares its position with `write_pos` and `generation` for equality
only, and so crosses the position of the writer into bytes that are older than those it
has emitted. Every byte is tagged here with the number of the put that stored it; the
puts before the start have negative numbers.

## Key results

- `TagInv`: the reader visits the slots in order, and a slot holds its last put
- `tags_increasing_iff`: the tags increase as long as the lead of the writer, in whole
  laps, does not shrink from one emitted byte to the next
- `leads_eq_zero`: it stays zero in a run without overrun and torn reads
- `overrun_reorders`: one byte more than a lap, and the second byte emitted is older than
  the first
-/

namespace OpteeRpi5.Spec

open OpteeRpi5.Native

/-! ## Tagged traces -/

/-- A trace with the number of the last put to every slot, the tags of the emitted bytes,
    and the number of data stores at the time of each emission. -/
structure TagTrace where
  log : LogTrace
  slotTag : Nat → Int
  tags : List Int
  puts : List Nat

namespace TagTrace

/-- A step of the system, recorded. -/
def step (dataSize : UInt32) (t : TagTrace) (a : LogAct) : Option TagTrace :=
  (t.log.step dataSize a).map fun log =>
    match a with
    | .put _ | .drain => { t with log := log }
    | .writer =>
      match t.log.sys.writer.pc with
      | .writeData =>
        { t with
          log := log
          slotTag := fun i =>
            if i = t.log.sys.writer.pos.toNat then t.log.stream.length else t.slotTag i }
      | _ => { t with log := log }
    | .reader =>
      match t.log.sys.reader.pc with
      | .emit =>
        { t with
          log := log
          tags := t.tags ++ [t.slotTag t.log.sys.reader.readPos.toNat]
          puts := t.puts ++ [t.log.stream.length] }
      | _ => { t with log := log }

/-- The number of whole laps by which the writer is ahead of byte `i` after `w` data stores:
    zero if the byte is in its slot, positive after an overrun, negative if it has not
    been put yet. -/
def lead (d i w : Nat) : Int :=
  ((w : Int) - 1 - i) / d

/-- The leads of the writer at the times of the emissions. -/
def leads (d : Nat) (t : TagTrace) : List Int :=
  t.puts.mapIdx (lead d)

end TagTrace

/-- The start: every slot holds the last put to it. -/
def LogStart.tagInit (S : LogStart) : TagTrace where
  log := S.init
  slotTag := fun i => RingPos.lastBelow S.d 0 (i - S.pos.toNat)
  tags := []
  puts := []

/-! ## The invariant -/

section Invariant

variable {S : LogStart}

/-- The reader visits the slots in order, whatever it reads from the header. -/
def ReaderSlot (S : LogStart) (r : LogReader) (n : Nat) : Prop :=
  match r.pc with
  | .mapPos | .mapGen => False
  | .advance => ∃ k, n = k + 1 ∧ r.readPos = S.wpos k
  | .idle | .readWp | .readGen | .emit => r.readPos = S.wpos n

/-- What holds along every run. -/
structure TagInv (S : LogStart) (t : TagTrace) : Prop where
  header : HeaderInv S t.log
  slotTag : ∀ i < S.d, t.slotTag i =
    RingPos.lastBelow S.d t.log.stream.length (i - S.pos.toNat)
  reader : ReaderSlot S t.log.sys.reader t.puts.length
  tags : t.tags = t.puts.mapIdx fun i w => i + S.d * TagTrace.lead S.d i w

/-- The slot of byte `k` is whole laps away from it. -/
private theorem slot_sub_pos (k : Nat) :
    (S.slot k : Int) - S.pos.toNat = k + S.d * -(((S.pos.toNat + k) / S.d : Nat) : Int) := by
  have hdiv := Nat.div_add_mod (S.pos.toNat + k) S.d
  rw [LogStart.slot, Int.mul_neg]
  have hcast : ((S.d * ((S.pos.toNat + k) / S.d) : Nat) : Int) =
      S.d * (((S.pos.toNat + k) / S.d : Nat) : Int) := Int.natCast_mul _ _
  omega

/-- The tag of the slot that the reader is at when it emits byte `k`. -/
private theorem TagInv.slotTag_slot {t : TagTrace} (h : TagInv S t) (k : Nat) :
    t.slotTag (S.slot k) = k + S.d * TagTrace.lead S.d k t.log.stream.length := by
  rw [h.slotTag _ (S.slot_lt k), slot_sub_pos, RingPos.lastBelow_add_mul S.d_pos,
    RingPos.lastBelow, TagTrace.lead]

/-- The next put goes to its slot, and to no other. -/
private theorem dvd_iff_slot (w i : Nat) (hi : i < S.d) :
    (S.d : Int) ∣ (w : Int) - (i - S.pos.toNat) ↔ i = S.slot w := by
  have hslot := S.slot_lt w
  have hsub := slot_sub_pos (S := S) w
  have hrw : (w : Int) - (i - S.pos.toNat) =
      (S.slot w : Int) - i + S.d * (((S.pos.toNat + w) / S.d : Nat) : Int) := by
    rw [Int.mul_neg] at hsub
    omega
  rw [hrw, Int.dvd_add_left ⟨_, rfl⟩]
  constructor
  · intro hdvd
    -- two slots that differ by whole laps are the same
    have hzero := Int.eq_zero_of_dvd_of_natAbs_lt_natAbs hdvd (by omega)
    omega
  · rintro rfl
    rw [Int.sub_self]
    exact ⟨0, rfl⟩

/-- Nothing has been emitted at the start. -/
theorem TagInv.init (S : LogStart) : TagInv S S.tagInit where
  header := (LogInv.init S).header
  slotTag := fun _ _ => rfl
  reader := S.wpos_zero.symm
  tags := rfl

/-- A step of `sw_log_putc`. -/
private theorem TagInv.writer_step {t t' : TagTrace} (h : TagInv S t)
    (hs : t.step S.dataSize .writer = some t') : TagInv S t' := by
  obtain ⟨log, hlog, rfl⟩ := Option.map_eq_some_iff.mp hs
  have hheader := h.header.writer_step hlog
  have hw := h.header.writer
  cases LogTrace.putcAccess_of_step hlog with
  | readPos hpc | readGen hpc | writeGen hpc | writePos hpc =>
    simp only [hpc]
    exact ⟨hheader, h.slotTag, h.reader, h.tags⟩
  | writeData hpc =>
    simp only [WriterAt, hpc] at hw
    have hslot : t.log.sys.writer.pos.toNat = S.slot t.log.stream.length := by
      rw [hw.2.2.1, S.wpos_toNat, hw.1]
    simp only [hpc]
    refine ⟨hheader, ?_, h.reader, h.tags⟩
    intro i hi
    have hlen : ((t.log.stream ++ [t.log.sys.writer.ch]).length : Int) =
        t.log.stream.length + 1 := by simp
    -- the last put to a slot below `w + 1` is `w` in its slot, and in others as below `w`
    simp only [hlen, RingPos.lastBelow_succ S.d_pos, dvd_iff_slot _ i hi, hslot]
    split
    · rfl
    · exact h.slotTag i hi

/-- The reader advances to the next slot. -/
private theorem advance_slot {r : LogReader} {k : Nat} (h : r.readPos = S.wpos k) :
    (if r.readPos + 1 ≥ S.dataSize then 0 else r.readPos + 1) = S.wpos (k + 1) := by
  have hwrap := congrArg Prod.fst (S.wrapPos_succ k)
  rw [h]
  unfold wrapPos at hwrap
  split
  · next hge =>
    rw [if_pos hge] at hwrap
    exact hwrap
  · next hlt =>
    rw [if_neg hlt] at hwrap
    exact hwrap

/-- A step of `drain_new`. -/
private theorem TagInv.reader_step {t t' : TagTrace} (h : TagInv S t)
    (hs : t.step S.dataSize .reader = some t') : TagInv S t' := by
  obtain ⟨log, hlog, rfl⟩ := Option.map_eq_some_iff.mp hs
  have hheader := h.header.step hlog
  have hr := h.reader
  cases LogTrace.drainAccess_of_step hlog with
  | mapPos hpc | mapGen hpc => simp only [ReaderSlot, hpc] at hr
  | readWp hpc | stop hpc | goOn hpc =>
    -- the decision to stop or to emit does not move the reader
    simp only [ReaderSlot, hpc] at hr
    simp only [hpc]
    exact ⟨hheader, h.slotTag, hr, h.tags⟩
  | emit hpc =>
    simp only [ReaderSlot, hpc] at hr
    simp only [hpc]
    refine ⟨hheader, h.slotTag, ⟨t.puts.length, by simp, hr⟩, ?_⟩
    simp only [List.mapIdx_append, List.mapIdx_cons, List.mapIdx_nil, h.tags, hr, S.wpos_toNat,
      h.slotTag_slot, Nat.zero_add]
  | wrap hpc hge =>
    simp only [ReaderSlot, hpc] at hr
    obtain ⟨k, hk, hpos⟩ := hr
    have hnext := advance_slot hpos
    rw [if_pos hge, ← hk] at hnext
    simp only [hpc]
    exact ⟨hheader, h.slotTag, hnext, h.tags⟩
  | next hpc hlt =>
    simp only [ReaderSlot, hpc] at hr
    obtain ⟨k, hk, hpos⟩ := hr
    have hnext := advance_slot hpos
    rw [if_neg hlt, ← hk] at hnext
    simp only [hpc]
    exact ⟨hheader, h.slotTag, hnext, h.tags⟩

/-- Every step keeps the invariant. -/
theorem TagInv.step {t t' : TagTrace} {a : LogAct} (h : TagInv S t)
    (hs : t.step S.dataSize a = some t') : TagInv S t' := by
  cases a with
  | put ch =>
    obtain ⟨log, hlog, rfl⟩ := Option.map_eq_some_iff.mp hs
    have hheader := h.header.step hlog
    obtain ⟨-, rfl⟩ := LogTrace.step_put hlog
    exact ⟨hheader, h.slotTag, h.reader, h.tags⟩
  | writer => exact h.writer_step hs
  | drain =>
    obtain ⟨log, hlog, rfl⟩ := Option.map_eq_some_iff.mp hs
    have hheader := h.header.step hlog
    have hr := h.reader
    obtain ⟨hpc, rfl⟩ := LogTrace.step_drain hlog
    simp only [ReaderSlot, hpc] at hr
    exact ⟨hheader, h.slotTag, hr, h.tags⟩
  | reader => exact h.reader_step hs

end Invariant

/-! ## Runs -/

/-- In every interleaving the tags of the emitted bytes increase, if and only if from one
    emitted byte to the next the lead of the writer does not shrink by a lap. -/
theorem tags_increasing_iff (S : LogStart) {acts : List LogAct} {t : TagTrace}
    (h : Run.exec (TagTrace.step S.dataSize) S.tagInit acts = some t) :
    t.tags.Pairwise (· < ·) ↔ (t.leads S.d).IsChain (· ≤ ·) := by
  have hinv : TagInv S t :=
    Run.exec_inv (TagInv S) (fun _ _ _ hs hstep => hs.step hstep) (TagInv.init S) h
  have htags : t.tags = (t.leads S.d).mapIdx fun i l => (0 : Int) + i + S.d * l := by
    rw [hinv.tags, TagTrace.leads, List.mapIdx_mapIdx]
    simp only [Int.zero_add]
    rfl
  -- from byte `i` to the next the tag grows by one, and by the size for each lap of lead
  rw [← List.isChain_iff_pairwise, htags]
  exact RingPos.isChain_lt_iff S.d_pos (t.leads S.d) 0

/-- Two bytes are put and drained in order. -/
theorem tags_increasing_twoPuts : ∃ t,
    Run.exec (TagTrace.step freshRing.dataSize) freshRing.tagInit
      (putActs 0x41 ++ putActs 0x42 ++ .drain :: List.replicate 10 .reader) = some t ∧
    t.tags = [0, 1] ∧ t.tags.Pairwise (· < ·) := by
  have hrun : ∃ t, Run.exec (TagTrace.step freshRing.dataSize) freshRing.tagInit
      (putActs 0x41 ++ putActs 0x42 ++ .drain :: List.replicate 10 .reader) = some t ∧
      t.tags = [0, 1] ∧ t.leads freshRing.d = [0, 0] := ⟨_, rfl, by decide, by decide⟩
  obtain ⟨t, ht, htags, hleads⟩ := hrun
  refine ⟨t, ht, htags, (tags_increasing_iff freshRing ht).mpr ?_⟩
  rw [hleads]
  decide

/-! ## Runs without overrun -/

/-- A step in terms of the untagged trace: only an emission adds to the recorded puts. -/
private theorem step_puts {S : LogStart} {t t' : TagTrace} {a : LogAct}
    (hs : t.step S.dataSize a = some t') :
    t.log.step S.dataSize a = some t'.log ∧
    ((a = .reader ∧ t.log.sys.reader.pc = .emit ∧ t'.puts = t.puts ++ [t.log.stream.length] ∧
        t'.log.sys.reader.out.length = t.log.sys.reader.out.length + 1) ∨
      (t'.puts = t.puts ∧ t'.log.sys.reader.out = t.log.sys.reader.out)) := by
  obtain ⟨log, hlog, rfl⟩ := Option.map_eq_some_iff.mp hs
  refine ⟨?_, ?_⟩
  · -- the tags ride along: the untagged part takes the same step
    rw [hlog]
    cases a with
    | put | drain => rfl
    | writer => cases t.log.sys.writer.pc <;> rfl
    | reader => cases t.log.sys.reader.pc <;> rfl
  cases a with
  | put ch =>
    obtain ⟨-, rfl⟩ := LogTrace.step_put hlog
    exact .inr ⟨rfl, rfl⟩
  | drain =>
    obtain ⟨-, rfl⟩ := LogTrace.step_drain hlog
    exact .inr ⟨rfl, rfl⟩
  | writer =>
    cases LogTrace.putcAccess_of_step hlog with
    | readPos hpc | readGen hpc | writeData hpc | writeGen hpc | writePos hpc =>
      exact .inr (by simp [hpc])
  | reader =>
    cases LogTrace.drainAccess_of_step hlog with
    | emit hpc => exact .inl (by simp [hpc])
    | mapPos hpc | mapGen hpc | readWp hpc | stop hpc | goOn hpc | wrap hpc | next hpc =>
      exact .inr (by simp [hpc])

/-- When no byte is overwritten before it is emitted and no torn header is read, the lead
    is zero at every emission, so that the tags increase. -/
theorem leads_eq_zero (S : LogStart) {acts : List LogAct} {t : TagTrace}
    (h : Run.exec (Run.guard (fun t a => t.log.noOverwrite S.dataSize a && t.log.noTornRead a)
      (TagTrace.step S.dataSize)) S.tagInit acts = some t) :
    ∀ l ∈ t.leads S.d, l = 0 := by
  have hinv : LogInv S t.log ∧ t.puts.length = t.log.sys.reader.out.length ∧
      ∀ l ∈ t.leads S.d, l = 0 := by
    refine Run.exec_inv (fun t : TagTrace => LogInv S t.log ∧
      t.puts.length = t.log.sys.reader.out.length ∧ ∀ l ∈ t.leads S.d, l = 0) ?_
      ⟨LogInv.init S, rfl, by simp [TagTrace.leads, LogStart.tagInit]⟩ h
    rintro s a s' ⟨hlog, hlen, hzero⟩ hstep
    obtain ⟨hok, hstep⟩ := Run.guard_eq_some hstep
    rw [Bool.and_eq_true] at hok
    obtain ⟨hlogstep, hcase⟩ := step_puts hstep
    refine ⟨hlog.step hok.1 hok.2 hlogstep, ?_⟩
    rcases hcase with ⟨-, hpc, hputs, hout⟩ | ⟨hputs, hout⟩
    · refine ⟨by rw [hputs, List.length_append, hout, hlen]; rfl, ?_⟩
      -- the byte has been stored, and the next one of its slot has not
      have hr := hlog.reader
      have hcounts := hlog.writer.counts
      have hroom := hlog.room
      simp only [ReaderAt, hpc] at hr
      obtain ⟨-, m, hm, hmg, -⟩ := hr
      intro l hl
      rw [TagTrace.leads, hputs, List.mapIdx_append, List.mem_append] at hl
      rcases hl with hold | hnew
      · exact hzero l hold
      · simp only [List.mapIdx_cons, List.mapIdx_nil, List.mem_singleton, Nat.zero_add] at hnew
        rw [hnew, TagTrace.lead, hlen]
        exact Int.ediv_eq_zero_of_lt (by omega) (by omega)
    · exact ⟨by rw [hputs, hout, hlen], by rw [TagTrace.leads, hputs]; exact hzero⟩
  exact hinv.2.2

/-! ## An overrun -/

/-- A run in which the reader takes no step, with its tags: none are added. -/
private theorem exec_of_log {dataSize : UInt32} {acts : List LogAct} (hacts : .reader ∉ acts)
    (t : TagTrace) {log : LogTrace} (h : Run.exec (LogTrace.step dataSize) t.log acts = some log) :
    ∃ t', Run.exec (TagTrace.step dataSize) t acts = some t' ∧ t'.log = log ∧
      t'.tags = t.tags ∧ t'.puts = t.puts := by
  induction acts generalizing t with
  | nil => exact ⟨t, rfl, Option.some.inj h, rfl, rfl⟩
  | cons a acts ih =>
    rw [List.mem_cons, not_or] at hacts
    rw [Run.exec, Option.bind_eq_some_iff] at h
    obtain ⟨log₁, hstep, hrest⟩ := h
    obtain ⟨t₁, h₁, rfl, htags₁, hputs₁⟩ : ∃ t₁, TagTrace.step dataSize t a = some t₁ ∧
        t₁.log = log₁ ∧ t₁.tags = t.tags ∧ t₁.puts = t.puts := by
      rw [TagTrace.step, hstep]
      cases a with
      | put | drain => exact ⟨_, rfl, rfl, rfl, rfl⟩
      | reader => exact absurd rfl hacts.1
      | writer =>
        -- of the five accesses only the data store does more than go on with the log
        cases hpc : t.log.sys.writer.pc <;> exact ⟨_, rfl, by simp, by simp, by simp⟩
    obtain ⟨t', h', hlog, htags, hputs⟩ := ih hacts.2 t₁ hrest
    exact ⟨t', by rw [Run.exec, h₁]; exact h', hlog, htags.trans htags₁, hputs.trans hputs₁⟩

/-- The reader from a look at the header to the emission of the byte in its slot. -/
private theorem exec_emit (dataSize : UInt32) {t : TagTrace}
    (hpc : t.log.sys.reader.pc = .readWp)
    (hgo : ¬ (t.log.sys.reader.readPos = t.log.sys.area.writePos ∧
      t.log.sys.reader.readGen = t.log.sys.area.generation)) : ∃ t',
    Run.exec (TagTrace.step dataSize) t (List.replicate 3 .reader) = some t' ∧
    t'.tags = t.tags ++ [t.slotTag t.log.sys.reader.readPos.toNat] ∧
    t'.slotTag = t.slotTag ∧ t'.log.sys.area = t.log.sys.area ∧
    t'.log.sys.reader.pc = .advance ∧ t'.log.sys.reader.readPos = t.log.sys.reader.readPos ∧
    t'.log.sys.reader.readGen = t.log.sys.reader.readGen := by
  simp only [List.replicate, Run.exec, TagTrace.step, LogTrace.step, SwLog.step, drainStep, hpc,
    reduceCtorEq, if_false, if_neg hgo, Option.map_some, Option.bind_some]
  exact ⟨_, rfl, rfl, rfl, rfl, rfl, rfl, rfl⟩

/-- The reader goes on to the next slot of the lap. -/
private theorem exec_advance (dataSize : UInt32) {t : TagTrace}
    (hpc : t.log.sys.reader.pc = .advance)
    (hlt : ¬ t.log.sys.reader.readPos + 1 ≥ dataSize) : ∃ t',
    TagTrace.step dataSize t .reader = some t' ∧ t'.tags = t.tags ∧ t'.slotTag = t.slotTag ∧
    t'.log.sys.area = t.log.sys.area ∧ t'.log.sys.reader.pc = .readWp ∧
    t'.log.sys.reader.readPos = t.log.sys.reader.readPos + 1 ∧
    t'.log.sys.reader.readGen = t.log.sys.reader.readGen := by
  simp only [TagTrace.step, LogTrace.step, SwLog.step, drainStep, hpc, reduceCtorEq, if_false,
    if_neg hlt, Option.map_some]
  exact ⟨_, rfl, rfl, rfl, rfl, rfl, rfl, rfl⟩

/-- The reader of a fresh ring when the header is one slot into the second lap: it emits
    the first two slots. -/
private theorem exec_drain {t : TagTrace} (hreader : t.log.sys.reader = ⟨.idle, 0, 0, 0, 0, []⟩)
    (hwp : t.log.sys.area.writePos = 1) (hgen : t.log.sys.area.generation = 1) : ∃ t',
    Run.exec (TagTrace.step 65520) t (.drain :: List.replicate 7 .reader) = some t' ∧
    t'.tags = t.tags ++ [t.slotTag 0] ++ [t.slotTag 1] := by
  obtain ⟨t₀, h₀, htags₀, hslot₀, harea₀, hreader₀⟩ : ∃ t₀,
      TagTrace.step 65520 t .drain = some t₀ ∧ t₀.tags = t.tags ∧ t₀.slotTag = t.slotTag ∧
      t₀.log.sys.area = t.log.sys.area ∧ t₀.log.sys.reader = ⟨.readWp, 0, 0, 0, 0, []⟩ := by
    simp only [TagTrace.step, LogTrace.step, SwLog.step, hreader, if_true, Option.map_some]
    exact ⟨_, rfl, rfl, rfl, rfl, rfl⟩
  -- the generations differ, so that the reader does not stop at the position of the writer
  obtain ⟨t₁, h₁, htags₁, hslot₁, harea₁, hpc₁, hpos₁, hgen₁⟩ :=
    exec_emit 65520 (t := t₀) (by rw [hreader₀]) (by rw [hreader₀, harea₀, hwp, hgen]; decide)
  obtain ⟨t₂, h₂, htags₂, hslot₂, harea₂, hpc₂, hpos₂, hgen₂⟩ :=
    exec_advance 65520 hpc₁ (by rw [hpos₁, hreader₀]; decide)
  have hpos : t₂.log.sys.reader.readPos = 1 := by
    rw [hpos₂, hpos₁, hreader₀]
    rfl
  obtain ⟨t₃, h₃, htags₃, -⟩ := exec_emit 65520 hpc₂ (by
    rw [hpos, hgen₂, hgen₁, hreader₀, harea₂, harea₁, harea₀, hwp, hgen]
    decide)
  refine ⟨t₃, ?_, ?_⟩
  · have hsplit : List.replicate 7 LogAct.reader =
        List.replicate 3 .reader ++ .reader :: List.replicate 3 .reader := rfl
    rw [hsplit, Run.exec, h₀, Option.bind_some, Run.exec_append, h₁, Option.bind_some, Run.exec,
      h₂]
    exact h₃
  · rw [htags₃, htags₂, htags₁, htags₀, hslot₂, hslot₁, hslot₀, hpos, hreader₀]
    rfl

/-- One byte more than a lap is put, then `drain_new` runs: its first byte is the last one
    put, its second byte is the oldest one left, a lap before. -/
theorem overrun_reorders : ∃ t,
    Run.exec (TagTrace.step freshRing.dataSize) freshRing.tagInit
      ((List.replicate 65521 (putActs 0x41)).flatten ++ .drain :: List.replicate 7 .reader) =
        some t ∧
    t.tags = [65520, 1] ∧ ¬ t.tags.Pairwise (· < ·) := by
  obtain ⟨log, hputs, hidle, hstream, -, hreader⟩ :=
    exec_puts freshRing.dataSize 0x41 65521 freshRing.init rfl
  have hquiet : LogAct.reader ∉ (List.replicate 65521 (putActs 0x41)).flatten := by
    intro h
    obtain ⟨block, hblock, hmem⟩ := List.mem_flatten.mp h
    rw [List.eq_of_mem_replicate hblock] at hmem
    simp [putActs] at hmem
  obtain ⟨t₁, h₁, rfl, htags, -⟩ := exec_of_log hquiet freshRing.tagInit hputs
  have hinv : TagInv freshRing t₁ :=
    Run.exec_inv (TagInv freshRing) (fun _ _ _ hs hstep => hs.step hstep)
      (TagInv.init freshRing) h₁
  have hlen : t₁.log.stream.length = 65521 := by
    rw [hstream]
    rfl
  -- the header after 65521 puts, from the invariant and not by running them
  have hw := hinv.header.writer
  simp only [WriterAt, hidle, hlen] at hw
  have hwp : t₁.log.sys.area.writePos = 1 := by
    rw [hinv.header.writePos, ← hw.1]
    decide
  have hgen : t₁.log.sys.area.generation = 1 := by
    rw [hinv.header.generation, hw.2, ← hw.1]
    decide
  obtain ⟨t, hdrain, htags'⟩ := exec_drain hreader hwp hgen
  have hfinal : t.tags = [65520, 1] := by
    rw [htags', htags, hinv.slotTag 0 (by decide), hinv.slotTag 1 (by decide), hlen]
    decide
  refine ⟨t, ?_, hfinal, ?_⟩
  · rw [Run.exec_append, h₁]
    exact hdrain
  · rw [hfinal]
    decide

end OpteeRpi5.Spec
