import OpteeRpi5.ForStd.Run
import OpteeRpi5.Native.SwLogRegion

/-!
# The log writer and a hostile normal world

The ring position lives in memory of the normal world only. `sw_log_putc` fetches it once
and clamps the local copy before it is used as an offset and again before it is stored,
so that no value the normal world puts into the region moves a store out of it.

## Key results

- `RegionInv`: the local position is in bounds whenever it is used
- `RegionInv.simulates`: the steps of the writer refine those of `Native.SwLog`
- `puts_stores_safe`: every store of every run is at an allowed place
-/

namespace OpteeRpi5.Spec

open OpteeRpi5.Native

/-! ## The memory view -/

/-- A clamped position is a slot. -/
theorem wrapPos_fst_lt {dataSize : UInt32} (h : 0 < dataSize) (pos gen : UInt32) :
    (wrapPos dataSize pos gen).1 < dataSize := by
  unfold wrapPos
  split
  · exact h
  · next hlt => exact UInt32.not_le.mp hlt

/-- The byte that a put stores is at the offset of its slot. -/
private theorem dataOff_toNat {pos dataSize : UInt32} (h : pos < dataSize)
    (hsize : dataSize.toNat + 16 < 2 ^ 32) :
    (rpi5SwLogHdrSize + pos).toNat = 16 + pos.toNat := by
  have hpos : pos.toNat < dataSize.toNat := UInt32.lt_iff_toNat_lt.mp h
  rw [UInt32.toNat_add, show rpi5SwLogHdrSize.toNat = 16 from rfl]
  omega

/-- In memory the writer does what it does to the header words and the data area. -/
theorem logArea_putcMem (mem : Buf) (w : LogWriter) {dataSize : UInt32}
    (hpos : w.pc = .writeData → w.pos < dataSize) (hsize : dataSize.toNat + 16 < 2 ^ 32) :
    logArea (putcMem mem w) = (putcStep dataSize (logArea mem) w).1 := by
  unfold putcMem putcStore putcStep
  cases hpc : w.pc with
  | idle => rfl
  | readPos => rfl
  | readGen => rfl
  | writeData =>
    have hoff := dataOff_toNat (hpos hpc) hsize
    simp only [RegionStore.apply, logArea, hoff]
    -- the byte lies behind the header words and in the slot of the position
    have hword : ∀ off, off + 4 ≤ 16 →
        Buf.le32 (fun i => if i = 16 + w.pos.toNat then w.ch else mem i) off = mem.le32 off := by
      intro off hle
      apply Buf.le32_congr
      intro k hk
      exact if_neg (by omega)
    rw [hword hdrWritePos (by decide), hword hdrGeneration (by decide)]
    congr 1
    funext i
    simp only [show rpi5SwLogHdrSize.toNat = 16 from rfl, Nat.add_right_inj]
  | writeGen =>
    -- a word of the header: the other word and the data area stay
    simp only [RegionStore.apply, logArea, Buf.le32_putLe32]
    rw [Buf.le32_putLe32_outside mem w.gen (by decide)]
    congr 1
    funext i
    exact Buf.copy_outside mem _ (by
      simp only [show rpi5SwLogHdrSize.toNat = 16 from rfl, hdrGeneration]
      omega)
  | writePos =>
    simp only [RegionStore.apply, logArea, Buf.le32_putLe32]
    rw [Buf.le32_putLe32_outside mem w.pos (by decide)]
    congr 1
    funext i
    exact Buf.copy_outside mem _ (by
      simp only [show rpi5SwLogHdrSize.toNat = 16 from rfl, hdrWritePos]
      omega)

/-- The writer leaves the magic word alone. -/
theorem magic_putcMem (mem : Buf) (w : LogWriter) {dataSize : UInt32}
    (hpos : w.pc = .writeData → w.pos < dataSize) (hsize : dataSize.toNat + 16 < 2 ^ 32) :
    (putcMem mem w).le32 hdrMagic = mem.le32 hdrMagic := by
  unfold putcMem putcStore
  cases hpc : w.pc with
  | idle | readPos | readGen => rfl
  | writeData =>
    have hoff := dataOff_toNat (hpos hpc) hsize
    apply Buf.le32_congr
    intro k hk
    simp only [RegionStore.apply, hoff, hdrMagic]
    exact if_neg (by omega)
  | writeGen => exact Buf.le32_putLe32_outside mem w.gen (by decide)
  | writePos => exact Buf.le32_putLe32_outside mem w.pos (by decide)

/-! ## The invariant -/

/-- Where the secure world may store: bytes go to the data area, words to `generation` or,
    if they are slots, to `write_pos`. -/
def StoreSafe : RegionStore → Prop
  | .write8 off _ => 16 ≤ off ∧ off < 65536
  | .write32 off v => off = hdrGeneration ∨ (off = hdrWritePos ∧ v.toNat < 65520)

/-- The log is enabled, the local position is a slot when it is used as one, and all stores
    so far were safe. -/
structure RegionInv (s : LogRegion) : Prop where
  size : s.statics.size = rpi5SwLogSize
  slot : s.writer.pc = .writeData ∨ s.writer.pc = .writeGen ∨ s.writer.pc = .writePos →
    s.writer.pos < s.statics.dataSize
  safe : ∀ st ∈ s.stores, StoreSafe st

/-- The data part is the region without its header. -/
theorem RegionInv.dataSize_eq {s : LogRegion} (h : RegionInv s) :
    s.statics.dataSize = 65520 := by
  rw [SwLogStatics.dataSize, h.size]
  rfl

/-- The store of an access, if it makes one, is safe. -/
private theorem RegionInv.putcStore_safe {s : LogRegion} (h : RegionInv s) :
    ∀ st ∈ (putcStore s.writer).toList, StoreSafe st := by
  have hslot := h.slot
  rw [h.dataSize_eq] at hslot
  unfold putcStore
  cases hpc : s.writer.pc with
  | idle | readPos | readGen => exact fun st hst => nomatch hst
  | writeData =>
    intro st hst
    have hlt := hslot (.inl hpc)
    have hpos : s.writer.pos.toNat < 65520 := UInt32.lt_iff_toNat_lt.mp hlt
    cases List.mem_singleton.mp hst
    simp only [StoreSafe, dataOff_toNat hlt (by decide)]
    omega
  | writeGen =>
    intro st hst
    cases List.mem_singleton.mp hst
    exact .inl rfl
  | writePos =>
    intro st hst
    cases List.mem_singleton.mp hst
    exact .inr ⟨rfl, UInt32.lt_iff_toNat_lt.mp (hslot (.inr (.inr hpc)))⟩

/-- The position is clamped before it is used, whatever was read. -/
private theorem RegionInv.putcStep_slot {s : LogRegion} (h : RegionInv s)
    (hpc' : (putcStep s.statics.dataSize (logArea s.mem) s.writer).2.pc = .writeData ∨
      (putcStep s.statics.dataSize (logArea s.mem) s.writer).2.pc = .writeGen ∨
      (putcStep s.statics.dataSize (logArea s.mem) s.writer).2.pc = .writePos) :
    (putcStep s.statics.dataSize (logArea s.mem) s.writer).2.pos < s.statics.dataSize := by
  have hpos : 0 < s.statics.dataSize := by
    rw [h.dataSize_eq]
    decide
  have hslot := h.slot
  unfold putcStep at hpc' ⊢
  cases hpc : s.writer.pc with
  | idle | readPos | writePos => simp [hpc] at hpc'
  | readGen =>
    -- clamped here, whatever was read from `write_pos`
    exact wrapPos_fst_lt hpos _ _
  | writeData => exact wrapPos_fst_lt hpos _ _
  | writeGen => exact hslot (.inr (.inl hpc))

/-- A step of the secure world keeps the invariant. -/
private theorem RegionInv.secureStep {s s' : LogRegion} (h : RegionInv s)
    (hstep : s.secureStep = some s') : RegionInv s' := by
  unfold LogRegion.secureStep at hstep
  split at hstep
  · next hidle =>
    -- between two characters nothing is stored
    have hslot : ¬ (PutcPc.readPos = .writeData ∨ PutcPc.readPos = .writeGen ∨
        PutcPc.readPos = .writePos) := by decide
    split at hstep
    · exact nomatch hstep
    · split at hstep
      · cases hstep
        exact ⟨h.size, h.slot, h.safe⟩
      · split at hstep
        · cases hstep
          exact ⟨h.size, h.slot, h.safe⟩
        · cases hstep
          exact ⟨h.size, fun hpc => absurd hpc hslot, h.safe⟩
  · cases hstep
    refine ⟨h.size, h.putcStep_slot, ?_⟩
    intro st hst
    rcases List.mem_append.mp hst with hold | hnew
    · exact h.safe st hold
    · exact h.putcStore_safe st hnew

/-- Every step keeps the invariant: the normal world changes the region only. -/
theorem RegionInv.step {s s' : LogRegion} {a : RegionAct} (h : RegionInv s)
    (hstep : s.step a = some s') : RegionInv s' := by
  cases a with
  | puts str =>
    simp only [LogRegion.step] at hstep
    split at hstep
    · cases hstep
      exact ⟨h.size, h.slot, h.safe⟩
    · exact nomatch hstep
  | secure => exact h.secureStep hstep
  | normal off v =>
    -- the locals of the writer are not in the region
    simp only [LogRegion.step] at hstep
    split at hstep
    · cases hstep
      exact ⟨h.size, h.slot, h.safe⟩
    · exact nomatch hstep

/-- A step of `sw_log_putc` in memory is a step of the writer of `Native.SwLog` on the view
    of the region. -/
theorem RegionInv.simulates {s s' : LogRegion} (h : RegionInv s) (hpc : s.writer.pc ≠ .idle)
    (hstep : s.step .secure = some s') :
    putcStep s.statics.dataSize (logArea s.mem) s.writer = (logArea s'.mem, s'.writer) := by
  rw [LogRegion.step, LogRegion.secureStep, if_neg hpc] at hstep
  cases hstep
  have hsize : s.statics.dataSize.toNat + 16 < 2 ^ 32 := by
    rw [h.dataSize_eq]
    decide
  rw [logArea_putcMem s.mem s.writer (fun hpc => h.slot (.inl hpc)) hsize]

/-! ## Runs -/

/-- The log when `rpi5_sw_log_init` traces its message. The stores to the header, which it
    has made before, are not counted. -/
def LogRegion.ready (env : TraceEnv) (st : SwLogStatics) (va : Nat) (mem : Buf) : LogRegion :=
  { LogRegion.swLogInit env va ⟨st, mem, [], ⟨.idle, 0, 0, 0⟩, []⟩ with stores := [] }

/-- A successful initialisation enables the log. -/
theorem RegionInv.ready {env : TraceEnv} {st : SwLogStatics} {va : Nat} {mem : Buf}
    (h : (rpi5SwLogInit env st va mem).1 = true) : RegionInv (LogRegion.ready env st va mem) := by
  have hva : va ≠ 0 := by
    intro hzero
    simp [rpi5SwLogInit, hzero] at h
  refine ⟨?_, ?_, fun st hst => nomatch hst⟩
  · simp only [LogRegion.ready, LogRegion.swLogInit, rpi5SwLogInit, if_neg hva]
  · intro hpc
    rw [show (LogRegion.ready env st va mem).writer.pc = .idle from rfl] at hpc
    exact absurd hpc (by decide)

/-- After a successful initialisation, whatever is traced, its own message first, and
    whatever the normal world does to the region meanwhile, every store of the secure world
    lies in the region, bytes in the data area and words in `generation` and `write_pos`,
    and `write_pos` is set to slots only. -/
theorem puts_stores_safe (env : TraceEnv) (st : SwLogStatics) (va : Nat) (mem : Buf)
    (acts : List RegionAct) (t : LogRegion) (hinit : (rpi5SwLogInit env st va mem).1 = true)
    (hrun : Run.exec LogRegion.step (LogRegion.ready env st va mem) acts = some t) :
    ∀ s ∈ t.stores, s.off + s.width ≤ rpi5SwLogSize.toNat ∧ StoreSafe s := by
  have hinv : RegionInv t :=
    Run.exec_inv RegionInv (fun _ _ _ h hstep => h.step hstep) (RegionInv.ready hinit) hrun
  intro s hs
  have hsafe := hinv.safe s hs
  refine ⟨?_, hsafe⟩
  have hsize : rpi5SwLogSize.toNat = 65536 := rfl
  -- a byte lies in the data, a word is one of two header fields
  cases s with
  | write8 off v =>
    have hoff : 16 ≤ off ∧ off < 65536 := hsafe
    simp only [RegionStore.off, RegionStore.width]
    omega
  | write32 off v =>
    have hoff : off = 8 ∨ (off = 4 ∧ v.toNat < 65520) := hsafe
    simp only [RegionStore.off, RegionStore.width]
    omega

/-- Errors only are traced. -/
def errorTrace : TraceEnv where
  level := traceError
  lead := fun _ => textBytes "E/TC:? 0 "

/-- One character, put while the normal world sets the low byte of `write_pos`: the region
    is all ones at the start, `write_pos` is far out of bounds, and the stores are safe. -/
theorem puts_stores_safe_onePut : ∃ t,
    Run.exec LogRegion.step
      (LogRegion.ready errorTrace SwLogStatics.zero 0x10000000
        (fun i => if i < 4 then Buf.byteOf rpi5SwLogMagic i else 0xff))
      [.puts [0x41, 0], .secure, .normal 4 0xf0, .secure, .secure, .normal 5 0, .secure, .secure,
        .secure] = some t ∧
    t.stores = [.write8 16 0x41, .write32 hdrGeneration 0, .write32 hdrWritePos 1] ∧
    ∀ s ∈ t.stores, s.off + s.width ≤ rpi5SwLogSize.toNat ∧ StoreSafe s := by
  have hrun : ∃ t, Run.exec LogRegion.step
      (LogRegion.ready errorTrace SwLogStatics.zero 0x10000000
        (fun i => if i < 4 then Buf.byteOf rpi5SwLogMagic i else 0xff))
      [.puts [0x41, 0], .secure, .normal 4 0xf0, .secure, .secure, .normal 5 0, .secure, .secure,
        .secure] = some t ∧
      t.stores = [.write8 16 0x41, .write32 hdrGeneration 0, .write32 hdrWritePos 1] :=
    ⟨_, rfl, by decide⟩
  obtain ⟨t, hexec, hstores⟩ := hrun
  exact ⟨t, hexec, hstores, puts_stores_safe _ _ _ _ _ t (by decide) hexec⟩

end OpteeRpi5.Spec
