import OpteeRpi5.ForStd.UInt32
import OpteeRpi5.Spec.CircuitCorrect

/-!
# The kernel block

`qai_fidelity_kernel_block` loads rows of the input memref into stack arrays, runs the
circuit on each pair and stores the results in query-major order. This file states
what it leaves in the output memref and which bytes it touches.

## Key results

- `fidelityValue_congr`: the kernel value depends on the first `2 * n` features only
- `kernelBlock_run`: the block stores the kernel value of every pair
- `kernelBlock_safe`: the block stays inside its memrefs and arrays
-/

namespace OpteeRpi5.Spec

open OpteeRpi5.Native

variable {D : Type}

/-! ## The kernel value sees `2 * n` features -/

section Congr

variable [RatCast D] [Add D] [Sub D] [Mul D] [Neg D]

/-- A layer reads two features for each qubit. -/
theorem layerFwdAct_congr {n : Nat} (trig : Trig D) {x x' : Nat → D}
    (h : ∀ i < 2 * n, x i = x' i) : layerFwdAct n trig x = layerFwdAct n trig x' := by
  have hrot : ∀ q < n, rotFwdAct trig x q = rotFwdAct trig x' q := by
    intro q hq
    funext f
    simp only [rotFwdAct, h (2 * q) (by omega), h (2 * q + 1) (by omega)]
  funext f
  simp only [layerFwdAct, Loop.fold_congr hrot]

theorem layerInvAct_congr {n : Nat} (trig : Trig D) {y y' : Nat → D}
    (h : ∀ i < 2 * n, y i = y' i) : layerInvAct n trig y = layerInvAct n trig y' := by
  have hrot : ∀ q < n, rotInvAct trig y q = rotInvAct trig y' q := by
    intro q hq
    funext f
    simp only [rotInvAct, h (2 * q) (by omega), h (2 * q + 1) (by omega)]
  funext f
  simp only [layerInvAct, Loop.foldDown_congr hrot]

/-- So does the circuit, from both vectors. -/
theorem circuitAct_congr {n : Nat} (trig : Trig D) {x x' y y' : Nat → D} (reps : Nat)
    (hx : ∀ i < 2 * n, x i = x' i) (hy : ∀ i < 2 * n, y i = y' i) :
    circuitAct n trig x y reps = circuitAct n trig x' y' reps := by
  simp only [circuitAct, layerFwdAct_congr trig hx, layerInvAct_congr trig hy]

/-- The kernel value depends on the first `2 * n` features of each vector only. -/
theorem fidelityValue_congr [Div D] [LT D] [DecidableLT D] {n : Nat} (trig : Trig D)
    {x x' y y' : Nat → D} (reps : Nat) (hx : ∀ i < 2 * n, x i = x' i)
    (hy : ∀ i < 2 * n, y i = y' i) :
    fidelityValue n trig x y reps = fidelityValue n trig x' y' reps := by
  simp only [fidelityValue, circuitAct_congr trig reps hx hy]

end Congr

/-! ## Loading a row -/

/-- The bytes of memref `p`. -/
def bytesOf (t : Ta D) (p : Fin 4) : Buf := (t.params p).memref.buffer

/-- Row of floats at byte offset `off` of a buffer. -/
def floatRow [FloatConv D] (b : Buf) (off : Nat) : Nat → D :=
  fun i => FloatConv.ofFloat (b.le32 (off + 4 * i))

/-- `t'` differs from `t` in the kernel state, the memrefs and the log only. -/
structure SameCall (t t' : Ta D) : Prop where
  pred : t'.pred = t.pred
  pin : t'.pin = t.pin
  inp : t'.inp = t.inp
  t0 : t'.t0 = t.t0
  t1 : t'.t1 = t.t1

theorem SameCall.refl (t : Ta D) : SameCall t t := ⟨rfl, rfl, rfl, rfl, rfl⟩

theorem SameCall.trans {t t' t'' : Ta D} (h : SameCall t t') (h' : SameCall t' t'') :
    SameCall t t'' :=
  ⟨h'.pred.trans h.pred, h'.pin.trans h.pin, h'.inp.trans h.inp, h'.t0.trans h.t0,
    h'.t1.trans h.t1⟩

/-- What the first `k` iterations of `load_feat` do. -/
structure LoadInv [FloatConv D] (src : Nat) (dst : Loc) (t₀ : Ta D) (k : Nat) (t : Ta D) :
    Prop where
  call : SameCall t₀ t
  params : t.params = t₀.params
  stat : t.kern.stat = t₀.kern.stat
  kernNq : t.kern.kernNq = t₀.kern.kernNq
  kernDim : t.kern.kernDim = t₀.kern.kernDim
  rngState : t.kern.rngState = t₀.kern.rngState
  row : ∀ i < k, t.kern.loc dst i = floatRow (bytesOf t₀ 0) src i
  other : ∀ a ≠ dst, t.kern.loc a = t₀.kern.loc a
  log : ∀ a, a ∈ t.log ↔ a ∈ t₀.log ∨ ∃ i < k, ∃ b < 4, a = .load 0 (src + 4 * i + b)
  kernLog : ∀ a ∈ t.kern.log, a ∈ t₀.kern.log ∨ ∃ i < k, a = .writeLoc dst i

/-- `load_feat`. -/
theorem loadFeat_run [FloatConv D] (src : Nat) (dst : Loc) (nFeat : UInt32) (t : Ta D) :
    LoadInv src dst t nFeat.toNat ((loadFeat src dst nFeat).run t).2 := by
  apply Loop.up_inv (fun k (_ : Unit) s => LoadInv src dst t k s)
  · exact ⟨SameCall.refl t, rfl, rfl, rfl, rfl, rfl, fun i hi => by omega, fun _ _ => rfl,
      fun a => by simp, fun a ha => Or.inl ha⟩
  -- one turn loads value `k`; the values before it are those of the invariant
  · intro k _ s _ h
    simp only [StateM.run_bind, run_loadBytes, run_liftKern, run_writeLoc]
    have hbuf : (s.params 0).memref.buffer = bytesOf t 0 := by rw [h.params]; rfl
    refine ⟨h.call.trans ⟨rfl, rfl, rfl, rfl, rfl⟩, h.params, h.stat, h.kernNq, h.kernDim,
      h.rngState, ?_, ?_, ?_, ?_⟩
    · intro i hi
      by_cases hik : i = k
      · subst hik
        simp only [Function.update_self, floatRow, hbuf]
        congr 1
      · simp only [Function.update_self, Function.update_of_ne hik]
        exact h.row i (by omega)
    · intro a ha
      simp only [Function.update_of_ne ha]
      exact h.other a ha
    · intro a
      simp only [List.mem_append, List.mem_map, List.mem_range, h.log a]
      constructor
      · rintro (⟨b, hb, rfl⟩ | hold | ⟨i, hi, b, hb, rfl⟩)
        · exact Or.inr ⟨k, by omega, b, hb, rfl⟩
        · exact Or.inl hold
        · exact Or.inr ⟨i, by omega, b, hb, rfl⟩
      · rintro (hold | ⟨i, hi, b, hb, rfl⟩)
        · exact Or.inr (Or.inl hold)
        · by_cases hik : i = k
          · subst hik
            exact Or.inl ⟨b, hb, rfl⟩
          · exact Or.inr (Or.inr ⟨i, by omega, b, hb, rfl⟩)
    · intro a ha
      rw [List.mem_cons] at ha
      rcases ha with rfl | ha
      · exact Or.inr ⟨k, by omega, rfl⟩
      · rcases h.kernLog a ha with hold | ⟨i, hi, rfl⟩
        · exact Or.inl hold
        · exact Or.inr ⟨i, by omega, rfl⟩

/-! ## The loops of the block -/

/-- All accesses of a call so far are in bounds. Those of the circuit are so for memrefs
    of size zero: it touches none. -/
def TaSafe (pt : UInt32) (size : Fin 4 → Nat) (t : Ta D) : Prop :=
  Safe pt (fun _ => 0) t.kern ∧ ∀ a ∈ t.log, a.InBounds pt size

section Block

variable [RatCast D] [Add D] [Sub D] [Mul D] [Neg D] [Div D] [LT D] [DecidableLT D]
  [FloatConv D]

/-- The checks of `qai_fidelity_kernel_block`. -/
structure BlockAccepts (nRef nQuery reps nQubits : UInt32) : Prop where
  nRef_ne : nRef ≠ 0
  nQuery_ne : nQuery ≠ 0
  nRef_le : nRef.toNat ≤ 32
  nQuery_le : nQuery.toNat ≤ 32
  pairs_le : nRef.toNat * nQuery.toNat ≤ 32
  reps_ne : reps ≠ 0
  reps_le : reps ≤ qaiReps
  qubits : nQubits = 8 ∨ nQubits = 16

instance (nRef nQuery reps nQubits : UInt32) : Decidable (BlockAccepts nRef nQuery reps nQubits) :=
  decidable_of_iff (nRef ≠ 0 ∧ nQuery ≠ 0 ∧ nRef.toNat ≤ 32 ∧ nQuery.toNat ≤ 32 ∧
      nRef.toNat * nQuery.toNat ≤ 32 ∧ reps ≠ 0 ∧ reps ≤ qaiReps ∧
      (nQubits = 8 ∨ nQubits = 16))
    ⟨fun h => ⟨h.1, h.2.1, h.2.2.1, h.2.2.2.1, h.2.2.2.2.1, h.2.2.2.2.2.1, h.2.2.2.2.2.2.1,
      h.2.2.2.2.2.2.2⟩,
     fun h => ⟨h.nRef_ne, h.nQuery_ne, h.nRef_le, h.nQuery_le, h.pairs_le, h.reps_ne,
      h.reps_le, h.qubits⟩⟩

/-- The arguments of a call of `qai_fidelity_kernel_block` that passes its checks. -/
structure BlockArgs where
  ref : Nat
  nRef : UInt32
  query : Nat
  nQuery : UInt32
  reps : UInt32
  nQubits : UInt32
  outK : Nat
  accepted : BlockAccepts nRef nQuery reps nQubits

/-- The kernel value of query row `q` and reference row `r`, as a float, where the rows
    start at byte offsets `query` and `ref` of the input. -/
def kernelEntry (D : Type) [RatCast D] [Add D] [Sub D] [Mul D] [Neg D] [Div D] [LT D]
    [DecidableLT D] [FloatConv D] (n reps : Nat) (inp : Buf) (query ref q r : Nat) : UInt32 :=
  FloatConv.toFloat (fidelityValue (D := D) n kTrig (floatRow inp (query + 4 * (q * (2 * n))))
    (floatRow inp (ref + 4 * (r * (2 * n)))) reps)

namespace BlockArgs

/-- The number of qubits. -/
def n (b : BlockArgs) : Nat := b.nQubits.toNat

/-- `n_feat`. -/
def nFeat (b : BlockArgs) : UInt32 := b.nQubits * 2

theorem two_le_n (b : BlockArgs) : 2 ≤ b.n := by
  rcases b.accepted.qubits with h | h <;> simp [n, h]

theorem n_le (b : BlockArgs) : b.n ≤ qaiNqMax := by
  rcases b.accepted.qubits with h | h <;> simp [n, h, qaiNqMax]

/-- The number of features does not overflow. -/
theorem nFeat_toNat (b : BlockArgs) : b.nFeat.toNat = 2 * b.n := by
  rcases b.accepted.qubits with h | h <;> simp [n, nFeat, h]

/-- A row fits the local feature arrays. -/
theorem row_le (b : BlockArgs) : 2 * b.n ≤ qaiKernelFeatMax := by
  have hn := b.n_le
  simp only [qaiNqMax] at hn
  simp only [qaiKernelFeatMax]
  omega

/-- Row offsets do not wrap. -/
theorem rowOff (b : BlockArgs) {i : Nat} (hi : i < 32) :
    (UInt32.ofNat i * b.nFeat).toNat = i * (2 * b.n) := by
  have hn := b.n_le
  have hf := b.nFeat_toNat
  simp only [qaiNqMax] at hn
  have hof : (UInt32.ofNat i).toNat = i :=
    UInt32.toNat_ofNat_of_lt' (by simp only [UInt32.size]; omega)
  rw [UInt32.toNat_mul_of_le (show _ ≤ 32 by omega) (show _ ≤ 32 by omega) (by decide), hof, hf]

/-- Output indices do not wrap. -/
theorem outIdx (b : BlockArgs) {q r : Nat} (hq : q < 32) (hr : r < 32) :
    (UInt32.ofNat q * b.nRef + UInt32.ofNat r).toNat = q * b.nRef.toNat + r := by
  have h1 := b.accepted.nRef_le
  have h2 : q * b.nRef.toNat ≤ 32 * 32 := Nat.mul_le_mul (by omega) h1
  rw [UInt32.toNat_add, UInt32.toNat_mul, UInt32.toNat_ofNat', UInt32.toNat_ofNat',
    Nat.mod_eq_of_lt (show q < 2 ^ 32 by omega), Nat.mod_eq_of_lt (show r < 2 ^ 32 by omega)]
  omega

/-- The word at index `q * n_ref + r` of the output. -/
def entry (D : Type) [RatCast D] [Add D] [Sub D] [Mul D] [Neg D] [Div D] [LT D]
    [DecidableLT D] [FloatConv D] (b : BlockArgs) (inp : Buf) (q r : Nat) : UInt32 :=
  kernelEntry D b.n b.reps.toNat inp b.query b.ref q r

end BlockArgs

/-- After `k` of the entries have been stored. -/
structure BlockInv (b : BlockArgs) (t₀ : Ta D) (k : Nat) (t : Ta D) : Prop where
  call : SameCall t₀ t
  width : WidthOk b.n t.kern
  rngState : t.kern.rngState = t₀.kern.rngState
  params : ∀ p ≠ 1, t.params p = t₀.params p
  outMeta : t.params 1 = { t₀.params 1 with
    memref := { (t₀.params 1).memref with buffer := bytesOf t 1 } }
  outside : ∀ off, off < b.outK ∨ b.outK + 4 * k ≤ off → bytesOf t 1 off = bytesOf t₀ 1 off
  words : ∀ q r, r < b.nRef.toNat → q * b.nRef.toNat + r < k →
    (bytesOf t 1).le32 (b.outK + 4 * (q * b.nRef.toNat + r)) =
      b.entry D (bytesOf t₀ 0) q r
  stores : ∀ p off, .store p off ∈ t.log ↔
    .store p off ∈ t₀.log ∨ (p = 1 ∧ b.outK ≤ off ∧ off < b.outK + 4 * k)

/-- The loops do not write to the input. -/
theorem BlockInv.bytesOf_zero {b : BlockArgs} {t₀ t : Ta D} {k : Nat}
    (h : BlockInv b t₀ k t) : bytesOf t 0 = bytesOf t₀ 0 := by
  simp only [bytesOf, h.params 0 (by decide)]

/-- Loading a row keeps the invariant. -/
private theorem BlockInv.load {b : BlockArgs} {t₀ t t' : Ta D} {k src m : Nat} {dst : Loc}
    (h : BlockInv b t₀ k t) (hl : LoadInv src dst t m t') : BlockInv b t₀ k t' := by
  have hbytes : ∀ p, bytesOf t' p = bytesOf t p := fun p => by simp only [bytesOf, hl.params]
  refine ⟨h.call.trans hl.call, ?_, hl.rngState.trans h.rngState, ?_, ?_, ?_, ?_, ?_⟩
  · exact ⟨hl.kernNq.trans h.width.1, hl.kernDim.trans h.width.2.1, h.width.2.2⟩
  · intro p hp
    rw [hl.params, h.params p hp]
  · rw [hl.params, hbytes]
    exact h.outMeta
  · rw [hbytes]
    exact h.outside
  · rw [hbytes]
    exact h.words
  · intro p off
    rw [hl.log]
    simp only [reduceCtorEq, and_false, exists_false, or_false, h.stores]

/-- A position below the row length determines its row and column. -/
theorem rowCol_inj {m q r q' r' : Nat} (hr : r < m) (hr' : r' < m)
    (h : q * m + r = q' * m + r') : q = q' ∧ r = r' := by
  have hdiv : ∀ q r, r < m → (q * m + r) / m = q := fun q r hr => by
    rw [Nat.mul_comm, Nat.mul_add_div (by omega), Nat.div_eq_of_lt hr, Nat.add_zero]
  have hq : q = q' := by rw [← hdiv q r hr, h, hdiv q' r' hr']
  subst hq
  exact ⟨rfl, by omega⟩

/-- Storing the next entry. -/
private theorem BlockInv.store {b : BlockArgs} {t₀ t : Ta D} {q r : Nat}
    (hr : r < b.nRef.toNat) (h : BlockInv b t₀ (q * b.nRef.toNat + r) t) (s : Kern D)
    (hf : SameFrame t.kern s) :
    BlockInv b t₀ (q * b.nRef.toNat + r + 1)
      ((storeBytes 1 (b.outK + 4 * (q * b.nRef.toNat + r))
        (Buf.ofWords [b.entry D (bytesOf t₀ 0) q r]) 4).run { t with kern := s }).2 := by
  refine ⟨h.call.trans ⟨rfl, rfl, rfl, rfl, rfl⟩, h.width.of_frame hf,
    hf.rngState.trans h.rngState, ?_, ?_, ?_, ?_, ?_⟩
  · intro p hp
    simp only [run_storeBytes, Function.update_of_ne hp]
    exact h.params p hp
  · simp only [run_storeBytes, bytesOf, Function.update_self]
    rw [h.outMeta]
  · intro off hoff
    simp only [run_storeBytes, bytesOf, Function.update_self]
    rw [Buf.copy_outside _ _ (by omega)]
    exact h.outside off (by omega)
  · -- the new entry, or one of those before it
    intro q' r' hr' hk
    simp only [run_storeBytes, bytesOf, Function.update_self]
    by_cases he : q' * b.nRef.toNat + r' = q * b.nRef.toNat + r
    · obtain ⟨rfl, rfl⟩ := rowCol_inj hr' hr he
      exact (Buf.le32_copy_inside _ _ (i := 0) (by omega)).trans (Buf.le32_ofWords _ 0)
    · rw [Buf.le32_copy_outside _ _ (by omega)]
      exact h.words q' r' hr' (by omega)
  · intro p off
    simp only [run_storeBytes, List.mem_append, List.mem_map, List.mem_range,
      Access.store.injEq, h.stores]
    constructor
    · rintro (⟨i, hi, rfl, rfl⟩ | hold | hold)
      · exact Or.inr ⟨rfl, by omega, by omega⟩
      · exact Or.inl hold
      · exact Or.inr ⟨hold.1, by omega, by omega⟩
    · rintro (hold | ⟨rfl, hlo, hhi⟩)
      · exact Or.inr (Or.inl hold)
      · by_cases hnew : b.outK + 4 * (q * b.nRef.toNat + r) ≤ off
        · exact Or.inl ⟨off - (b.outK + 4 * (q * b.nRef.toNat + r)), by omega, rfl, by omega⟩
        · exact Or.inr (Or.inr ⟨rfl, hlo, by omega⟩)

/-- Query row `q` is in `qv`. -/
def QueryLoaded (b : BlockArgs) (t₀ : Ta D) (q : Nat) (t : Ta D) : Prop :=
  ∀ i < 2 * b.n, t.kern.loc .qv i =
    floatRow (bytesOf t₀ 0) (b.query + 4 * (q * (2 * b.n))) i

/-- One iteration of the inner loop stores one entry. -/
private theorem kernelBlockPair_inv {b : BlockArgs} {t₀ t : Ta D} {q r : Nat} (hq : q < 32)
    (hr : r < b.nRef.toNat) (h : BlockInv b t₀ (q * b.nRef.toNat + r) t)
    (hqv : QueryLoaded b t₀ q t) :
    BlockInv b t₀ (q * b.nRef.toNat + r + 1)
      ((kernelBlockPair b.ref b.nRef b.nFeat b.reps b.outK q r).run t).2 ∧
    QueryLoaded b t₀ q
      ((kernelBlockPair b.ref b.nRef b.nFeat b.reps b.outK q r).run t).2 := by
  have hr32 : r < 32 := lt_of_lt_of_le hr b.accepted.nRef_le
  simp only [kernelBlockPair, StateM.run_bind, run_liftKern, b.rowOff hr32,
    b.outIdx hq hr32]
  have hl := loadFeat_run (b.ref + 4 * (r * (2 * b.n))) .rv b.nFeat t
  generalize ((loadFeat (b.ref + 4 * (r * (2 * b.n))) Loc.rv b.nFeat).run t).2 = t₁ at hl ⊢
  have h₁ := h.load hl
  obtain ⟨hv, hf⟩ := fidelityExpReps_run b.two_le_n kTrig .qv .rv b.reps t₁.kern h₁.width
  -- the two rows in the stack arrays are the rows of the input memref
  have hval : FloatConv.toFloat ((fidelityExpReps kTrig .qv .rv b.reps).run t₁.kern).1 =
      b.entry D (bytesOf t₀ 0) q r := by
    rw [hv, BlockArgs.entry, kernelEntry]
    congr 1
    apply fidelityValue_congr
    · intro i hi
      rw [hl.other .qv (by decide), hqv i hi]
    · intro i hi
      rw [hl.row i (by rw [b.nFeat_toNat]; exact hi), h.bytesOf_zero]
  rw [hval]
  refine ⟨h₁.store hr _ hf, ?_⟩
  intro i hi
  change ((fidelityExpReps kTrig .qv .rv b.reps).run t₁.kern).2.loc .qv i = _
  rw [hf.loc, hl.other .qv (by decide), hqv i hi]

/-- A query row stays loaded while its pairs are computed. -/
private theorem BlockInv.queryLoaded {b : BlockArgs} {t₀ t t' : Ta D} {q k : Nat}
    (h : BlockInv b t₀ k t)
    (hl : LoadInv (b.query + 4 * (q * (2 * b.n))) .qv t b.nFeat.toNat t') :
    QueryLoaded b t₀ q t' := by
  intro i hi
  rw [hl.row i (by rw [b.nFeat_toNat]; exact hi), h.bytesOf_zero]

/-- One iteration of the outer loop stores one row. -/
private theorem kernelBlockQuery_inv {b : BlockArgs} {t₀ t : Ta D} {q : Nat} (hq : q < 32)
    (h : BlockInv b t₀ (q * b.nRef.toNat) t) :
    BlockInv b t₀ ((q + 1) * b.nRef.toNat)
      ((kernelBlockQuery b.ref b.nRef b.query b.nFeat b.reps b.outK q).run t).2 := by
  simp only [kernelBlockQuery, StateM.run_bind, b.rowOff hq]
  have hl := loadFeat_run (b.query + 4 * (q * (2 * b.n))) .qv b.nFeat t
  have hqv := h.queryLoaded hl
  rw [Nat.succ_mul]
  exact (Loop.up_inv (fun r (_ : Unit) s =>
    BlockInv b t₀ (q * b.nRef.toNat + r) s ∧ QueryLoaded b t₀ q s) ⟨h.load hl, hqv⟩
    (fun r _ s hr hs => kernelBlockPair_inv hq hr hs.1 hs.2)).1

private theorem kernelBlockLoop_start (b : BlockArgs) (t : Ta D) (hw : WidthOk b.n t.kern) :
    BlockInv b t (0 * b.nRef.toNat) t := by
  refine ⟨SameCall.refl t, hw, rfl, fun _ _ => rfl, rfl, fun _ _ => rfl, ?_, ?_⟩
  · intro q r _ hk
    omega
  · intro p off
    constructor
    · exact Or.inl
    · rintro (hold | ⟨-, hlo, hhi⟩)
      · exact hold
      · omega

/-- The loops of the block store every entry. -/
theorem kernelBlockLoop_inv (b : BlockArgs) (t : Ta D) (hw : WidthOk b.n t.kern) :
    BlockInv b t (b.nQuery.toNat * b.nRef.toNat)
      ((Loop.up b.nQuery.toNat (fun q _ =>
        kernelBlockQuery b.ref b.nRef b.query b.nFeat b.reps b.outK q) ()).run t).2 := by
  exact Loop.up_inv (fun q (_ : Unit) s => BlockInv b t (q * b.nRef.toNat) s)
    (kernelBlockLoop_start b t hw)
    (fun q _ s hq h => kernelBlockQuery_inv (lt_of_lt_of_le hq b.accepted.nQuery_le) h)

/-! ## Safety of the loops -/

/-- The memrefs are long enough for the rows and for the results. -/
structure BlockFits (pt : UInt32) (size : Fin 4 → Nat) (b : BlockArgs) : Prop where
  inputType : teeParamTypeGet pt 0 = teeParamTypeMemrefInput
  outputType : teeParamTypeGet pt 1 = teeParamTypeMemrefOutput
  refs : b.ref + 4 * (b.nRef.toNat * (2 * b.n)) ≤ size 0
  queries : b.query + 4 * (b.nQuery.toNat * (2 * b.n)) ≤ size 0
  outs : b.outK + 4 * (b.nQuery.toNat * b.nRef.toNat) ≤ size 1

/-- The end of row `i` is not past the end of the last row. -/
theorem rowEnd_le {i m w : Nat} (hi : i < m) : i * w + w ≤ m * w := by
  rw [← Nat.succ_mul]
  exact Nat.mul_le_mul_right w hi

omit [RatCast D] [Add D] [Sub D] [Mul D] [Neg D] [Div D] [LT D] [DecidableLT D] in
/-- Loading a row stays inside the input and the vector. -/
private theorem loadFeat_safe {pt : UInt32} {size : Fin 4 → Nat} {src m : Nat} {dst : Loc}
    {t t' : Ta D} (hpt : teeParamTypeGet pt 0 = teeParamTypeMemrefInput)
    (hsrc : src + 4 * m ≤ size 0) (hdst : m ≤ dst.cap) (hl : LoadInv src dst t m t')
    (hs : TaSafe pt size t) : TaSafe pt size t' := by
  constructor
  · intro a ha
    rcases hl.kernLog a ha with hold | ⟨i, hi, rfl⟩
    · exact hs.1 a hold
    · exact lt_of_lt_of_le hi hdst
  · intro a ha
    rcases (hl.log a).mp ha with hold | ⟨i, hi, j, hj, rfl⟩
    · exact hs.2 a hold
    · exact ⟨hpt, by omega⟩

/-- A pair stays inside the input, the vectors and the output. -/
private theorem kernelBlockPair_safe {pt : UInt32} {size : Fin 4 → Nat} {b : BlockArgs}
    (hb : BlockFits pt size b) {t₀ t : Ta D} {q r k : Nat} (hq : q < b.nQuery.toNat)
    (hr : r < b.nRef.toNat) (h : BlockInv b t₀ k t) (hs : TaSafe pt size t) :
    TaSafe pt size ((kernelBlockPair b.ref b.nRef b.nFeat b.reps b.outK q r).run t).2 := by
  have hr32 : r < 32 := lt_of_lt_of_le hr b.accepted.nRef_le
  have hq32 : q < 32 := lt_of_lt_of_le hq b.accepted.nQuery_le
  have hcap := b.row_le
  simp only [kernelBlockPair, StateM.run_bind, run_liftKern, run_storeBytes, b.rowOff hr32,
    b.outIdx hq32 hr32]
  have hl := loadFeat_run (b.ref + 4 * (r * (2 * b.n))) .rv b.nFeat t
  rw [b.nFeat_toNat] at hl
  have hrow := rowEnd_le (w := 2 * b.n) hr
  have hrefs := hb.refs
  have hs₁ := loadFeat_safe hb.inputType (by omega) hcap hl hs
  have h₁ := h.load hl
  generalize ((loadFeat (b.ref + 4 * (r * (2 * b.n))) Loc.rv b.nFeat).run t).2 = t₁ at hs₁ h₁ ⊢
  have hn : 0 < b.n := by have := b.two_le_n; omega
  refine ⟨fidelityExpReps_safe hn kTrig .qv .rv b.reps hcap hcap t₁.kern h₁.width hs₁.1, ?_⟩
  intro a ha
  rw [List.mem_append, List.mem_map] at ha
  -- the new accesses are the four bytes of the entry
  rcases ha with ⟨i, hi, rfl⟩ | ha
  · have hout := hb.outs
    have hlast := rowEnd_le (w := b.nRef.toNat) hq
    rw [List.mem_range] at hi
    exact ⟨hb.outputType, by omega⟩
  · exact hs₁.2 a ha

/-- The loops of the block stay in bounds. -/
theorem kernelBlockLoop_safe {pt : UInt32} {size : Fin 4 → Nat} {b : BlockArgs}
    (hb : BlockFits pt size b) {t : Ta D} (hw : WidthOk b.n t.kern) (hs : TaSafe pt size t) :
    TaSafe pt size ((Loop.up b.nQuery.toNat (fun q _ =>
      kernelBlockQuery b.ref b.nRef b.query b.nFeat b.reps b.outK q) ()).run t).2 := by
  have hcap := b.row_le
  refine (Loop.up_inv (fun q (_ : Unit) s => BlockInv b t (q * b.nRef.toNat) s ∧
    TaSafe pt size s) ⟨?_, hs⟩ ?_).2
  · exact kernelBlockLoop_start b t hw
  · intro q _ s hq h
    have hq32 : q < 32 := lt_of_lt_of_le hq b.accepted.nQuery_le
    refine ⟨kernelBlockQuery_inv hq32 h.1, ?_⟩
    simp only [kernelBlockQuery, StateM.run_bind, b.rowOff hq32]
    have hl := loadFeat_run (b.query + 4 * (q * (2 * b.n))) .qv b.nFeat s
    have hqv := h.1.queryLoaded hl
    rw [b.nFeat_toNat] at hl
    have hrow := rowEnd_le (w := 2 * b.n) hq
    have hqueries := hb.queries
    have hs₁ := loadFeat_safe hb.inputType (by omega) hcap hl h.2
    exact (Loop.up_inv (fun r (_ : Unit) s => (BlockInv b t (q * b.nRef.toNat + r) s ∧
      QueryLoaded b t q s) ∧ TaSafe pt size s) ⟨⟨h.1.load hl, hqv⟩, hs₁⟩
      (fun r _ s hr hs => ⟨kernelBlockPair_inv hq32 hr hs.1.1 hs.1.2,
        kernelBlockPair_safe hb hq hr hs.1.1 hs.2⟩)).2

/-! ## The block -/

/-- The check bounds the counts by 32. -/
private theorem le_of_not_gt_maxPairs {w : UInt32} (h : ¬ w > qaiKernelMaxPairs) :
    w.toNat ≤ 32 :=
  UInt32.le_iff_toNat_le.mp (UInt32.not_lt.mp h)

/-- A call of `qai_fidelity_kernel_block` that fails a check changes nothing. -/
theorem kernelBlock_reject (ref : Nat) {nRef : UInt32} (query : Nat)
    {nQuery reps nQubits : UInt32} (outK : Nat)
    (h : ¬ BlockAccepts nRef nQuery reps nQubits) (t : Ta D) :
    (qaiFidelityKernelBlock ref nRef query nQuery reps nQubits outK).run t =
      (.error .badParameters, t) := by
  unfold qaiFidelityKernelBlock
  by_cases hzero : nRef = 0 ∨ nQuery = 0 ∨ reps = 0 ∨ reps > qaiReps
  · simp only [if_pos hzero, StateM.run_pure]
  by_cases hnq : nQubits ≠ 8 ∧ nQubits ≠ 16
  · simp only [if_neg hzero, if_pos hnq, StateM.run_pure]
  by_cases hmax : nRef > qaiKernelMaxPairs ∨ nQuery > qaiKernelMaxPairs
  · simp only [if_neg hzero, if_neg hnq, if_pos hmax, StateM.run_pure]
  by_cases hpairs : nRef * nQuery > qaiKernelMaxPairs
  · simp only [if_neg hzero, if_neg hnq, if_neg hmax, if_pos hpairs, StateM.run_pure]
  -- past the four checks the arguments would be accepted
  exfalso
  simp only [not_or] at hzero hmax
  have hr := le_of_not_gt_maxPairs hmax.1
  have hq := le_of_not_gt_maxPairs hmax.2
  refine h ⟨hzero.1, hzero.2.1, hr, hq, ?_, hzero.2.2.1, UInt32.not_lt.mp hzero.2.2.2, ?_⟩
  · rw [← UInt32.toNat_mul_of_le hr hq (by decide)]
    exact le_of_not_gt_maxPairs hpairs
  · by_cases h8 : nQubits = 8
    · exact Or.inl h8
    · exact Or.inr (by_contra fun h16 => hnq ⟨h8, h16⟩)

/-- The state after `kernel_select`. -/
private def selected (b : BlockArgs) (t : Ta D) : Ta D :=
  { t with kern := ((kernelSelect b.n).run t.kern).2 }

omit [RatCast D] [Add D] [Sub D] [Mul D] [Neg D] [Div D] [LT D] [DecidableLT D]
  [FloatConv D] in
/-- The width is selected before the loops. -/
private theorem selected_width (b : BlockArgs) (t : Ta D) : WidthOk b.n (selected b t).kern :=
  ⟨rfl, Nat.one_shiftLeft b.n, b.n_le⟩

/-- The kernel block with arguments that it accepts. -/
private theorem run_kernelBlock (b : BlockArgs) (t : Ta D) :
    (qaiFidelityKernelBlock b.ref b.nRef b.query b.nQuery b.reps b.nQubits b.outK).run t =
      let t' := ((Loop.up b.nQuery.toNat (fun q _ =>
        kernelBlockQuery b.ref b.nRef b.query b.nFeat b.reps b.outK q) ()).run
          (selected b t)).2
      (.ok (deltaMs t'.t0 t'.t1), t') := by
  have hzero : ¬ (b.nRef = 0 ∨ b.nQuery = 0 ∨ b.reps = 0 ∨ b.reps > qaiReps) := by
    simp only [not_or]
    exact ⟨b.accepted.nRef_ne, b.accepted.nQuery_ne, b.accepted.reps_ne,
      UInt32.not_lt.mpr b.accepted.reps_le⟩
  have hnq : ¬ (b.nQubits ≠ 8 ∧ b.nQubits ≠ 16) := fun h => b.accepted.qubits.elim h.1 h.2
  have hle : ∀ w : UInt32, w.toNat ≤ 32 → ¬ w > qaiKernelMaxPairs := fun w hw =>
    UInt32.not_lt.mpr (UInt32.le_iff_toNat_le.mpr hw)
  have hmax : ¬ (b.nRef > qaiKernelMaxPairs ∨ b.nQuery > qaiKernelMaxPairs) :=
    not_or.mpr ⟨hle _ b.accepted.nRef_le, hle _ b.accepted.nQuery_le⟩
  have hpairs : ¬ b.nRef * b.nQuery > qaiKernelMaxPairs := by
    apply hle
    rw [UInt32.toNat_mul]
    exact (Nat.mod_le _ _).trans b.accepted.pairs_le
  simp only [qaiFidelityKernelBlock, if_neg hzero, if_neg hnq, if_neg hmax,
    if_neg hpairs, StateM.run_bind, StateM.run_pure, StateM.run_get, run_liftKern]
  rfl

/-- The block stores the kernel value of every pair and touches nothing else of the
    output memref. -/
theorem kernelBlock_run (b : BlockArgs) (t : Ta D) :
    ∃ t', (qaiFidelityKernelBlock b.ref b.nRef b.query b.nQuery b.reps b.nQubits b.outK).run t =
      (.ok (deltaMs t.t0 t.t1), t') ∧ BlockInv b t (b.nQuery.toNat * b.nRef.toNat) t' := by
  have h := kernelBlockLoop_inv b (selected b t) (selected_width b t)
  have hsel : SameCall t (selected b t) := ⟨rfl, rfl, rfl, rfl, rfl⟩
  refine ⟨_, ?_, hsel.trans h.call, h.width, h.rngState, h.params, h.outMeta, h.outside,
    h.words, h.stores⟩
  rw [run_kernelBlock]
  simp only [h.call.t0, h.call.t1]
  rfl

/-- The block stays inside its memrefs and arrays. -/
theorem kernelBlock_safe {pt : UInt32} {size : Fin 4 → Nat} {b : BlockArgs}
    (hb : BlockFits pt size b) {t : Ta D} (hs : TaSafe pt size t) :
    TaSafe pt size ((qaiFidelityKernelBlock b.ref b.nRef b.query b.nQuery b.reps b.nQubits
      b.outK).run t).2 := by
  rw [run_kernelBlock]
  exact kernelBlockLoop_safe hb (selected_width b t) hs

end Block

end OpteeRpi5.Spec
