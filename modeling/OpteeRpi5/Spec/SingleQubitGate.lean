import Mathlib.Algebra.QuadraticAlgebra.Defs
import Mathlib.LinearAlgebra.Matrix.Notation
import OpteeRpi5.Spec.GatesCorrect

/-!
# `apply_1q` is the single-qubit gate

The real and imaginary parts of the statevector are separate arrays, and `apply_1q` spells
out the complex products. Over any commutative ring in the place of `double` the pairs are
the elements of the ring with a square root of `-1`, and what `apply_1q` computes is the
product of the 2x2 gate with each pair of amplitudes.

The scratch arrays carry nothing from one call to the next: the first loop writes the
entries below `2 ^ (n - 1)`, and the second one reads just those.

## Key results

- `cplx_low`, `cplx_high`: the formulas of `apply_1q` as complex products
- `apply1q_scratchLog`: what the two loops do to the scratch arrays
- `apply1q_gate`: `apply_1q` on all amplitudes
-/

namespace OpteeRpi5.Spec

open OpteeRpi5.Native

/-! ## Complex amplitudes -/

section Complex

variable {R : Type} [CommRing R]

/-- Complex numbers over a commutative ring. -/
abbrev Cplx (R : Type) [CommRing R] : Type := QuadraticAlgebra R (-1) 0

/-- A pair of a real and an imaginary part. -/
def cplx (a : R × R) : Cplx R := ⟨a.1, a.2⟩

/-- The arguments of `apply_1q` for a complex 2x2 gate. -/
def Gate.ofMatrix (G : Matrix (Fin 2) (Fin 2) (Cplx R)) : Gate R where
  g00r := (G 0 0).re
  g00i := (G 0 0).im
  g01r := (G 0 1).re
  g01i := (G 0 1).im
  g10r := (G 1 0).re
  g10i := (G 1 0).im
  g11r := (G 1 1).re
  g11i := (G 1 1).im

/-- The first row of the gate. -/
theorem cplx_low (G : Matrix (Fin 2) (Fin 2) (Cplx R)) (a b : R × R) :
    cplx (Gate.low (Gate.ofMatrix G) a b) = G 0 0 * cplx a + G 0 1 * cplx b := by
  ext
  · simp only [cplx, Gate.low, Gate.ofMatrix, QuadraticAlgebra.re_add, QuadraticAlgebra.re_mul]
    ring
  · simp only [cplx, Gate.low, Gate.ofMatrix, QuadraticAlgebra.im_add, QuadraticAlgebra.im_mul]
    ring

/-- The second row of the gate. -/
theorem cplx_high (G : Matrix (Fin 2) (Fin 2) (Cplx R)) (a b : R × R) :
    cplx (Gate.high (Gate.ofMatrix G) a b) = G 1 0 * cplx a + G 1 1 * cplx b := by
  ext
  · simp only [cplx, Gate.high, Gate.ofMatrix, QuadraticAlgebra.re_add, QuadraticAlgebra.re_mul]
    ring
  · simp only [cplx, Gate.high, Gate.ofMatrix, QuadraticAlgebra.im_add, QuadraticAlgebra.im_mul]
    ring

end Complex

/-! ## The scratch arrays -/

/-- `tmp_re` and `tmp_im`. -/
def Stat.isScratch : Stat → Bool
  | .psiRe | .psiIm => false
  | .tmpRe | .tmpIm => true

/-- The accesses to the scratch arrays read the entries below `r` and write those below
    `w`. -/
structure ScratchLog (r w : Nat) (log : List Access) : Prop where
  read : ∀ t i, Stat.isScratch t = true → (.readStat t i ∈ log ↔ i < r)
  write : ∀ t i, Stat.isScratch t = true → (.writeStat t i ∈ log ↔ i < w)

variable {D : Type}

/-- The accesses since `s₀`. -/
def NewScratchLog (r w : Nat) (s₀ s : Kern D) : Prop :=
  ∃ new, s.log = new ++ s₀.log ∧ ScratchLog r w new

theorem NewScratchLog.refl (s : Kern D) : NewScratchLog 0 0 s s :=
  ⟨[], rfl, by simp, by simp⟩

/-- The first loop writes the scratch arrays and does not read them. -/
theorem stash_scratchLog (q dim : Nat) (s : Kern D) :
    NewScratchLog 0 (clearBelow q dim) s
      ((Loop.up dim (apply1qStash (1 <<< q)) 0).run s).2 := by
  apply countedLoop_inv (q := q) (fun m s' => NewScratchLog 0 m s s')
  · exact fun i n0 s' hb => run_apply1qStash_set hb n0 s'
  · intro i s' _ hb hinv
    obtain ⟨new, hlog, hnew⟩ := hinv
    obtain ⟨hcount, hstep⟩ := run_apply1qStash_clear hb (clearBelow q i) s'
    refine ⟨hcount, _, by rw [hstep.log, hlog, ← List.append_assoc], ?_, ?_⟩
    · intro t x ht
      cases t with
      | psiRe | psiIm => cases ht
      | tmpRe | tmpIm => simp [hnew.read _ x ht]
    · intro t x ht
      cases t with
      | psiRe | psiIm => cases ht
      | tmpRe | tmpIm => simp [hnew.write _ x ht, le_iff_eq_or_lt]
  · exact NewScratchLog.refl s

/-- The second loop reads the scratch arrays and does not write them. -/
theorem mix_scratchLog [Add D] [Sub D] [Mul D] (q dim : Nat) (g : Gate D) (s : Kern D) :
    NewScratchLog (clearBelow q dim) 0 s
      ((Loop.up dim (apply1qMix (1 <<< q) g) 0).run s).2 := by
  apply countedLoop_inv (q := q) (fun m s' => NewScratchLog m 0 s s')
  · exact fun i n0 s' hb => run_apply1qMix_set hb g n0 s'
  · intro i s' _ hb hinv
    obtain ⟨new, hlog, hnew⟩ := hinv
    obtain ⟨hcount, hstep⟩ := run_apply1qMix_clear hb g (clearBelow q i) s'
    refine ⟨hcount, _, by rw [hstep.log, hlog, ← List.append_assoc], ?_, ?_⟩
    · intro t x ht
      cases t with
      | psiRe | psiIm => cases ht
      | tmpRe | tmpIm => simp [hnew.read _ x ht, le_iff_eq_or_lt]
    · intro t x ht
      cases t with
      | psiRe | psiIm => cases ht
      | tmpRe | tmpIm => simp [hnew.write _ x ht]
  · exact NewScratchLog.refl s

/-- If the first loop writes what the second one reads, and reads nothing itself, then
    every read of the two comes after its write. -/
theorem write_mem_of_read {m : Nat} {first second later earlier : List Access} {t : Stat} {i : Nat}
    (h₁ : ScratchLog 0 m first) (h₂ : ScratchLog m 0 second) (ht : Stat.isScratch t = true)
    (hsplit : second ++ first = later ++ .readStat t i :: earlier) :
    .writeStat t i ∈ earlier := by
  -- the log is latest first: the split is in the second loop or in the first
  rcases List.append_eq_append_iff.mp hsplit with ⟨mid, hlater, hfirst⟩ | ⟨mid, hsecond, hrest⟩
  · have hread : .readStat t i ∈ first := by
      rw [hfirst]
      simp
    exact absurd ((h₁.read t i ht).mp hread) (Nat.not_lt_zero i)
  · cases mid with
    | nil =>
      have hread : .readStat t i ∈ first := by
        rw [← List.nil_append first, ← hrest]
        simp
      exact absurd ((h₁.read t i ht).mp hread) (Nat.not_lt_zero i)
    | cons a mid =>
      rw [List.cons_append, List.cons.injEq] at hrest
      obtain ⟨rfl, rfl⟩ := hrest
      have hread : .readStat t i ∈ second := by
        rw [hsecond]
        simp
      have hwrite := (h₁.write t i ht).mpr ((h₂.read t i ht).mp hread)
      exact List.mem_append_right mid hwrite

/-! ## The gate -/

/-- `apply_1q` on one pair of amplitudes. -/
theorem cplx_apply1q {R : Type} [CommRing R] {n q i : Nat} (hq : q < n)
    (G : Matrix (Fin 2) (Fin 2) (Cplx R)) (s : Kern R) (hdim : s.kernDim = 2 ^ n) (hi : i < 2 ^ n)
    (hb : i.testBit q = false) :
    cplx (amp ((apply1q q (Gate.ofMatrix G)).run s).2 i) =
      G 0 0 * cplx (amp s i) + G 0 1 * cplx (amp s (Nat.flipBit q i)) ∧
    cplx (amp ((apply1q q (Gate.ofMatrix G)).run s).2 (Nat.flipBit q i)) =
      G 1 0 * cplx (amp s i) + G 1 1 * cplx (amp s (Nat.flipBit q i)) := by
  have hfb : (Nat.flipBit q i).testBit q = true := by simp [hb]
  rw [apply1q_amp hq _ s hdim, if_pos hi, apply1q_amp hq _ s hdim, if_pos (Nat.flipBit_lt hq hi)]
  simp only [Gate.act, hb, hfb, Nat.flipBit_flipBit, Bool.false_eq_true, if_false, if_true]
  exact ⟨cplx_low G _ _, cplx_high G _ _⟩

/-- The accesses of `apply_1q` to the scratch arrays, loop by loop. -/
theorem apply1q_scratchLog [Add D] [Sub D] [Mul D] {n q : Nat} (hq : q < n) (g : Gate D)
    (s : Kern D) (hdim : s.kernDim = 2 ^ n) : ∃ first second,
    ((apply1q q g).run s).2.log = second ++ first ++ s.log ∧
    ScratchLog 0 (2 ^ (n - 1)) first ∧ ScratchLog (2 ^ (n - 1)) 0 second := by
  obtain ⟨first, hfirst, h₁⟩ := stash_scratchLog q s.kernDim s
  obtain ⟨second, hsecond, h₂⟩ := mix_scratchLog q s.kernDim g
    ((Loop.up s.kernDim (apply1qStash (1 <<< q)) 0).run s).2
  -- both loops count the indices with the bit clear
  have hcount : clearBelow q s.kernDim = 2 ^ (n - 1) := by
    rw [hdim]
    exact Nat.count_testBit_false hq
  rw [hcount] at h₁ h₂
  refine ⟨first, second, ?_, h₁, h₂⟩
  rw [List.append_assoc, ← hfirst, ← hsecond]
  exact congrArg Kern.log (run_apply1q q g s)

/-- For every width, qubit, statevector and complex gate, and over every commutative ring:
    `apply_1q` multiplies each pair of amplitudes by the gate, leaves the amplitudes from
    `2 ^ n` on alone, accesses the scratch arrays below `2 ^ (n - 1)` only and reads no
    entry of them that it has not written before. -/
theorem apply1q_gate {R : Type} [CommRing R] {n q : Nat} (hq : q < n)
    (G : Matrix (Fin 2) (Fin 2) (Cplx R)) (s : Kern R) (hdim : s.kernDim = 2 ^ n) :
    let s' := ((apply1q q (Gate.ofMatrix G)).run s).2
    (∀ i < 2 ^ n, i.testBit q = false →
      let j := i ||| 1 <<< q
      cplx (amp s' i) = G 0 0 * cplx (amp s i) + G 0 1 * cplx (amp s j) ∧
      cplx (amp s' j) = G 1 0 * cplx (amp s i) + G 1 1 * cplx (amp s j)) ∧
    (∀ i, 2 ^ n ≤ i → amp s' i = amp s i) ∧
    ∃ new, s'.log = new ++ s.log ∧
      (∀ t i, Stat.isScratch t = true → .readStat t i ∈ new ∨ .writeStat t i ∈ new →
        i < 2 ^ (n - 1)) ∧
      (∀ t i later earlier, Stat.isScratch t = true →
        new = later ++ .readStat t i :: earlier → .writeStat t i ∈ earlier) := by
  intro s'
  refine ⟨?_, ?_, ?_⟩
  · intro i hi hb j
    have hj : j = Nat.flipBit q i := Nat.or_shiftLeft_eq_flipBit hb
    rw [hj]
    exact cplx_apply1q hq G s hdim hi hb
  · intro i hi
    have hamp := apply1q_amp hq (Gate.ofMatrix G) s hdim i
    rw [if_neg (by omega)] at hamp
    exact hamp
  -- the first loop writes the scratch arrays, the second reads them
  · obtain ⟨first, second, hlog, h₁, h₂⟩ := apply1q_scratchLog hq (Gate.ofMatrix G) s hdim
    refine ⟨second ++ first, hlog, ?_, ?_⟩
    · intro t i ht haccess
      rw [List.mem_append, List.mem_append, h₁.read t i ht, h₁.write t i ht, h₂.read t i ht,
        h₂.write t i ht] at haccess
      omega
    · intro t i later earlier ht hsplit
      exact write_mem_of_read h₁ h₂ ht hsplit

/-- A register of three qubits with eight different amplitudes, over the integers. -/
def threeQubits : Kern ℤ where
  stat a i :=
    match a with
    | .psiRe => i
    | .psiIm => 2 * i + 1
    | _ => 0
  loc _ _ := 0
  kernNq := 3
  kernDim := 8
  rngState := 0
  log := []

/-- A gate with an imaginary entry. -/
def shearGate : Matrix (Fin 2) (Fin 2) (Cplx ℤ) :=
  !![1, ⟨0, 1⟩; 1, -1]

/-- On the middle qubit, the amplitudes 5 and 7 are a pair. -/
theorem apply1q_gate_threeQubits :
    cplx (amp ((apply1q 1 (Gate.ofMatrix shearGate)).run threeQubits).2 5) = ⟨-10, 18⟩ ∧
    cplx (amp ((apply1q 1 (Gate.ofMatrix shearGate)).run threeQubits).2 7) = ⟨-2, -4⟩ := by
  obtain ⟨hpair, -, -⟩ := apply1q_gate (n := 3) (q := 1) (by decide) shearGate threeQubits rfl
  obtain ⟨hlow, hhigh⟩ := hpair 5 (by decide) (by decide)
  refine ⟨hlow.trans ?_, hhigh.trans ?_⟩
  · decide
  · decide

end OpteeRpi5.Spec
