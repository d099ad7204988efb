import Mathlib.Data.Complex.BigOperators
import Mathlib.Tactic.Linarith
import OpteeRpi5.ForMathlib.Mirror
import OpteeRpi5.ForMathlib.Numerals
import OpteeRpi5.ForMathlib.SiteAct
import OpteeRpi5.Spec.CircuitCorrect

/-!
# The two halves of the circuit are mirror images

Over exact real arithmetic the amplitudes below `kern_dim` are a complex vector, and
`layer_inv` is the mirror image of `layer_fwd`: its adjoint, and its inverse up to the
factor by which the sine and cosine miss the unit circle. This rests on the order of the
gates in the two layers and on the parity of sine and cosine only, not on their values.

## Key results

- `ParityTrig`: an odd sine and an even cosine, of which `kParity` is the TA's
- `layer_mirror`: `layer_inv` is the mirror image of `layer_fwd`
- `circuitAct_self`: mirrored with itself, the circuit is a multiple of the identity
- `circuitAct_overlap`: the first amplitude is the product of two feature states
-/

namespace OpteeRpi5.Spec

open OpteeRpi5.Native Matrix
open scoped Numerals

/-! ## Parity of sine and cosine -/

/-- An odd sine and an even cosine. -/
structure ParityTrig extends Trig ℝ where
  sin_neg : ∀ a, sin (-a) = -sin a
  cos_neg : ∀ a, cos (-a) = cos a

/-- How far the point of angle `a` is from the origin, squared. -/
def ParityTrig.normSq (t : ParityTrig) (a : ℝ) : ℝ := t.cos a ^ 2 + t.sin a ^ 2

/-- A literal is its value. -/
theorem lit_real (q : ℚ) : (lit q : ℝ) = (q : ℝ) := rfl

@[simp] theorem lit_zero_real : (lit 0 : ℝ) = 0 := Rat.cast_zero

@[simp] theorem lit_one_real : (lit 1 : ℝ) = 1 := Rat.cast_one

theorem mul_lit_half (a : ℝ) : a * lit (1 / 2) = a / 2 := by
  rw [lit_real]
  push_cast
  ring

/-- `k_sin` is odd. -/
theorem kSin_neg (a : ℝ) : kSin (-a) = -kSin a := by
  rcases lt_trichotomy a 0 with h | h | h
  · -- the sign is taken off `a`
    have hneg : ¬ -a < 0 := by linarith
    simp only [kSin, lit_zero_real, if_pos h, if_neg hneg, neg_neg]
  · subst h
    have hpi : ¬ (qaiPi : ℝ) < 0 := by
      rw [qaiPi, lit_real]
      norm_num
    have hhalf : ¬ (qaiPi : ℝ) * lit (1 / 2) < 0 := by
      rw [mul_lit_half]
      linarith
    simp only [kSin, lit_zero_real, neg_zero, lt_irrefl, if_false, if_neg hpi, if_neg hhalf,
      zero_mul]
  · -- the sign is taken off `-a`
    have hneg : -a < 0 := by linarith
    simp only [kSin, lit_zero_real, if_neg h.not_gt, if_pos hneg, neg_neg]

/-- `k_cos` is even. -/
theorem kCos_neg (a : ℝ) : kCos (-a) = kCos a := by
  have habs : (if -a < 0 then - -a else -a) = if a < 0 then -a else a := by
    rcases lt_trichotomy a 0 with h | h | h
    · rw [if_pos h, if_neg (by linarith)]
    · simp [h]
    · rw [if_neg h.not_gt, if_pos (by linarith), neg_neg]
  simp only [kCos, lit_zero_real, habs]

/-- The sine and cosine of the TA. -/
noncomputable def kParity : ParityTrig where
  toTrig := kTrig
  sin_neg := kSin_neg
  cos_neg := kCos_neg

/-! ## Amplitudes as vectors -/

/-- The first `2 ^ n` amplitudes. -/
def vec (n : Nat) (f : Nat → ℝ × ℝ) : Fin (2 ^ n) → ℂ := fun i => ⟨(f i).1, (f i).2⟩

/-- Every vector is that of some amplitudes. -/
theorem vec_surjective (n : Nat) : Function.Surjective (vec n) := by
  intro w
  use fun i => if h : i < 2 ^ n then ((w ⟨i, h⟩).re, (w ⟨i, h⟩).im) else (0, 0)
  ext i
  simp only [vec, dif_pos i.isLt]

/-- The state that the circuit starts in. -/
theorem vec_basisZero (n : Nat) :
    vec n basisZero = Pi.single ⟨0, Nat.two_pow_pos n⟩ 1 := by
  ext i
  by_cases h : i = ⟨0, Nat.two_pow_pos n⟩
  · subst h
    simp [vec, basisZero, Complex.ext_iff]
  · have hval : i.val ≠ 0 := fun h0 => h (Fin.ext h0)
    rw [Pi.single_eq_of_ne h]
    simp [vec, basisZero, hval, Complex.ext_iff]

/-! ## One-qubit gates -/

/-- Bit `q` of a basis index. -/
def bitSite {n q : Nat} (hq : q < n) : Site (Fin (2 ^ n)) Bool where
  get x := x.val.testBit q
  set b x := if x.val.testBit q = b then x else ⟨Nat.flipBit q x, Nat.flipBit_lt hq x.isLt⟩
  get_set b x := by
    by_cases h : x.val.testBit q = b
    · rw [if_pos h, h]
    · rw [if_neg h]
      simp only [Nat.testBit_flipBit_self]
      cases b <;> simp_all
  set_get x := if_pos rfl
  set_set b b' x := by
    cases b <;> cases b' <;> cases hx : x.val.testBit q <;> simp [hx]

/-- The 2x2 matrix of a gate. -/
def gateMat (g : Gate ℝ) : Matrix Bool Bool ℂ := fun r c =>
  match r, c with
  | false, false => ⟨g.g00r, g.g00i⟩
  | false, true => ⟨g.g01r, g.g01i⟩
  | true, false => ⟨g.g10r, g.g10i⟩
  | true, true => ⟨g.g11r, g.g11i⟩

/-- A gate acts by its matrix on the bit of its qubit. -/
theorem vec_act {n q : Nat} (hq : q < n) (g : Gate ℝ) (f : Nat → ℝ × ℝ) :
    vec n (Gate.act g q f) = (bitSite hq).act (gateMat g) (vec n f) := by
  ext x
  rw [Site.act_apply, Fintype.sum_bool]
  cases hx : x.val.testBit q <;>
    simp [vec, Gate.act, Gate.low, Gate.high, bitSite, gateMat, hx, Complex.ext_iff] <;>
    constructor <;> ring

/-- Gates with adjoint matrices that cancel are mirror images. -/
theorem gate_mirror {n q : Nat} (hq : q < n) {g g' : Gate ℝ} {c : ℝ}
    (hadjoint : gateMat g' = (gateMat g)ᴴ)
    (hcancel : gateMat g' * gateMat g = (c : ℂ) • (1 : Matrix Bool Bool ℂ)) :
    Mirror (vec n) (Gate.act g q) (Gate.act g' q) (c : ℂ) where
  adjoint s t := by rw [vec_act hq, vec_act hq, hadjoint, Site.act_adjoint]
  cancel s := by rw [vec_act hq, vec_act hq, ← Site.act_mul, hcancel, Site.act_smul_one]

section Gates

variable (t : ParityTrig)

/-- The factor of a rotation: 1 for the true sine and cosine. -/
theorem normSq_eq (a : ℝ) : t.normSq a = t.cos a * t.cos a + t.sin a * t.sin a := by
  rw [ParityTrig.normSq]
  ring

/-- A rotation about Y is mirrored by the one with the opposite angle. -/
theorem ry_mirror {n q : Nat} (hq : q < n) (a : ℝ) :
    Mirror (vec n) (Gate.act (ryGate t.toTrig a) q) (Gate.act (ryGate t.toTrig (-a)) q)
      (t.normSq (a / 2) : ℂ) := by
  rw [normSq_eq]
  simp only [ryGate, mul_lit_half, neg_div, t.sin_neg, t.cos_neg]
  generalize t.cos (a / 2) = c
  generalize t.sin (a / 2) = s
  apply gate_mirror hq
  · ext i j
    cases i <;> cases j <;> simp [gateMat, Complex.ext_iff]
  · ext i j
    cases i <;> cases j <;> simp [gateMat, mul_apply, Complex.ext_iff] <;> ring

/-- So is a rotation about Z. -/
theorem rz_mirror {n q : Nat} (hq : q < n) (a : ℝ) :
    Mirror (vec n) (Gate.act (rzGate t.toTrig a) q) (Gate.act (rzGate t.toTrig (-a)) q)
      (t.normSq (a / 2) : ℂ) := by
  rw [normSq_eq]
  simp only [rzGate, mul_lit_half, neg_div, t.sin_neg, t.cos_neg]
  generalize t.cos (a / 2) = c
  generalize t.sin (a / 2) = s
  apply gate_mirror hq
  · ext i j
    cases i <;> cases j <;> simp [gateMat, Complex.ext_iff]
  · ext i j
    cases i <;> cases j <;> simp [gateMat, mul_apply, Complex.ext_iff] <;> ring

end Gates

/-! ## Controlled NOT -/

/-- The index map of a controlled NOT, which is its own inverse. -/
def cnotPerm {n c t : Nat} (ht : t < n) (hct : c ≠ t) : Fin (2 ^ n) ≃ Fin (2 ^ n) where
  toFun x := ⟨cnotIndex c t x, cnotIndex_lt ht x.isLt⟩
  invFun x := ⟨cnotIndex c t x, cnotIndex_lt ht x.isLt⟩
  left_inv x := Fin.ext (cnotIndex_cnotIndex hct x)
  right_inv x := Fin.ext (cnotIndex_cnotIndex hct x)

/-- A controlled NOT mirrors itself. -/
theorem cnot_mirror {n c t : Nat} (ht : t < n) (hct : c ≠ t) :
    Mirror (vec n) (fun f x => f (cnotIndex c t x)) (fun f x => f (cnotIndex c t x)) 1 where
  adjoint f g := by
    simp only [dotProduct, Pi.star_apply]
    rw [← (cnotPerm ht hct).sum_comp]
    simp only [vec, cnotPerm, Equiv.coe_fn_mk, cnotIndex_cnotIndex hct]
  cancel f := by
    simp only [cnotIndex_cnotIndex hct, one_smul]

/-- The ring of controlled NOTs and the ring in the opposite order. -/
theorem ring_mirror {n : Nat} (hn : 2 ≤ n) :
    Mirror (vec n) (ringFwdAct n) (ringInvAct n) 1 := by
  have h := Mirror.fold (vec_surjective n) (fun q hq =>
    cnot_mirror (n := n) (Nat.mod_lt (q + 1) (by omega)) (ring_next_ne hn hq))
  rw [Finset.prod_const_one] at h
  exact h

/-! ## Layers -/

section Layers

variable (t : ParityTrig)

/-- The factor of the two rotations of qubit `q`. -/
noncomputable def rotNorm (x : Nat → ℝ) (q : Nat) : ℝ :=
  t.normSq (x (2 * q) / 2) * t.normSq (x (2 * q + 1) / 2)

/-- The factor of a circuit of `reps` layers on `n` qubits. -/
noncomputable def circuitNorm (n : Nat) (x : Nat → ℝ) (reps : Nat) : ℝ :=
  ∏ q ∈ Finset.range n, rotNorm t x q ^ (2 * reps)

/-- The rotations of a qubit are mirrored by the inverse ones. -/
theorem rot_mirror {n q : Nat} (hq : q < n) (x : Nat → ℝ) :
    Mirror (vec n) (rotFwdAct t.toTrig x q) (rotInvAct t.toTrig x q) (rotNorm t x q : ℂ) := by
  have h := (ry_mirror t hq (x (2 * q))).comp (vec_surjective n)
    (rz_mirror t hq (x (2 * q + 1)))
  rw [← Complex.ofReal_mul] at h
  exact h

/-- `layer_inv` is the mirror image of `layer_fwd`: rotations, ring and rotations are
    undone in the opposite order. -/
theorem layer_mirror {n : Nat} (hn : 2 ≤ n) (x : Nat → ℝ) :
    Mirror (vec n) (layerFwdAct n t.toTrig x) (layerInvAct n t.toTrig x)
      ((∏ q ∈ Finset.range n, (rotNorm t x q : ℂ)) ^ 2) := by
  have hv := vec_surjective n
  have hrot := Mirror.fold hv (fun q hq => rot_mirror t hq x)
  have h := hrot.comp hv ((ring_mirror hn).comp hv hrot)
  rw [one_mul, ← sq] at h
  exact h

/-- `reps` layers, and `reps` mirrored layers. -/
theorem circuit_mirror {n : Nat} (hn : 2 ≤ n) (x : Nat → ℝ) (reps : Nat) :
    Mirror (vec n) (Loop.fold reps (fun _ => layerFwdAct n t.toTrig x))
      (Loop.fold reps (fun _ => layerInvAct n t.toTrig x)) (circuitNorm t n x reps : ℂ) := by
  have h := (layer_mirror t hn x).iterate (vec_surjective n) reps
  rw [← pow_mul, ← Finset.prod_pow] at h
  simp only [circuitNorm, Complex.ofReal_prod, Complex.ofReal_pow]
  exact h

/-- Mirrored with itself, the circuit only scales the first basis vector. -/
theorem circuitAct_self {n : Nat} (hn : 2 ≤ n) (x : Nat → ℝ) (reps : Nat) :
    vec n (circuitAct n t.toTrig x x reps) =
      (circuitNorm t n x reps : ℂ) • vec n basisZero :=
  (circuit_mirror t hn x reps).cancel basisZero

/-- The state that the first half of the circuit prepares. -/
def featureState (n : Nat) (reps : Nat) (x : Nat → ℝ) : Fin (2 ^ n) → ℂ :=
  vec n (Loop.fold reps (fun _ => layerFwdAct n t.toTrig x) basisZero)

/-- The first amplitude is the product of the feature states of the two vectors. -/
theorem circuitAct_overlap {n : Nat} (hn : 2 ≤ n) (x y : Nat → ℝ) (reps : Nat) :
    vec n (circuitAct n t.toTrig x y reps) ⟨0, Nat.two_pow_pos n⟩ =
      star (featureState t n reps y) ⬝ᵥ featureState t n reps x := by
  have h := (circuit_mirror t hn y reps).adjoint basisZero
    (Loop.fold reps (fun _ => layerFwdAct n t.toTrig x) basisZero)
  rw [featureState, featureState, h, vec_basisZero, Pi.star_single, star_one,
    single_one_dotProduct]
  rfl

end Layers

end OpteeRpi5.Spec
