import Mathlib.Algebra.Order.Archimedean.Real.Basic
import Mathlib.Algebra.Order.Floor.Semiring
import Mathlib.Data.Fintype.EquivFin
import Mathlib.Data.Fintype.Lattice
import Mathlib.Tactic.Linarith
import Mathlib.Tactic.Positivity
import OpteeRpi5.ForMathlib.Numerals

/-!
# Single-precision numbers

The value of a 32-bit pattern in the binary32 format of IEEE 754: a sign bit, eight bits
of exponent and 23 bits of fraction. A real number is rounded to a finite pattern whose
value is nearest to it; which one is taken between two nearest ones is left open.

Between two powers of two the patterns are evenly spaced, so rounding there moves a number
by one unit in the last place at most. A number that has a pattern is not moved, and twice
a number has one unless it overflows, so that averaging two equal numbers is exact.

Candidates for upstreaming to Mathlib.
-/

namespace Binary32

open scoped Numerals

/-- The exponent field. -/
def expField (w : UInt32) : Nat := w.toNat / 2 ^ 23 % 2 ^ 8

/-- The fraction field. -/
def fracField (w : UInt32) : Nat := w.toNat % 2 ^ 23

/-- Neither an infinity nor a NaN. -/
def IsFinite (w : UInt32) : Prop := expField w ≠ 255

theorem isFinite_zero : IsFinite 0 := by
  simp [IsFinite, expField]

/-- The value of a finite pattern. -/
def value (w : UInt32) : ℚ :=
  (if w.toNat / 2 ^ 31 = 0 then 1 else -1) *
    if expField w = 0 then fracField w * (2 : ℚ) ^ (-149 : ℤ)
    else (2 ^ 23 + fracField w) * (2 : ℚ) ^ ((expField w : ℤ) - 150)

theorem exists_nearest (x : ℝ) :
    ∃ w, IsFinite w ∧ ∀ w', IsFinite w' → |(value w : ℝ) - x| ≤ |(value w' : ℝ) - x| := by
  have hfin : Finite UInt32 := Finite.of_injective UInt32.toFin fun _ _ => UInt32.toFin_inj.mp
  have hne : Nonempty {w : UInt32 // IsFinite w} := ⟨⟨0, isFinite_zero⟩⟩
  obtain ⟨⟨w, hw⟩, hmin⟩ := Finite.exists_min fun w : {w : UInt32 // IsFinite w} =>
    |(value w.1 : ℝ) - x|
  exact ⟨w, hw, fun w' hw' => hmin ⟨w', hw'⟩⟩

/-- A finite pattern with a value nearest to `x`. -/
noncomputable def round (x : ℝ) : UInt32 := (exists_nearest x).choose

theorem round_nearest (x : ℝ) {w : UInt32} (hw : IsFinite w) :
    |(value (round x) : ℝ) - x| ≤ |(value w : ℝ) - x| :=
  (exists_nearest x).choose_spec.2 w hw

theorem isFinite_round (x : ℝ) : IsFinite (round x) :=
  (exists_nearest x).choose_spec.1

/-- A number that has a pattern is not moved. -/
theorem value_round_value {w : UInt32} (hw : IsFinite w) : value (round (value w)) = value w := by
  have h := round_nearest (value w) hw
  rw [sub_self, abs_zero] at h
  exact_mod_cast sub_eq_zero.mp (abs_nonpos_iff.mp h)

/-- The pattern with exponent field `e` and `m` units in the last place. -/
theorem value_ofNat {e m : Nat} (he : 1 ≤ e) (he' : e ≤ 254) (hm : 2 ^ 23 ≤ m)
    (hm' : m < 2 ^ 24) :
    IsFinite (UInt32.ofNat (e * 2 ^ 23 + (m - 2 ^ 23))) ∧
    value (UInt32.ofNat (e * 2 ^ 23 + (m - 2 ^ 23))) = m * (2 : ℚ) ^ ((e : ℤ) - 150) := by
  -- the fields do not overlap, and the sign bit is clear
  have htoNat : (UInt32.ofNat (e * 2 ^ 23 + (m - 2 ^ 23))).toNat = e * 2 ^ 23 + (m - 2 ^ 23) := by
    rw [UInt32.toNat_ofNat']
    omega
  have hexp : expField (UInt32.ofNat (e * 2 ^ 23 + (m - 2 ^ 23))) = e := by
    rw [expField, htoNat]
    omega
  have hfrac : fracField (UInt32.ofNat (e * 2 ^ 23 + (m - 2 ^ 23))) = m - 2 ^ 23 := by
    rw [fracField, htoNat]
    omega
  constructor
  · rw [IsFinite, hexp]
    omega
  · have hsign : (UInt32.ofNat (e * 2 ^ 23 + (m - 2 ^ 23))).toNat / 2 ^ 31 = 0 := by
      rw [htoNat]
      omega
    rw [value, hsign, hexp, hfrac, if_pos rfl, if_neg (by omega), Nat.cast_sub hm]
    push_cast
    ring

/-- Rounding moves a number between two powers of two by one unit in the last place at
    most. -/
theorem abs_round_sub_le {e : Nat} (he : 1 ≤ e) (he' : e ≤ 254) {x : ℝ}
    (hx : (2 : ℝ) ^ ((e : ℤ) - 127) ≤ x) (hx' : x < (2 : ℝ) ^ ((e : ℤ) - 126)) :
    |(value (round x) : ℝ) - x| ≤ (2 : ℝ) ^ ((e : ℤ) - 150) := by
  -- `x` in units of the last place
  obtain ⟨u, hu, hulp⟩ : ∃ u : ℝ, u = (2 : ℝ) ^ ((e : ℤ) - 150) ∧ 0 < u :=
    ⟨_, rfl, zpow_pos two_pos _⟩
  have hlow : ((2 ^ 23 : ℕ) : ℝ) ≤ x / u := by
    rw [le_div_iff₀ hulp, hu]
    refine le_of_eq_of_le ?_ hx
    rw [Nat.cast_pow, Nat.cast_ofNat, ← zpow_natCast, ← zpow_add₀ two_ne_zero]
    congr 1
    push_cast
    ring
  have hhigh : x / u < ((2 ^ 24 : ℕ) : ℝ) := by
    rw [div_lt_iff₀ hulp, hu]
    refine lt_of_lt_of_eq hx' ?_
    rw [Nat.cast_pow, Nat.cast_ofNat, ← zpow_natCast, ← zpow_add₀ two_ne_zero]
    congr 1
    push_cast
    ring
  have hx0 : 0 ≤ x / u := (Nat.cast_nonneg _).trans hlow
  obtain ⟨hfinite, hvalue⟩ := value_ofNat he he' (Nat.le_floor hlow)
    ((Nat.floor_lt hx0).mpr hhigh)
  refine (round_nearest x hfinite).trans ?_
  rw [hvalue]
  push_cast
  rw [← hu]
  have hfloor := Nat.floor_le hx0
  have hfloor' := (Nat.lt_floor_add_one (x / u)).le
  rw [le_div_iff₀ hulp] at hfloor
  rw [div_le_iff₀ hulp] at hfloor'
  rw [abs_le]
  constructor
  · linarith
  · linarith

/-! ## Doubling -/

/-- The size of a number, by the exponent field. -/
theorem abs_value (w : UInt32) :
    |value w| = if expField w = 0 then fracField w * (2 : ℚ) ^ (-149 : ℤ)
      else (2 ^ 23 + fracField w) * (2 : ℚ) ^ ((expField w : ℤ) - 150) := by
  have hsign : |(if w.toNat / 2 ^ 31 = 0 then 1 else -1 : ℚ)| = 1 := by split <;> simp
  rw [value, abs_mul, hsign, one_mul, abs_of_nonneg]
  split
  · exact mul_nonneg (Nat.cast_nonneg _) (zpow_nonneg (by norm_num) _)
  · exact mul_nonneg (add_nonneg (by norm_num) (Nat.cast_nonneg _)) (zpow_nonneg (by norm_num) _)

/-- Numbers of moderate size are normal, and so is their double. -/
theorem expField_of_abs_value {w : UInt32} (hw : IsFinite w) (hlow : 1 / 2 ≤ |value w|)
    (hhigh : |value w| < 8) : expField w ≠ 0 ∧ expField w < 254 := by
  have hfrac : (fracField w : ℚ) < 2 ^ 23 := by
    have hlt : fracField w < 2 ^ 23 := Nat.mod_lt _ (by decide)
    exact_mod_cast hlt
  have hfrac0 : (0 : ℚ) ≤ fracField w := Nat.cast_nonneg _
  rw [abs_value] at hlow hhigh
  by_cases h0 : expField w = 0
  -- a subnormal number is far below one half
  · rw [if_pos h0] at hlow
    norm_num at hlow
    linarith
  · rw [if_neg h0] at hhigh
    refine ⟨h0, ?_⟩
    -- the largest exponent is far above 8
    by_contra hge
    have h254 : expField w = 254 := by
      have hlt : expField w < 2 ^ 8 := Nat.mod_lt _ (by decide)
      have hne : expField w ≠ 255 := hw
      omega
    rw [h254] at hhigh
    norm_num at hhigh
    linarith

/-- The pattern with the next exponent has twice the value. -/
theorem value_add_exp {w : UInt32} (h0 : expField w ≠ 0) (h254 : expField w < 254) :
    IsFinite (w + 8388608) ∧ value (w + 8388608) = 2 * value w := by
  unfold expField at h0 h254
  have hw := w.toNat_lt
  have htoNat : (w + 8388608).toNat = w.toNat + 8388608 := by
    rw [UInt32.toNat_add]
    exact Nat.mod_eq_of_lt (by change w.toNat + 8388608 < 2 ^ 32; omega)
  -- the exponent field starts at bit 23, and below 254 nothing carries out of it
  have hexp : expField (w + 8388608) = expField w + 1 := by
    unfold expField
    rw [htoNat]
    omega
  have hfrac : fracField (w + 8388608) = fracField w := by
    unfold fracField
    rw [htoNat]
    omega
  have hsign : (w + 8388608).toNat / 2 ^ 31 = w.toNat / 2 ^ 31 := by
    rw [htoNat]
    omega
  have hexp0 : expField w ≠ 0 := h0
  constructor
  · rw [IsFinite, hexp]
    unfold expField
    omega
  · rw [value, value, hexp, hfrac, hsign, if_neg (Nat.succ_ne_zero _), if_neg hexp0]
    have hnext : ((expField w + 1 : ℕ) : ℤ) - 150 = 1 + ((expField w : ℤ) - 150) := by omega
    rw [hnext, zpow_one_add₀ two_ne_zero]
    ring

/-! ## Arithmetic -/

/-- A single-precision number. The result of an operation is the rounded exact one. -/
structure Single where
  bits : UInt32

namespace Single

/-- The value. -/
noncomputable def val (a : Single) : ℝ := (value a.bits : ℝ)

noncomputable instance : RatCast Single := ⟨fun q => ⟨round q⟩⟩

noncomputable instance : Add Single := ⟨fun a b => ⟨round (a.val + b.val)⟩⟩

noncomputable instance : Mul Single := ⟨fun a b => ⟨round (a.val * b.val)⟩⟩

theorem val_ratCast (q : ℚ) : (q : Single).val = (value (round q) : ℝ) := rfl

theorem val_add (a b : Single) : (a + b).val = (value (round (a.val + b.val)) : ℝ) := rfl

theorem val_mul (a b : Single) : (a * b).val = (value (round (a.val * b.val)) : ℝ) := rfl

theorem add_swap (a b : Single) : a + b = b + a :=
  congrArg (fun x => Single.mk (round x)) (add_comm a.val b.val)

theorem val_half : ((1 / 2 : ℚ) : Single).val = 1 / 2 := by
  obtain ⟨hfinite, hvalue⟩ := value_ofNat (e := 126) (m := 2 ^ 23) (by decide) (by decide)
    (Nat.le_refl _) (by decide)
  have hhalf : (1 / 2 : ℚ) = value (UInt32.ofNat (126 * 2 ^ 23 + (2 ^ 23 - 2 ^ 23))) := by
    rw [hvalue]
    norm_num
  rw [val_ratCast, hhalf, value_round_value hfinite, ← hhalf]
  norm_num

/-- Averaging two equal numbers is exact. -/
theorem val_half_mul_add_self {a : Single} (hfinite : IsFinite a.bits) (hlow : 1 / 2 ≤ a.val)
    (hhigh : a.val < 8) : (((1 / 2 : ℚ) : Single) * (a + a)).val = a.val := by
  have hlow' : 1 / 2 ≤ value a.bits := by
    have h : ((1 / 2 : ℚ) : ℝ) ≤ value a.bits := le_of_eq_of_le (by norm_num) hlow
    exact_mod_cast h
  have hhigh' : value a.bits < 8 := by
    have h : ((value a.bits : ℚ) : ℝ) < ((8 : ℚ) : ℝ) := lt_of_lt_of_eq hhigh (by norm_num)
    exact_mod_cast h
  have habs : |value a.bits| = value a.bits := abs_of_nonneg (le_trans (by norm_num) hlow')
  obtain ⟨h0, h254⟩ := expField_of_abs_value hfinite (hlow'.trans_eq habs.symm)
    (habs.trans_lt hhigh')
  obtain ⟨hdouble, hvalue⟩ := value_add_exp h0 h254
  -- the sum is the number with the next exponent, so it is not rounded
  have hadd : (a + a).val = 2 * a.val := by
    have hsum : a.val + a.val = ((value (a.bits + 8388608) : ℚ) : ℝ) := by
      rw [hvalue, val]
      push_cast
      ring
    rw [val_add, hsum, value_round_value hdouble, ← hsum]
    ring
  -- half of it is the number itself
  have hprod : 1 / 2 * (2 * a.val) = ((value a.bits : ℚ) : ℝ) := by
    rw [val]
    ring
  rw [val_mul, val_half, hadd, hprod, value_round_value hfinite]
  rfl

end Single

end Binary32
