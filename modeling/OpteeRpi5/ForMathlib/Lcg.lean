import Mathlib.Algebra.Ring.GeomSum
import Mathlib.Data.ZMod.Basic
import Mathlib.NumberTheory.Multiplicity
import Mathlib.Tactic.LinearCombination

/-!
# Linear congruential generators modulo a power of two

A generator multiplies its state by `a` and adds `c`. After `n` steps the state has moved by
a geometric sum times a number that does not depend on `n`. When `a - 1` is a multiple of
four and `c` is odd, that number is odd, and the sum is divisible by the same powers of two
as `n`. So the states of `2 ^ k` steps are all different, from any start.

Candidates for upstreaming to Mathlib.
-/

namespace Lcg

/-- One step of a generator. -/
def step {R : Type*} [CommRing R] (a c x : R) : R := x * a + c

/-- After `n` steps. -/
theorem iterate_step {R : Type*} [CommRing R] (a c x : R) (n : ℕ) :
    (step a c)^[n] x = x + (∑ i ∈ Finset.range n, a ^ i) * (x * (a - 1) + c) := by
  induction n with
  | zero => simp
  | succ n ih =>
    rw [Function.iterate_succ_apply', ih, geom_sum_succ, step]
    ring

/-- A geometric sum is divisible by the same powers of two as its length. -/
theorem two_pow_dvd_geom_sum {a : ℤ} (ha : 4 ∣ a - 1) (k n : ℕ) :
    2 ^ k ∣ ∑ i ∈ Finset.range n, a ^ i ↔ 2 ^ k ∣ (n : ℤ) := by
  have hodd : ¬ 2 ∣ a := by omega
  have hmul : emultiplicity 2 (∑ i ∈ Finset.range n, a ^ i) = emultiplicity 2 (n : ℤ) := by
    by_cases ha1 : a = 1
    · simp [ha1]
    · -- the factor `a - 1` has the same power of two on both sides
      have hlift := Int.two_pow_sub_pow' n ha hodd
      rw [one_pow, ← mul_geom_sum, emultiplicity_mul Int.prime_two] at hlift
      have hfinite : FiniteMultiplicity 2 (a - 1) :=
        Int.finiteMultiplicity_iff.mpr ⟨by decide, sub_ne_zero.mpr ha1⟩
      exact ENat.add_right_injective_of_ne_top
        (finiteMultiplicity_iff_emultiplicity_ne_top.mp hfinite) hlift
  rw [pow_dvd_iff_le_emultiplicity, pow_dvd_iff_le_emultiplicity, hmul]

/-- The generator comes back to a state after the multiples of `2 ^ k` steps only. -/
theorem iterate_step_eq_self_iff {k : ℕ} {a c : ℤ} (ha : 4 ∣ a - 1) (hc : ¬ 2 ∣ c)
    (x : ZMod (2 ^ k)) (n : ℕ) :
    (step (a : ZMod (2 ^ k)) c)^[n] x = x ↔ 2 ^ k ∣ n := by
  obtain ⟨z, rfl⟩ := ZMod.intCast_surjective x
  have hodd : ¬ 2 ∣ z * (a - 1) + c := by
    intro h
    have heven : 2 ∣ z * (a - 1) := Dvd.dvd.mul_left (by omega) z
    exact hc ((Int.dvd_add_right heven).mp h)
  have hcast : ((∑ i ∈ Finset.range n, (a : ZMod (2 ^ k)) ^ i) * (z * (a - 1) + c)) =
      (((∑ i ∈ Finset.range n, a ^ i) * (z * (a - 1) + c) : ℤ) : ZMod (2 ^ k)) := by
    push_cast
    ring
  rw [iterate_step, add_eq_left, hcast, ZMod.intCast_zmod_eq_zero_iff_dvd]
  push_cast
  -- the odd factor drops out
  calc (2 : ℤ) ^ k ∣ (∑ i ∈ Finset.range n, a ^ i) * (z * (a - 1) + c)
      ↔ (2 : ℤ) ^ k ∣ ∑ i ∈ Finset.range n, a ^ i :=
        ⟨Int.prime_two.pow_dvd_of_dvd_mul_right k hodd, fun h => Dvd.dvd.mul_right h _⟩
    _ ↔ (2 : ℤ) ^ k ∣ n := two_pow_dvd_geom_sum ha k n
    _ ↔ 2 ^ k ∣ n := by exact_mod_cast Int.natCast_dvd_natCast

end Lcg
