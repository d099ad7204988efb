import Mathlib.Algebra.Group.Nat.Defs

/-!
# Sizes and counts in 32 bits

`uint32_t` expressions for sizes, offsets and counts, and the natural numbers they stand
for while they do not wrap.

Candidates for upstreaming to Lean's standard library.
-/

namespace UInt32

/-- A product of bounded factors does not wrap. -/
theorem toNat_mul_of_le {a b : UInt32} {m n : Nat} (ha : a.toNat ≤ m) (hb : b.toNat ≤ n)
    (h : m * n < 2 ^ 32) : (a * b).toNat = a.toNat * b.toNat := by
  rw [UInt32.toNat_mul]
  apply Nat.mod_eq_of_lt
  calc a.toNat * b.toNat ≤ m * n := Nat.mul_le_mul ha hb
    _ < 2 ^ 32 := h

/-- What is left of `n` after `done`, but at most `c`. -/
theorem toNat_clamp_sub {n done : UInt32} (h : done ≤ n) (c : UInt32) :
    (if n - done > c then c else n - done).toNat = min c.toNat (n.toNat - done.toNat) := by
  have hsub : (n - done).toNat = n.toNat - done.toNat := UInt32.toNat_sub_of_le _ _ h
  by_cases hbig : n - done > c
  · have hlt : c.toNat < (n - done).toNat := UInt32.lt_iff_toNat_lt.mp hbig
    rw [if_pos hbig]
    omega
  · have hle : ¬ c.toNat < (n - done).toNat := fun hlt =>
      hbig (UInt32.lt_iff_toNat_lt.mpr hlt)
    rw [if_neg hbig]
    omega

end UInt32
