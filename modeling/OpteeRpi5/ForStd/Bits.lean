import Mathlib.Data.Nat.Bitwise
import Mathlib.Data.Nat.Count

/-!
# Flipping one bit of an index

`Nat.flipBit q x` is `x` with bit `q` inverted, the partner of `x` in a pass over an
array that pairs the entries differing in bit `q`. The number of indices below `k`
with bit `q` clear is `Nat.count (fun i => i.testBit q = false) k`; below `2 ^ n` they
are half of all indices.

Candidates for upstreaming to Lean's standard library.
-/

namespace Nat

/-- `x` with bit `q` inverted. -/
def flipBit (q x : Nat) : Nat := x ^^^ 2 ^ q

@[simp] theorem flipBit_flipBit (q x : Nat) : flipBit q (flipBit q x) = x := by
  simp only [flipBit, Nat.xor_assoc, Nat.xor_self, Nat.xor_zero]

@[simp] theorem testBit_flipBit_self (q x : Nat) :
    (flipBit q x).testBit q = !x.testBit q := by
  simp only [flipBit, Nat.testBit_xor, Nat.testBit_two_pow_self, Bool.xor_true]

theorem testBit_flipBit_of_ne {q r : Nat} (h : q ≠ r) (x : Nat) :
    (flipBit q x).testBit r = x.testBit r := by
  simp only [flipBit, Nat.testBit_xor, Nat.testBit_two_pow_of_ne h, Bool.xor_false]

theorem flipBit_ne (q x : Nat) : flipBit q x ≠ x := by
  intro h
  have hb := congrArg (fun y => y.testBit q) h
  simp at hb

theorem flipBit_inj {q x y : Nat} (h : flipBit q x = flipBit q y) : x = y := by
  rw [← flipBit_flipBit q x, h, flipBit_flipBit]

/-- Indices that differ in a bit are different. -/
theorem ne_of_testBit {q x y : Nat} (hx : x.testBit q = false) (hy : y.testBit q = true) :
    x ≠ y := by
  intro h
  rw [h, hy] at hx
  cases hx

/-- Flipping a bit below `n` keeps an index below `2 ^ n`. -/
theorem flipBit_lt {q n x : Nat} (hq : q < n) (hx : x < 2 ^ n) : flipBit q x < 2 ^ n :=
  Nat.xor_lt_two_pow hx (Nat.pow_lt_pow_right (by omega) hq)

theorem flipBit_lt_iff {q n x : Nat} (hq : q < n) : flipBit q x < 2 ^ n ↔ x < 2 ^ n := by
  constructor
  · intro h
    have h' := flipBit_lt hq h
    rwa [flipBit_flipBit] at h'
  · exact flipBit_lt hq

/-! ## Updates of a pair -/

section Update

variable {α : Type} (q k : Nat) (f : Nat → α) (a b : α)

/-- Both elements of a pair after they have been set. -/
theorem update_pair_self :
    Function.update (Function.update f k a) (flipBit q k) b k = a ∧
    Function.update (Function.update f k a) (flipBit q k) b (flipBit q k) = b := by
  rw [Function.update_of_ne (flipBit_ne q k).symm, Function.update_self, Function.update_self]
  exact ⟨rfl, rfl⟩

/-- An element of another pair stays. -/
theorem update_pair_of_ne {x : Nat} (hk : x ≠ k) (hf : x ≠ flipBit q k) :
    Function.update (Function.update f k a) (flipBit q k) b x = f x := by
  rw [Function.update_of_ne hf, Function.update_of_ne hk]

/-- The partner of an element of another pair stays as well. -/
theorem update_pair_flipBit_of_ne {x : Nat} (hk : x ≠ k) (hf : x ≠ flipBit q k) :
    Function.update (Function.update f k a) (flipBit q k) b (flipBit q x) = f (flipBit q x) := by
  apply update_pair_of_ne
  · intro h
    exact hf (by rw [← h, flipBit_flipBit])
  · intro h
    exact hk (flipBit_inj h)

end Update

/-! ## Masks -/

/-- The mask test of C is `testBit`. -/
theorem and_shiftLeft_ne_zero (i q : Nat) : i &&& 1 <<< q ≠ 0 ↔ i.testBit q = true := by
  rw [Nat.one_shiftLeft, Nat.and_two_pow]
  have hpos : 2 ^ q ≠ 0 := (Nat.two_pow_pos q).ne'
  cases hb : i.testBit q with
  | false => simp
  | true => simp

theorem and_shiftLeft_eq_zero (i q : Nat) : i &&& 1 <<< q = 0 ↔ i.testBit q = false := by
  have h := and_shiftLeft_ne_zero i q
  rw [← Bool.not_eq_true, ← h, Decidable.not_not]

/-- Setting a clear bit flips it. -/
theorem or_shiftLeft_eq_flipBit {i q : Nat} (h : i.testBit q = false) :
    i ||| 1 <<< q = flipBit q i := by
  apply Nat.eq_of_testBit_eq
  intro r
  rw [Nat.one_shiftLeft, flipBit, Nat.testBit_or, Nat.testBit_xor]
  by_cases hr : q = r
  · subst hr
    rw [h, Nat.testBit_two_pow_self]; rfl
  · rw [Nat.testBit_two_pow_of_ne hr, Bool.or_false, Bool.xor_false]

/-! ## Counting indices with a clear bit -/

/-- Half of the indices below `2 ^ n` have bit `q < n` clear. -/
theorem count_testBit_false {q n : Nat} (hq : q < n) :
    Nat.count (fun i => i.testBit q = false) (2 ^ n) = 2 ^ (n - 1) := by
  have hclear := Nat.count_eq_card_filter_range (fun i => i.testBit q = false) (2 ^ n)
  have hsplit := Finset.card_filter_add_card_filter_not (s := Finset.range (2 ^ n))
    (fun i => i.testBit q = false)
  -- flipping bit `q` is a bijection between the clear and the set indices
  have hswap : ((Finset.range (2 ^ n)).filter fun i => ¬ i.testBit q = false).card =
      ((Finset.range (2 ^ n)).filter fun i => i.testBit q = false).card := by
    refine Finset.card_bij' (fun i _ => flipBit q i) (fun i _ => flipBit q i) ?_ ?_ ?_ ?_
    · intro i hi
      simp only [Finset.mem_filter, Finset.mem_range] at hi ⊢
      refine ⟨flipBit_lt hq hi.1, ?_⟩
      rw [testBit_flipBit_self]
      simpa using hi.2
    · intro i hi
      simp only [Finset.mem_filter, Finset.mem_range] at hi ⊢
      refine ⟨flipBit_lt hq hi.1, ?_⟩
      rw [testBit_flipBit_self, hi.2]
      simp
    · intro i _
      exact flipBit_flipBit q i
    · intro i _
      exact flipBit_flipBit q i
  rw [Finset.card_range] at hsplit
  have hpow : 2 ^ n = 2 * 2 ^ (n - 1) := by
    rw [← Nat.pow_succ', Nat.succ_eq_add_one, Nat.sub_add_cancel (by omega)]
  omega

/-- The running count at a clear index stays below half. -/
theorem count_testBit_false_lt {q n i : Nat} (hq : q < n) (hi : i < 2 ^ n)
    (h : i.testBit q = false) :
    Nat.count (fun i => i.testBit q = false) i < 2 ^ (n - 1) := by
  rw [← count_testBit_false hq]
  exact Nat.count_strict_mono h hi

end Nat
