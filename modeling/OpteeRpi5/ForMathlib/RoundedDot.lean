import Mathlib.Algebra.Order.BigOperators.Ring.Finset
import Mathlib.Algebra.Order.Field.Basic
import Mathlib.Tactic.Linarith
import Mathlib.Tactic.Ring

/-!
# Dot products of rounded values

A fixed-point program scales real numbers by `s`, rounds them to integers and multiplies
these. `RoundedTo s v V` says that `V` is a nearest integer to `s * v`; which one is
taken in a tie does not matter here. The dot product of rounded values differs from the
scaled dot product by at most `s / 2` times the sizes of both vectors and a quarter for
each entry.

Candidates for upstreaming to Mathlib.
-/

variable {K : Type} [Field K] [LinearOrder K] [IsStrictOrderedRing K]

/-- `V` is a nearest integer to `s * v`. -/
def RoundedTo (s v : K) (V : ℤ) : Prop :=
  |s * v - V| ≤ 1 / 2

namespace RoundedTo

variable {s : K}

/-- The product of two rounded values: each error is multiplied by the other value, and
    the two errors by each other. -/
theorem abs_mul_sub_le (hs : 0 ≤ s) {v u : K} {V U : ℤ} (hv : RoundedTo s v V)
    (hu : RoundedTo s u U) :
    |(V * U : K) - s ^ 2 * (v * u)| ≤ s / 2 * (|v| + |u|) + 1 / 4 := by
  have hsplit : (V * U : K) - s ^ 2 * (v * u) =
      -(s * v * (s * u - U)) - s * u * (s * v - V) + (s * v - V) * (s * u - U) := by ring
  -- each factor carries the error of the other, and the errors multiply
  have hone : ∀ a e : K, |e| ≤ 1 / 2 → |s * a * e| ≤ s / 2 * |a| := by
    intro a e he
    rw [abs_mul, abs_mul, abs_of_nonneg hs]
    calc s * |a| * |e| ≤ s * |a| * (1 / 2) :=
          mul_le_mul_of_nonneg_left he (mul_nonneg hs (abs_nonneg a))
      _ = s / 2 * |a| := by ring
  have hthird : |(s * v - V) * (s * u - U)| ≤ 1 / 4 := by
    rw [abs_mul]
    calc |s * v - V| * |s * u - U| ≤ 1 / 2 * (1 / 2) :=
          mul_le_mul hv hu (abs_nonneg _) (by norm_num)
      _ = 1 / 4 := by norm_num
  have hfirst := abs_le.mp (hone v _ hu)
  have hsecond := abs_le.mp (hone u _ hv)
  have hthird := abs_le.mp hthird
  rw [hsplit, abs_le]
  constructor
  · linarith
  · linarith

/-- The dot product of two rounded vectors. -/
theorem abs_dot_sub_le (hs : 0 ≤ s) {v u : ℕ → K} {V U : ℕ → ℤ} {n : ℕ}
    (hv : ∀ i < n, RoundedTo s (v i) (V i)) (hu : ∀ i < n, RoundedTo s (u i) (U i)) :
    |((∑ i ∈ Finset.range n, V i * U i : ℤ) : K) - s ^ 2 * ∑ i ∈ Finset.range n, v i * u i| ≤
      s / 2 * (∑ i ∈ Finset.range n, |v i| + ∑ i ∈ Finset.range n, |u i|) + n / 4 := by
  have hterms : ((∑ i ∈ Finset.range n, V i * U i : ℤ) : K) -
      s ^ 2 * ∑ i ∈ Finset.range n, v i * u i =
      ∑ i ∈ Finset.range n, ((V i * U i : K) - s ^ 2 * (v i * u i)) := by
    push_cast
    rw [Finset.mul_sum, ← Finset.sum_sub_distrib]
  rw [hterms]
  calc |∑ i ∈ Finset.range n, ((V i * U i : K) - s ^ 2 * (v i * u i))|
      ≤ ∑ i ∈ Finset.range n, |(V i * U i : K) - s ^ 2 * (v i * u i)| :=
        Finset.abs_sum_le_sum_abs _ _
    _ ≤ ∑ i ∈ Finset.range n, (s / 2 * (|v i| + |u i|) + 1 / 4) :=
        Finset.sum_le_sum fun i hi =>
          abs_mul_sub_le hs (hv i (Finset.mem_range.mp hi)) (hu i (Finset.mem_range.mp hi))
    _ = s / 2 * (∑ i ∈ Finset.range n, |v i| + ∑ i ∈ Finset.range n, |u i|) + n / 4 := by
        rw [Finset.sum_add_distrib, ← Finset.mul_sum, Finset.sum_add_distrib, Finset.sum_const,
          Finset.card_range, nsmul_eq_mul]
        ring

end RoundedTo
