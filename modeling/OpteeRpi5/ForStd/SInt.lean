import Mathlib.Algebra.Order.BigOperators.Ring.Finset
import Mathlib.Algebra.Order.Ring.Abs
import Mathlib.Algebra.Order.Ring.Int
import OpteeRpi5.ForStd.Loop

/-!
# Signed machine arithmetic

A signed operation of C has the exact result if that fits the type and no defined
result otherwise. `SInt.check w` is the second reading of an operation, `Int32.ofInt`
and `Int64.ofInt` are the two's-complement one that the target machine shows. Loops
that add up terms come with one lemma for each reading.

Candidates for upstreaming to Lean's standard library.
-/

namespace SInt

/-- A value of the signed type with `w` bits besides the sign. -/
def Fits (w : Nat) (v : Int) : Prop :=
  -2 ^ w ≤ v ∧ v < 2 ^ w

instance (w : Nat) (v : Int) : Decidable (Fits w v) :=
  inferInstanceAs (Decidable (_ ∧ _))

/-- The result of an operation with exact result `v`, if there is one. -/
def check (w : Nat) (v : Int) : Option Int :=
  if Fits w v then some v else none

theorem check_eq_some_iff {w : Nat} {v u : Int} : check w v = some u ↔ Fits w v ∧ u = v := by
  unfold check
  split
  · next h => simp only [Option.some.injEq, h, true_and, eq_comm]
  · next h => simp only [reduceCtorEq, h, false_and]

theorem check_of_fits {w : Nat} {v : Int} (h : Fits w v) : check w v = some v :=
  check_eq_some_iff.mpr ⟨h, rfl⟩

/-- `for (i = 0; i < n; i++) acc += term(i)`, where a term may have no result itself. -/
def sum (w n : Nat) (term : Nat → Option Int) (acc : Int) : Option Int :=
  Loop.fold n (fun i acc => acc.bind fun acc => (term i).bind fun t => check w (acc + t))
    (some acc)

/-- A checked sum has a result when every term has one and every prefix fits. -/
theorem sum_eq_some_iff {w n : Nat} {term : Nat → Option Int} (ok : Nat → Prop) (g : Nat → Int)
    (hterm : ∀ i < n, ∀ u, term i = some u ↔ ok i ∧ u = g i) {acc v : Int} :
    sum w n term acc = some v ↔
      (∀ i < n, ok i ∧ Fits w (acc + ∑ j ∈ Finset.range (i + 1), g j)) ∧
      v = acc + ∑ j ∈ Finset.range n, g j := by
  induction n generalizing v with
  | zero => simp [sum, eq_comm]
  | succ n ih =>
    have hprev : ∀ u, sum w n term acc = some u ↔
        (∀ i < n, ok i ∧ Fits w (acc + ∑ j ∈ Finset.range (i + 1), g j)) ∧
        u = acc + ∑ j ∈ Finset.range n, g j :=
      fun u => ih (fun i hi => hterm i (by omega))
    have hstep : sum w (n + 1) term acc =
        (sum w n term acc).bind fun acc => (term n).bind fun t => check w (acc + t) := rfl
    -- the last term is added to a prefix that has a result
    rw [hstep, Option.bind_eq_some_iff]
    simp only [Option.bind_eq_some_iff, hprev, hterm n (by omega), check_eq_some_iff]
    constructor
    · rintro ⟨a, ⟨hpre, rfl⟩, t, ⟨hok, rfl⟩, hfits, rfl⟩
      rw [Int.add_assoc, ← Finset.sum_range_succ] at hfits ⊢
      refine ⟨fun i hi => ?_, rfl⟩
      by_cases hin : i = n
      · exact hin ▸ ⟨hok, hfits⟩
      · exact hpre i (by omega)
    · rintro ⟨hall, rfl⟩
      obtain ⟨hok, hfits⟩ := hall n (by omega)
      rw [Finset.sum_range_succ, ← Int.add_assoc] at hfits ⊢
      exact ⟨_, ⟨fun i hi => hall i (by omega), rfl⟩, _, ⟨hok, rfl⟩, hfits, rfl⟩

/-- A sum in a machine type is the sum over the integers, wrapped. -/
theorem fold_wrap {R : Type} [Add R] (wrap : Int → R)
    (hwrap : ∀ a b, wrap (a + b) = wrap a + wrap b) {n : Nat} {f : Nat → R} {g : Nat → Int}
    (h : ∀ i < n, f i = wrap (g i)) (a : Int) :
    Loop.fold n (fun i acc => acc + f i) (wrap a) =
      wrap (a + ∑ i ∈ Finset.range n, g i) := by
  induction n with
  | zero => rw [Loop.fold_zero, Finset.sum_range_zero, Int.add_zero]
  | succ n ih =>
    rw [Loop.fold_succ, ih (fun i hi => h i (by omega)), h n (by omega), ← hwrap,
      Finset.sum_range_succ, Int.add_assoc]

/-- An `int32` widened to `int64`. -/
theorem toInt64_eq_ofInt (v : Int32) : v.toInt64 = Int64.ofInt v.toInt := by
  rw [← Int32.toInt_toInt64, Int64.ofInt_toInt]

/-- A value that fits a wrapped `int32` comes back. -/
theorem toInt_int32 {v : Int} (h : Fits 31 v) : (Int32.ofInt v).toInt = v :=
  Int32.toInt_ofInt_of_le h.1 h.2

/-! ## Linear combinations in `int64` -/

theorem abs_toInt_le (v : Int32) : |v.toInt| ≤ 2 ^ 31 := by
  have hlo := v.le_toInt
  have hhi := v.toInt_lt
  rw [abs_le]
  omega

/-- A product of two `int32` values fits `int64`. -/
theorem fits_mul (a b : Int32) : Fits 63 (a.toInt * b.toInt) := by
  have hprod : |a.toInt * b.toInt| ≤ 2 ^ 31 * 2 ^ 31 := by
    rw [abs_mul]
    exact mul_le_mul (abs_toInt_le a) (abs_toInt_le b) (abs_nonneg _) (by decide)
  have hbounds := abs_le.mp hprod
  unfold Fits
  omega

theorem fits_of_abs_lt {w : Nat} {v : Int} (h : |v| < 2 ^ w) : Fits w v := by
  have hbounds := abs_lt.mp h
  exact ⟨Int.le_of_lt hbounds.1, hbounds.2⟩

/-- A sum of integers of bounded size. -/
theorem abs_sum_range_le {f : Nat → Int} {n : Nat} {B : Int} (h : ∀ i < n, |f i| ≤ B) :
    |∑ i ∈ Finset.range n, f i| ≤ n * B := by
  calc |∑ i ∈ Finset.range n, f i| ≤ ∑ i ∈ Finset.range n, |f i| :=
        Finset.abs_sum_le_sum_abs _ _
    _ ≤ (Finset.range n).card • B :=
        Finset.sum_le_card_nsmul _ _ _ (fun i hi => h i (Finset.mem_range.mp hi))
    _ = n * B := by rw [Finset.card_range, nsmul_eq_mul]

/-- Every prefix of a linear combination of `int32` values with small weights. -/
theorem abs_add_dot_le {w : List Int32} (x : Nat → Int32) {n k : Nat} {B : Int} (acc : Int)
    (hB : 0 ≤ B) (hw : ∀ i < n, |(w.getD i 0).toInt| ≤ B) (hk : k ≤ n) :
    |acc + ∑ i ∈ Finset.range k, (w.getD i 0).toInt * (x i).toInt| ≤
      |acc| + n * (B * 2 ^ 31) := by
  have hterm : ∀ i < k, |(w.getD i 0).toInt * (x i).toInt| ≤ B * 2 ^ 31 := by
    intro i hi
    rw [abs_mul]
    exact mul_le_mul (hw i (by omega)) (abs_toInt_le _) (abs_nonneg _) hB
  calc |acc + ∑ i ∈ Finset.range k, (w.getD i 0).toInt * (x i).toInt|
      ≤ |acc| + |∑ i ∈ Finset.range k, (w.getD i 0).toInt * (x i).toInt| := abs_add_le _ _
    _ ≤ |acc| + k * (B * 2 ^ 31) := Int.add_le_add_left (abs_sum_range_le hterm) _
    _ ≤ |acc| + n * (B * 2 ^ 31) := by
      have hmono : (k : Int) * (B * 2 ^ 31) ≤ n * (B * 2 ^ 31) :=
        mul_le_mul_of_nonneg_right (by exact_mod_cast hk) (by omega)
      omega

/-- `for (i = 0; i < n; i++) acc += (int64_t)w[i] * (int64_t)x[i]` has a result if the
    weights are small. -/
theorem sum_dot {w : List Int32} (x : Nat → Int32) {n : Nat} {B acc : Int} (hB : 0 ≤ B)
    (hw : ∀ i < n, |(w.getD i 0).toInt| ≤ B) (hacc : |acc| + n * (B * 2 ^ 31) < 2 ^ 63) :
    sum 63 n (fun i => check 63 ((w.getD i 0).toInt * (x i).toInt)) acc =
      some (acc + ∑ i ∈ Finset.range n, (w.getD i 0).toInt * (x i).toInt) := by
  rw [sum_eq_some_iff (fun _ => True) (fun i => (w.getD i 0).toInt * (x i).toInt)
    (fun i _ u => by rw [check_eq_some_iff, eq_true (fits_mul _ _)])]
  refine ⟨fun i hi => ⟨trivial, ?_⟩, rfl⟩
  exact fits_of_abs_lt (lt_of_le_of_lt (abs_add_dot_le x acc hB hw (by omega)) hacc)

/-- The same loop in wrapping arithmetic. -/
theorem fold_dot (w : List Int32) (x : Nat → Int32) (n : Nat) (acc : Int) :
    Loop.fold n (fun i acc => acc + (w.getD i 0).toInt64 * (x i).toInt64) (Int64.ofInt acc) =
      Int64.ofInt (acc + ∑ i ∈ Finset.range n, (w.getD i 0).toInt * (x i).toInt) := by
  apply fold_wrap Int64.ofInt Int64.ofInt_add
  intro i _
  rw [toInt64_eq_ofInt, toInt64_eq_ofInt, ← Int64.ofInt_mul]

end SInt
