import OpteeRpi5.Native.HaiWindow
import Mathlib.Algebra.BigOperators.Group.List.Basic
import Mathlib.Data.Rat.Cast.Defs

/-!
# The moving average is the windowed mean

The script subtracts two slices of one cumulative sum that are shifted by a window. Over
exact rationals the difference of the sums up to `i + 59` and up to `i - 1` is the sum of
the rows `i, .., i + 59`.

## Key results

- `movingAverageRows_eq`: the slices line up for every number of rows
- `movingAverageRows_rows`: the array form agrees with the table form of the preparation
- `movingAverage_windowed`: row `i` is the mean of its window, with the window's last label
-/

namespace OpteeRpi5.Spec

open OpteeRpi5.Native

/-- A slice from the front shifts the index. -/
private theorem drop_map_range {α : Type} (f : Nat → α) (m n : Nat) :
    ((List.range m).map f).drop n = (List.range (m - n)).map fun i => f (i + n) := by
  apply List.ext_getElem
  · simp
  · intro i _ _
    simp [Nat.add_comm]

section Slices

variable {D : Type} [RatCast D] [Add D] [Sub D] [Div D] {k : Nat}

omit [RatCast D] [Sub D] [Div D] in
/-- The running sums are determined by the first one and the rows. -/
private theorem cumsumFrom_eq {a : Fin k → D} {rs : Rows D k} {c : Nat → Fin k → D}
    (hzero : c 0 = a)
    (hsucc : ∀ i r, rs[i]? = some r → c (i + 1) = fun j => c i j + r j) :
    cumsumFrom a rs = (List.range rs.length).map fun i => c (i + 1) := by
  induction rs generalizing a c with
  | nil => rfl
  | cons r rs ih =>
    have hfirst : c 1 = fun j => a j + r j := by
      rw [hsucc 0 r rfl, hzero]
    have hrest := ih (c := fun i => c (i + 1)) hfirst fun i s hs => hsucc (i + 1) s hs
    rw [cumsumFrom, hrest, List.length_cons, List.range_succ_eq_map, List.map_cons,
      List.map_map, ← hfirst]
    rfl

omit [RatCast D] [Sub D] [Div D] in
/-- The cumulative sum is the sequence that starts with the first row and adds the next
    row at each step. -/
theorem cumsumRows_eq {x : Rows D k} {c : Nat → Fin k → D}
    (hzero : ∀ r, x[0]? = some r → c 0 = r)
    (hsucc : ∀ i r, x[i + 1]? = some r → c (i + 1) = fun j => c i j + r j) :
    cumsumRows x = (List.range x.length).map c := by
  cases x with
  | nil => rfl
  | cons r rs =>
    have hfirst : c 0 = r := hzero r rfl
    rw [cumsumRows, cumsumFrom_eq hfirst fun i s hs => hsucc i s hs, List.length_cons,
      List.range_succ_eq_map, List.map_cons, List.map_map, hfirst]
    rfl

/-- The rows of the difference, in terms of the cumulative sum. -/
def windowRow (c : Nat → Fin k → D) (i : Nat) (j : Fin k) : D :=
  (c (i + (window - 1)) j - if i = 0 then lit 0 else c (i - 1) j) / lit window

omit [Add D] [Sub D] [Div D] in
/-- The subtrahend: a row of zeros, and then the cumulative sum without its last window. -/
private theorem zeros_append (c : Nat → Fin k → D) (n : Nat) :
    (fun _ => lit 0) :: (List.range n).map c =
      (List.range (n + 1)).map fun i j => if i = 0 then (lit 0 : D) else c (i - 1) j := by
  rw [List.range_succ_eq_map, List.map_cons, List.map_map]
  rfl

omit [RatCast D] [Add D] [Div D] in
/-- Without broadcasting the difference is taken row by row. -/
private theorem subRows_eq (a b : Rows D k) (h : a.length = b.length) :
    subRows a b = some (List.zipWith (fun r s j => r j - s j) a b) :=
  if_pos h

/-- The slices have the same number of rows if there is a whole window. With fewer rows
    the first one is empty, and the row of zeros is broadcast to no rows. -/
theorem movingAverageRows_eq {β : Type} {x : Rows D k} {c : Nat → Fin k → D}
    (hc : cumsumRows x = (List.range x.length).map c) (y : List β) :
    movingAverageRows x y =
      some ((List.range (x.length - (window - 1))).map (windowRow c), y.drop (window - 1)) := by
  have hupper : PySlice.downFrom (cumsumRows x) (window - 1) =
      (List.range (x.length - (window - 1))).map fun i => c (i + (window - 1)) := by
    rw [show ((window : Int) - 1) = ((window - 1 : Nat) : Int) from rfl,
      PySlice.downFrom_natCast, hc, drop_map_range]
  have hlower : PySlice.upTo (cumsumRows x) (-window) =
      (List.range (x.length - window)).map c := by
    rw [PySlice.upTo_neg _ (by decide : 0 < window), hc, List.length_map, List.length_range,
      ← List.map_take, List.take_range, Nat.min_eq_left (Nat.sub_le _ _)]
  have hlabels : PySlice.downFrom y (window - 1) = y.drop (window - 1) :=
    PySlice.downFrom_natCast y (window - 1)
  rw [movingAverageRows]
  simp only [hupper, hlower, hlabels, List.singleton_append, zeros_append]
  -- the shapes match with a whole window, and by broadcasting without one
  rcases Nat.lt_or_ge x.length window with hshort | hlong
  · have hnone : x.length - (window - 1) = 0 := by omega
    have hrest : x.length - window = 0 := by omega
    rw [hnone, hrest]
    rfl
  · have hrows : x.length - window + 1 = x.length - (window - 1) := by
      unfold window at *
      omega
    rw [hrows, subRows_eq _ _ (by simp)]
    simp only [List.zipWith_map, List.zipWith_self, Option.bind_eq_bind, Option.bind_some,
      List.map_map]
    rfl

end Slices

/-- The table form of the moving average is the array form, also for files with fewer
    rows than a window. -/
theorem movingAverageRows_rows {D : Type} [RatCast D] [Add D] [Sub D] [Div D] {k : Nat}
    (t : Table D k) :
    movingAverageRows t.rows t.labels =
      some ((movingAverage t).rows, (movingAverage t).labels) := by
  have hrow : ∀ i r, t.rows[i]? = some r → t.x i = r := by
    intro i r hr
    obtain ⟨s, hs, hx⟩ := Option.map_eq_some_iff.mp (List.getElem?_map (f := t.x) ▸ hr)
    obtain ⟨hi, rfl⟩ := List.getElem?_eq_some_iff.mp hs
    rwa [List.getElem_range] at hx
  -- on the rows of a table the running sums are those of its columns
  have hc : cumsumRows t.rows =
      (List.range t.rows.length).map fun i j => cumsum (fun r => t.x r j) i := by
    apply cumsumRows_eq
    · exact hrow 0
    · intro i r hr
      rw [← hrow (i + 1) r hr]
      rfl
  have hlen : t.rows.length = t.len := by simp [Table.rows]
  have hlabels : t.labels.drop (window - 1) = (movingAverage t).labels :=
    drop_map_range t.label t.len (window - 1)
  rw [movingAverageRows_eq hc, hlen, hlabels]
  rfl

/-! ## Exact arithmetic -/

/-- The mean of the rows `i, .., i + 59`, by columns. -/
def windowMean {k : Nat} (x : Rows ℚ k) (i : Nat) (j : Fin k) : ℚ :=
  (((x.drop i).take 60).map (· j)).sum / 60

/-- The sum of the first `n` rows. -/
private def firstSum {k : Nat} (x : Rows ℚ k) (n : Nat) (j : Fin k) : ℚ :=
  ((x.take n).map (· j)).sum

private theorem firstSum_succ {k : Nat} {x : Rows ℚ k} {n : Nat} {r : Fin k → ℚ}
    (h : x[n]? = some r) (j : Fin k) : firstSum x (n + 1) j = firstSum x n j + r j := by
  rw [firstSum, List.take_add_one, h, Option.toList_some, List.map_append, List.sum_append,
    List.map_singleton, List.sum_singleton, firstSum]

/-- A window after the first rows. -/
private theorem firstSum_add {k : Nat} (x : Rows ℚ k) (i n : Nat) (j : Fin k) :
    firstSum x (i + n) j = firstSum x i j + (((x.drop i).take n).map (· j)).sum := by
  rw [firstSum, List.take_add, List.map_append, List.sum_append, firstSum]

/-- Over the rationals a running sum is the sum of the first rows. -/
private theorem cumsumRows_rat {k : Nat} (x : Rows ℚ k) :
    cumsumRows x = (List.range x.length).map fun i => firstSum x (i + 1) := by
  apply cumsumRows_eq
  · intro r hr
    funext j
    rw [firstSum_succ hr j]
    simp [firstSum]
  · intro i r hr
    funext j
    exact firstSum_succ hr j

/-- With the sums up to a row for the cumulative sum, a row of the result is the mean of
    its window. -/
private theorem windowRow_rat {k : Nat} (x : Rows ℚ k) (i : Nat) :
    windowRow (fun i => firstSum x (i + 1)) i = windowMean x i := by
  funext j
  have hbefore : (if i = 0 then lit 0 else firstSum x (i - 1 + 1) j) = firstSum x i j := by
    cases i with
    | zero => rfl
    | succ i => rfl
  have hupto : firstSum x (i + (window - 1) + 1) j =
      firstSum x i j + (((x.drop i).take 60).map (· j)).sum := firstSum_add x i 60 j
  have hlit : (lit (window : ℚ) : ℚ) = 60 := rfl
  simp only [windowRow]
  rw [hbefore, hupto, hlit, windowMean, add_sub_cancel_left]

/-- For every table with at least `60` rows and every label vector of its length there is a
    result with `59` rows less. Its row `i` is the mean of the rows `i, .., i + 59`, and the
    label of the row is `y[i + 59]`. -/
theorem movingAverage_windowed {β : Type} {k : Nat} (x : Rows ℚ k) (y : List β)
    (hx : 60 ≤ x.length) (hy : y.length = x.length) :
    ∃ ma labels, movingAverageRows x y = some (ma, labels) ∧
      ma.length = x.length - 59 ∧ labels.length = x.length - 59 ∧
      ∀ i ≤ x.length - 60,
        ma[i]? = some (windowMean x i) ∧ labels[i]? = y[i + 59]? ∧ i + 59 < y.length := by
  have hrun := movingAverageRows_eq (cumsumRows_rat x) y
  refine ⟨_, _, hrun, by simp [window], by simp [window, hy], ?_⟩
  intro i hi
  have hlt : i < x.length - (window - 1) := by
    unfold window
    omega
  refine ⟨?_, ?_, by omega⟩
  · rw [List.getElem?_map, List.getElem?_range hlt, Option.map_some, windowRow_rat]
  · rw [List.getElem?_drop, Nat.add_comm]
    rfl

/-- A table of 61 rows with one column that counts the rows. -/
theorem movingAverage_windowed_counter :
    ∃ ma labels,
      movingAverageRows ((List.range 61).map fun i (_ : Fin 1) => (i : ℚ)) (List.range 61) =
        some (ma, labels) ∧
      ma.length = 2 ∧ labels.length = 2 ∧ labels[1]? = some 60 := by
  obtain ⟨ma, labels, hrun, hrows, hlabels, hrow⟩ := movingAverage_windowed
    ((List.range 61).map fun i (_ : Fin 1) => (i : ℚ)) (List.range 61) (by simp) (by simp)
  refine ⟨ma, labels, hrun, by simpa using hrows, by simpa using hlabels, ?_⟩
  rw [(hrow 1 (by simp)).2.1]
  rfl

end OpteeRpi5.Spec
