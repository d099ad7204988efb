import OpteeRpi5.Spec.HaiPrepareRun
import Mathlib.Algebra.BigOperators.Intervals

/-!
# The levels of the data preparation

The features that the script scales are levels of the CSV files, up to an increasing
affine map of each column. A level is the mean of a window of 60 rows, or in a column with
few different means the share of the training rows that have this mean. The map is the
z-score of the training rows.

## Key results

- `movingAverage_x`: the rows after the moving average, by the rows of the file
- `histEncode_eq_level`: the encoding, by the training rows
- `trainZ_eq`, `testZ_eq`: the features as z-scores of the levels
-/

namespace OpteeRpi5.Spec

open OpteeRpi5.Native
open scoped Numerals

variable {k : Nat}

/-! ## Windows -/

/-- The mean of the rows `i, .., i + 59` of a file. -/
noncomputable def fileMean (t : Table ℝ k) (j : Fin k) (i : Nat) : ℝ :=
  (∑ r ∈ Finset.range 60, t.x (i + r) j) / 60

/-- The means of two files, one after the other. A file has no mean for its last 59 rows. -/
noncomputable def pairMean (a b : Table ℝ k) (j : Fin k) (i : Nat) : ℝ :=
  if i + 59 < a.len then fileMean a j i else fileMean b j (i - (a.len - 59))

/-- The cumulative sum up to a row, with it. -/
theorem cumsum_eq (x : Nat → ℝ) (i : Nat) : cumsum x i = ∑ r ∈ Finset.range (i + 1), x r := by
  refine Loop.fold_inv (fun i (c : ℝ) => c = ∑ r ∈ Finset.range (i + 1), x r) (by simp) ?_
  rintro i c _ rfl
  exact (Finset.sum_range_succ x (i + 1)).symm

/-- The difference of two cumulative sums is the sum of a window. -/
theorem movingAverage_x (t : Table ℝ k) (i : Nat) (j : Fin k) :
    (movingAverage t).x i j = fileMean t j i := by
  have hwindow : (lit window : ℝ) = 60 := by
    rw [lit_real, window]
    norm_num
  have hbefore : (if i = 0 then lit 0 else cumsum (fun r => t.x r j) (i - 1)) =
      ∑ r ∈ Finset.range i, t.x r j := by
    cases i with
    | zero => simp
    | succ i => rw [if_neg (Nat.succ_ne_zero i), Nat.add_sub_cancel, cumsum_eq]
  have hupto : cumsum (fun r => t.x r j) (i + (window - 1)) =
      ∑ r ∈ Finset.range i, t.x r j + ∑ r ∈ Finset.range 60, t.x (i + r) j := by
    rw [cumsum_eq, ← Finset.sum_range_add]
    rfl
  simp only [movingAverage]
  rw [hbefore, hupto, hwindow, add_sub_cancel_left, fileMean]

/-- The rows of two files after the moving average. -/
theorem vstack_movingAverage_x (a b : Table ℝ k) (i : Nat) (j : Fin k) :
    (vstack (movingAverage a) (movingAverage b)).x i j = pairMean a b j i := by
  have hlen : (movingAverage a).len = a.len - 59 := rfl
  simp only [vstack, pairMean, hlen]
  by_cases h : i + 59 < a.len
  · rw [if_pos h, if_pos (by omega), movingAverage_x]
  · rw [if_neg h, if_neg (by omega), movingAverage_x]

/-! ## Levels -/

section Levels

variable (files : HaiFiles ℝ k) (j : Fin k)

/-- The number of training rows that have a mean. -/
def trainRows : Nat :=
  files.train1.len - 59 + (files.train2.len - 59)

/-- The means of the training files. -/
noncomputable def trainMean (i : Nat) : ℝ := pairMean files.train1 files.train2 j i

/-- The means of the test files. -/
noncomputable def testMean (i : Nat) : ℝ := pairMean files.test1 files.test2 j i

open Classical in
/-- The level of a mean in a column: the mean itself, or the share of the training rows that
    have it if these have at most eight different means. -/
noncomputable def level (v : ℝ) : ℝ :=
  if 8 < ((Finset.range (trainRows files)).image (trainMean files j)).card then v
  else ((Finset.range (trainRows files)).filter fun i => trainMean files j i = v).card /
    (trainRows files : ℝ)

/-- The level of a training row. -/
noncomputable def trainLevel (i : Nat) : ℝ := level files j (trainMean files j i)

/-- The level of a test row. -/
noncomputable def testLevel (i : Nat) : ℝ := level files j (testMean files j i)

/-- The mean level of the training rows. -/
noncomputable def levelMean : ℝ :=
  (∑ i ∈ Finset.range (trainRows files), trainLevel files j i) / trainRows files

/-- The standard deviation of the level over the training rows. -/
noncomputable def levelStd : ℝ :=
  Real.sqrt ((∑ i ∈ Finset.range (trainRows files),
    (trainLevel files j i - levelMean files j) * (trainLevel files j i - levelMean files j)) /
      trainRows files)

/-- The unit of a column: the standard deviation, or 1 where it is almost zero. -/
noncomputable def levelUnit : ℝ :=
  if levelStd files j < 1e-8 then 1 else levelStd files j

/-- The unit of a column is positive, so the z-score is increasing. -/
theorem levelUnit_pos : 0 < levelUnit files j := by
  unfold levelUnit
  split
  · exact one_pos
  · next h => exact lt_of_lt_of_le (by norm_num) (not_lt.mp h)

/-! ## Features -/

/-- `train_x`, by the rows of the training files. -/
theorem train_x (i : Nat) : files.train.x i j = trainMean files j i :=
  vstack_movingAverage_x _ _ _ _

/-- `test_x`, by the rows of the test files. -/
theorem test_x (i : Nat) : files.test.x i j = testMean files j i :=
  vstack_movingAverage_x _ _ _ _

theorem train_len : files.train.len = trainRows files := rfl

/-- A mean that no training row has gets the share zero, as in `f.get(v, 0.0)`. -/
theorem histEncode_eq_level (v : ℝ) : histEncode files.train j v = level files j v := by
  classical
  -- the distinct values are a set, and the number of occurrences the size of a filter
  have hvals : (columnVals files.train j).length =
      ((Finset.range (trainRows files)).image (trainMean files j)).card := by
    rw [columnVals, ← List.card_toFinset, train_len]
    congr 1
    ext x
    simp [train_x]
  have hcount : (List.range files.train.len).countP (fun i => files.train.x i j = v) =
      ((Finset.range (trainRows files)).filter fun i => trainMean files j i = v).card := by
    simp only [List.countP_eq_length_filter, train_x, train_len]
    rfl
  have hfreq : columnFreq files.train j v =
      ((Finset.range (trainRows files)).filter fun i => trainMean files j i = v).card /
        (trainRows files : ℝ) := by
    rw [columnFreq, hcount, lit_real, lit_real, train_len]
    push_cast
    rfl
  rw [histEncode, level, hvals]
  simp only [gt_iff_lt]
  split
  · rfl
  · by_cases hv : v ∈ columnVals files.train j
    · rw [if_pos hv, hfreq]
    · have hnone : (Finset.range (trainRows files)).filter (fun i => trainMean files j i = v) =
          ∅ := by
        rw [Finset.filter_eq_empty_iff]
        intro i hi hmean
        apply hv
        rw [columnVals, List.mem_dedup, List.mem_map]
        exact ⟨i, by simpa [train_len] using hi, (train_x files j i).trans hmean⟩
      rw [if_neg hv, hnone]
      simp

/-- The mean of a column. -/
theorem columnMean_eq (n : Nat) (x : Nat → ℝ) :
    columnMean n x = (∑ i ∈ Finset.range n, x i) / n := by
  have hsum : Loop.fold n (fun i s => s + x i) (lit 0) = ∑ i ∈ Finset.range n, x i := by
    refine Loop.fold_inv (fun i (s : ℝ) => s = ∑ r ∈ Finset.range i, x r) (by simp) ?_
    rintro i s _ rfl
    exact (Finset.sum_range_succ x i).symm
  rw [columnMean, hsum, lit_real]
  push_cast
  rfl

/-- `train_x` after the encoding. -/
theorem histTable_train_x (i : Nat) :
    (histTable files.train files.train).x i j = trainLevel files j i := by
  rw [trainLevel, ← histEncode_eq_level, ← train_x]
  rfl

/-- `test_x` after the encoding, which uses the training rows only. -/
theorem histTable_test_x (i : Nat) :
    (histTable files.train files.test).x i j = testLevel files j i := by
  rw [testLevel, ← histEncode_eq_level, ← test_x]
  rfl

theorem columnMean_level :
    columnMean (trainRows files) (trainLevel files j) = levelMean files j :=
  columnMean_eq _ _

theorem columnSd_level :
    columnSd (trainRows files) (trainLevel files j) = levelUnit files j := by
  have hstd : columnStd (trainRows files) (trainLevel files j) = levelStd files j := by
    rw [columnStd, columnMean_level, columnMean_eq]
    rfl
  rw [columnSd, hstd, tiny_eq, lit_one_real, levelUnit]

/-- The features of the training rows. -/
theorem trainZ_eq (i : Nat) :
    files.trainZ i j = (trainLevel files j i - levelMean files j) / levelUnit files j := by
  have hlen : (histTable files.train files.train).len = trainRows files := rfl
  simp only [HaiFiles.trainZ, zscore, histTable_train_x, hlen]
  rw [columnMean_level, columnSd_level]

/-- The features of the test rows. -/
theorem testZ_eq (i : Nat) :
    files.testZ i j = (testLevel files j i - levelMean files j) / levelUnit files j := by
  have hlen : (histTable files.train files.train).len = trainRows files := rfl
  simp only [HaiFiles.testZ, zscore, histTable_train_x, histTable_test_x, hlen]
  rw [columnMean_level, columnSd_level]

end Levels

end OpteeRpi5.Spec
