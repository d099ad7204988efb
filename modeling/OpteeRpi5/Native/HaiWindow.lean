import OpteeRpi5.Native.HaiPrepare

/-!
# The moving average on arrays

`moving_average` of `tools/hai_tee_prepare.py` as the script computes it: whole arrays,
slices of the cumulative sum with a bound that counts from the end, a row of zeros on
top, and numpy's broadcasting in the difference.
-/

namespace OpteeRpi5.Native

/-- A two-dimensional array with `k` columns. -/
abbrev Rows (D : Type) (k : Nat) := List (Fin k → D)

section Numpy

variable {D : Type} [RatCast D] [Add D] [Sub D] [Div D] {k : Nat}

/-- The running sums that follow the sum `c`. -/
def cumsumFrom (c : Fin k → D) : Rows D k → Rows D k
  | [] => []
  | r :: rs => (fun j => c j + r j) :: cumsumFrom (fun j => c j + r j) rs

/-- `np.cumsum(x, axis=0)`. -/
def cumsumRows : Rows D k → Rows D k
  | [] => []
  | r :: rs => r :: cumsumFrom r rs

/-- `a - b`. A single row is broadcast; other numbers of rows that differ are an error. -/
def subRows (a b : Rows D k) : Option (Rows D k) :=
  if a.length = b.length then some (List.zipWith (fun r s j => r j - s j) a b)
  else
    match a, b with
    | [r], b => some (b.map fun s j => r j - s j)
    | a, [s] => some (a.map fun r j => r j - s j)
    | _, _ => none

/-- `moving_average`, or `none` if the shapes do not match. -/
def movingAverageRows {β : Type} (x : Rows D k) (y : List β) : Option (Rows D k × List β) := do
  let c := cumsumRows x
  let zeros : Rows D k := [fun _ => lit 0]
  let diff ← subRows (PySlice.downFrom c (window - 1)) (zeros ++ PySlice.upTo c (-window))
  pure (diff.map fun r j => r j / lit window, PySlice.downFrom y (window - 1))

end Numpy

/-- The feature columns of a table as an array. -/
def Table.rows {D : Type} {k : Nat} (t : Table D k) : Rows D k :=
  (List.range t.len).map t.x

/-- The label column as an array. -/
def LabelCol.labels (y : LabelCol) : List Int8 :=
  (List.range y.len).map y.label

end OpteeRpi5.Native
