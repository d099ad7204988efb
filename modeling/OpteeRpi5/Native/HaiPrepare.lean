import OpteeRpi5.Native.FidelityKernel
import OpteeRpi5.Native.HaiSplit
import Mathlib.Data.List.Dedup

/-!
# The angles of the data preparation

The numeric part of `tools/hai_tee_prepare.py`, from the tables of the four CSV files to
the angles that are written for the kernel clients. A table is a function of row and
column; the rows from `len` on are never read. The decision tree enters by the order of
the columns only. The files with z-scores and the text files are left out, and so is the
rounding to `float32`.
-/

namespace OpteeRpi5.Native

/-- The functions that numpy provides. -/
class NumpyFun (D : Type) where
  sqrt : D → D
  pi : D

/-- A CSV file with `k` feature columns, or several of them. -/
structure Table (D : Type) (k : Nat) extends LabelCol where
  x : Nat → Fin k → D

/-- `order`: the columns by importance. -/
structure Ranking (k : Nat) where
  order : List (Fin k)
  perm : order.Perm (List.finRange k)

/-- The CSV files. -/
structure HaiFiles (D : Type) (k : Nat) where
  train1 : Table D k
  train2 : Table D k
  test1 : Table D k
  test2 : Table D k

section Numpy

variable {D : Type} [RatCast D] [Add D] [Sub D] [Mul D] [Div D] [Neg D] [LT D] [DecidableLT D]
  [DecidableEq D] [NumpyFun D] {k : Nat}

/-! ## Preprocessing -/

/-- `np.cumsum`. -/
def cumsum (x : Nat → D) (i : Nat) : D :=
  Loop.fold i (fun t c => c + x (t + 1)) (x 0)

/-- `WINDOW`. -/
def window : Nat := 60

/-- `moving_average`. -/
def movingAverage (t : Table D k) : Table D k where
  len := t.len - (window - 1)
  label i := t.label (i + (window - 1))
  x i j :=
    let c := cumsum fun r => t.x r j
    (c (i + (window - 1)) - if i = 0 then lit 0 else c (i - 1)) / lit window

/-- `np.vstack`, with the label columns. -/
def vstack (a b : Table D k) : Table D k where
  len := a.len + b.len
  label i := if i < a.len then a.label i else b.label (i - a.len)
  x i := if i < a.len then a.x i else b.x (i - a.len)

/-- `np.unique(train_x[:, j])`, in any order. -/
def columnVals (train : Table D k) (j : Fin k) : List D :=
  ((List.range train.len).map fun i => train.x i j).dedup

/-- `np.mean(train_x[:, j] == v)`. -/
def columnFreq (train : Table D k) (j : Fin k) (v : D) : D :=
  lit ((List.range train.len).countP fun i => train.x i j = v) / lit train.len

/-- The encoding of a value of column `j`. -/
def histEncode (train : Table D k) (j : Fin k) (v : D) : D :=
  let vals := columnVals train j
  if vals.length > 8 then v
  else if v ∈ vals then columnFreq train j v
  else lit 0

/-- A table after the histogram encoding. -/
def histTable (train t : Table D k) : Table D k :=
  { t with x := fun i j => histEncode train j (t.x i j) }

/-- `mean` of a column. -/
def columnMean (n : Nat) (x : Nat → D) : D :=
  Loop.fold n (fun i s => s + x i) (lit 0) / lit n

/-- `std` of a column. -/
def columnStd (n : Nat) (x : Nat → D) : D :=
  NumpyFun.sqrt (columnMean n fun i => (x i - columnMean n x) * (x i - columnMean n x))

/-- `1e-8`. -/
def tiny : D := lit (1 / 100000000)

/-- `sd`, where a small one has been replaced. -/
def columnSd (n : Nat) (x : Nat → D) : D :=
  if columnStd n x < tiny then lit 1 else columnStd n x

/-- `(x - mu) / sd`, with the mean and the deviation of the training table. -/
def zscore (train t : Table D k) (i : Nat) (j : Fin k) : D :=
  (t.x i j - columnMean train.len (fun r => train.x r j)) /
    columnSd train.len (fun r => train.x r j)

/-! ## Scaling -/

/-- `min(axis=0)` over the rows `r` and `rs`. -/
def columnMin (z : Nat → Fin k → D) (r : Nat) (rs : List Nat) (j : Fin k) : D :=
  rs.foldl (fun m r => if z r j < m then z r j else m) (z r j)

/-- `max(axis=0)` over the rows `r` and `rs`. -/
def columnMax (z : Nat → Fin k → D) (r : Nat) (rs : List Nat) (j : Fin k) : D :=
  rs.foldl (fun m r => if m < z r j then z r j else m) (z r j)

/-- `lo` and `span`, by column. -/
structure Scaling (D : Type) (k : Nat) where
  lo : Fin k → D
  span : Fin k → D

/-- The scaling of the training rows. The columns do not depend on each other, so that of
    the 16 columns is part of that of the 32. -/
def fitScaling (z : Nat → Fin k → D) (r : Nat) (rs : List Nat) : Scaling D k where
  lo := columnMin z r rs
  span j :=
    let width := columnMax z r rs j - columnMin z r rs j
    if width < tiny then tiny else width

/-- `((z - lo) / span) * (2 * PI) - PI`. -/
def Scaling.angle (s : Scaling D k) (j : Fin k) (z : D) : D :=
  ((z - s.lo j) / s.span j) * (lit 2 * NumpyFun.pi) - NumpyFun.pi

/-- The files with angles. -/
inductive AngleFile where
  | ref
  | query
  | qmocRef
  | qmocCal
  | ref32
  | query32
  | qmocRef32
  | qmocCal32
deriving DecidableEq

/-- What is scaled and written to a file. -/
structure AngleBatch (D : Type) (k : Nat) where
  file : AngleFile
  z : Nat → Fin k → D
  rows : List Nat
  cols : List (Fin k)
  scaling : Scaling D k

/-- The rows that are written. -/
def AngleBatch.values (b : AngleBatch D k) : List (List D) :=
  b.rows.map fun r => b.cols.map fun j => b.scaling.angle j (b.z r j)

/-! ## np.allclose -/

/-- `np.abs`. -/
def npAbs (x : D) : D :=
  if x < lit 0 then -x else x

/-- `np.isclose` with `atol=1e-5` and the default `rtol`. -/
def isClose (a b : D) : Bool :=
  !(decide (lit (1 / 100000) + lit (1 / 100000) * npAbs b < npAbs (a - b)))

/-- Two rows with the same columns. -/
def rowClose (a b : List D) : Bool :=
  (List.zipWith isClose a b).all id

/-- `np.allclose` of two matrices with the same columns. A single row is broadcast; other
    numbers of rows that differ are an error. -/
def allClose (a b : List (List D)) : Option Bool :=
  if a.length = b.length then some ((List.zipWith rowClose a b).all id)
  else
    match a, b with
    | [r], b => some (b.all fun r' => rowClose r r')
    | a, [r] => some (a.all fun r' => rowClose r' r)
    | _, _ => none

/-! ## The run -/

/-- The files that have been written, and where the script has stopped, if it has. -/
structure PrepareRun (D : Type) (k : Nat) where
  written : List (AngleBatch D k)
  fault : Option PrepareFault

/-- `N_FEAT`. -/
def nFeat : Nat := 16

/-- The second half of `main`: scaling and writing. -/
def writeAngles (trainZ testZ : Nat → Fin k → D) (order : List (Fin k)) (args : PrepareArgs)
    (s : RowSplit) (scaling : Scaling D k) : PrepareRun D k :=
  let keep := order.take nFeat
  let ref : AngleBatch D k := ⟨.ref, trainZ, s.trIdx, keep, scaling⟩
  let query : AngleBatch D k := ⟨.query, testZ, s.teIdx, keep, scaling⟩
  -- the files before this check are written in every case
  if nQmoc + nCal > s.trN.length then ⟨[ref, query], some .tooFewQmocRows⟩
  else
    let qmocRef : AngleBatch D k := ⟨.qmocRef, trainZ, s.qmocIdx, keep, scaling⟩
    let qmocCal : AngleBatch D k := ⟨.qmocCal, trainZ, s.calIdx, keep, scaling⟩
    match allClose (PySlice.upTo qmocRef.values args.nTrain) ref.values with
    | none => ⟨[ref, query], some .qmocShape⟩
    | some false => ⟨[ref, query], some .qmocMismatch⟩
    | some true =>
      let keep32 := order.take 32
      let ref32 : AngleBatch D k := ⟨.ref32, trainZ, s.trIdx, keep32, scaling⟩
      let query32 : AngleBatch D k := ⟨.query32, testZ, s.teIdx, keep32, scaling⟩
      let qmocRef32 : AngleBatch D k := ⟨.qmocRef32, trainZ, s.qmocIdx, keep32, scaling⟩
      let qmocCal32 : AngleBatch D k := ⟨.qmocCal32, trainZ, s.calIdx, keep32, scaling⟩
      -- by now the QMOC files of the 16 columns are written
      if allClose (ref32.values.map (·.take nFeat)) ref.values ≠ some true then
        ⟨[ref, query, qmocRef, qmocCal], some .featMismatch⟩
      else
        ⟨[ref, query, qmocRef, qmocCal, ref32, query32, qmocRef32, qmocCal32], none⟩

namespace HaiFiles

/-- `train_x` and `train_y`, after the moving average. -/
def train (files : HaiFiles D k) : Table D k :=
  vstack (movingAverage files.train1) (movingAverage files.train2)

/-- `test_x` and `test_y`, after the moving average. -/
def test (files : HaiFiles D k) : Table D k :=
  vstack (movingAverage files.test1) (movingAverage files.test2)

/-- `train_z`. -/
def trainZ (files : HaiFiles D k) : Nat → Fin k → D :=
  zscore (histTable files.train files.train) (histTable files.train files.train)

/-- `test_z`. -/
def testZ (files : HaiFiles D k) : Nat → Fin k → D :=
  zscore (histTable files.train files.train) (histTable files.train files.test)

end HaiFiles

/-- `main`. -/
def prepare (files : HaiFiles D k) (ranking : Ranking k) (args : PrepareArgs) (sh : Shuffles) :
    PrepareRun D k :=
  match splitRows files.train.toLabelCol files.test.toLabelCol args sh with
  | .error fault => ⟨[], some fault⟩
  | .ok s =>
    match s.trIdx with
    | [] => ⟨[], some .noTrainRows⟩
    | r :: rs =>
      writeAngles files.trainZ files.testZ ranking.order args s (fitScaling files.trainZ r rs)

end Numpy

end OpteeRpi5.Native
