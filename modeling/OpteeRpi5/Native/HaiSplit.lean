import OpteeRpi5.ForStd.PySlice

/-!
# The row sets of the data preparation

The part of `tools/hai_tee_prepare.py` that chooses rows: which rows rank the features,
which are scored, and which are kept for the supervised models. The choice depends on the
label columns, the arguments and the shuffles only. `rng.shuffle` permutes an array in
place, and a basic slice of a numpy array is a view of it, so a shuffle of a view permutes
that part of the array.
-/

namespace OpteeRpi5.Native

/-- A label column, after the moving average. -/
structure LabelCol where
  len : Nat
  label : Nat → Int8

/-- `np.flatnonzero(y == v)`. -/
def LabelCol.flatnonzero (y : LabelCol) (v : Int8) : List Nat :=
  (List.range y.len).filter fun i => y.label i == v

/-- `rng.shuffle` at one point of the run. -/
structure Shuffle where
  run : List Nat → List Nat
  perm : ∀ l, (run l).Perm l

/-- A shuffle of the view `a[k:]`, as it changes `a`. -/
def Shuffle.onView (s : Shuffle) (k : Nat) (a : List Nat) : List Nat :=
  a.take k ++ s.run (a.drop k)

/-- The shuffles of the run, by the array or view they are applied to. -/
structure Shuffles where
  atk : Shuffle
  nor : Shuffle
  trN : Shuffle
  heldAtk : Shuffle
  heldNor : Shuffle

/-- The arguments, as `argparse` accepts them: any integers. -/
structure PrepareArgs where
  nTrain : Int
  nTestNormal : Int
  nTestAttack : Int

/-- The places at which the script can stop. The texts of `SystemExit` are left out. -/
inductive PrepareFault where
  /-- `tree.fit` raises, since there are no rows. -/
  | noRankRows
  | sampleTooLarge
  /-- `sel_train.min` raises, since there are no rows. Without any training row the script
      has stopped before, in the histogram encoding. -/
  | noTrainRows
  | tooFewQmocRows
  /-- `np.allclose` raises, since the shapes cannot be broadcast. -/
  | qmocShape
  | qmocMismatch
  | featMismatch
deriving DecidableEq

/-- The row sets. -/
structure RowSplit where
  rankIdx : List Nat
  trN : List Nat
  trIdx : List Nat
  teIdx : List Nat
  supNor : List Nat
  supAtk : List Nat

/-- `n_rank`. -/
def nRank (atk nor : List Nat) : Nat :=
  min 2000 (min (atk.length / 2) (nor.length / 2))

/-- The choice of the rows. -/
def splitRows (train test : LabelCol) (args : PrepareArgs) (sh : Shuffles) :
    Except PrepareFault RowSplit :=
  let atk := sh.atk.run (test.flatnonzero 1)
  let nor := sh.nor.run (test.flatnonzero 0)
  let n := nRank atk nor
  -- `np.concatenate` copies, so the later shuffles do not change these
  let rankIdx := atk.take n ++ nor.take n
  if rankIdx = [] then .error .noRankRows
  else
    let trN := sh.trN.run (train.flatnonzero 0)
    let heldAtk := (sh.heldAtk.onView n atk).drop n
    let heldNor := (sh.heldNor.onView n nor).drop n
    if args.nTrain > trN.length ∨ args.nTestAttack > heldAtk.length ∨
        args.nTestNormal > heldNor.length then
      .error .sampleTooLarge
    else
      .ok
        { rankIdx := rankIdx
          trN := trN
          trIdx := PySlice.upTo trN args.nTrain
          teIdx := PySlice.upTo heldNor args.nTestNormal ++
            PySlice.upTo heldAtk args.nTestAttack
          supNor := PySlice.slice heldNor args.nTestNormal (args.nTestNormal + 2000)
          supAtk := PySlice.slice heldAtk args.nTestAttack (args.nTestAttack + 2000) }

/-- `n_qmoc`. -/
def nQmoc : Nat := 1000

/-- `n_cal`. -/
def nCal : Nat := 400

namespace RowSplit

/-- `labels`. -/
def labels (s : RowSplit) (test : LabelCol) : List Int8 :=
  s.teIdx.map test.label

/-- `sup_y`. -/
def supY (s : RowSplit) : List Int8 :=
  List.replicate s.supNor.length 0 ++ List.replicate s.supAtk.length 1

/-- The landmark rows of QMOC-SVM. -/
def qmocIdx (s : RowSplit) : List Nat :=
  s.trN.take nQmoc

/-- The calibration rows of QMOC-SVM. -/
def calIdx (s : RowSplit) : List Nat :=
  PySlice.slice s.trN nQmoc ((nQmoc + nCal : Nat) : Int)

end RowSplit

end OpteeRpi5.Native
