import OpteeRpi5.Native.HaiPrepare
import OpteeRpi5.Spec.CircuitMirror
import Mathlib.Analysis.SpecialFunctions.Trigonometric.Basic
import Mathlib.Analysis.Real.Sqrt

/-!
# Runs of the data preparation

What holds of every run of `tools/hai_tee_prepare.py`, in real arithmetic: how the row
sets that pass the checks have been cut, which files are written, and when a run goes
through to the end.

## Key results

- `splitRows_ok`: the row sets are cut from permutations of the rows of each label
- `writeAngles_of_close`, `written_of_not_close`: all files are written, or the first two
- `landmarksClose_iff`: when the check between them passes
- `prepare_completes`: the later checks do not stop a run with enough rows
-/

namespace OpteeRpi5.Spec

open OpteeRpi5.Native

/-! ## The row sets -/

/-- The arrays that the row sets are cut from, after the shuffles. -/
structure Cut (train test : LabelCol) (args : PrepareArgs) (s : RowSplit) where
  n : Nat
  atk : List Nat
  nor : List Nat
  heldAtk : List Nat
  heldNor : List Nat
  atk_perm : atk.Perm (test.flatnonzero 1)
  nor_perm : nor.Perm (test.flatnonzero 0)
  heldAtk_perm : heldAtk.Perm (atk.drop n)
  heldNor_perm : heldNor.Perm (nor.drop n)
  trN_perm : s.trN.Perm (train.flatnonzero 0)
  nTrain_le : args.nTrain ≤ s.trN.length
  nTestAttack_le : args.nTestAttack ≤ heldAtk.length
  nTestNormal_le : args.nTestNormal ≤ heldNor.length
  rankIdx_eq : s.rankIdx = atk.take n ++ nor.take n
  trIdx_eq : s.trIdx = PySlice.upTo s.trN args.nTrain
  teIdx_eq : s.teIdx =
    PySlice.upTo heldNor args.nTestNormal ++ PySlice.upTo heldAtk args.nTestAttack
  supNor_eq : s.supNor = PySlice.slice heldNor args.nTestNormal (args.nTestNormal + 2000)
  supAtk_eq : s.supAtk = PySlice.slice heldAtk args.nTestAttack (args.nTestAttack + 2000)

/-- A shuffle of a view permutes the rows behind its start. -/
theorem drop_onView (sh : Shuffle) {n : Nat} {a : List Nat} (hn : n ≤ a.length) :
    (sh.onView n a).drop n = sh.run (a.drop n) := by
  have hlen : (a.take n).length = n := by rw [List.length_take, Nat.min_eq_left hn]
  rw [Shuffle.onView, List.drop_append, List.drop_of_length_le (Nat.le_of_eq hlen), hlen,
    Nat.sub_self, List.drop_zero, List.nil_append]

/-- The ranking takes at most half of the rows of each label. -/
theorem nRank_le (atk nor : List Nat) :
    nRank atk nor ≤ atk.length ∧ nRank atk nor ≤ nor.length := by
  unfold nRank
  omega

/-- The row sets of a run that passes the checks. -/
theorem splitRows_ok {train test : LabelCol} {args : PrepareArgs} {sh : Shuffles} {s : RowSplit}
    (h : splitRows train test args sh = .ok s) : Nonempty (Cut train test args s) := by
  simp only [splitRows] at h
  split at h
  · -- no rows to rank the features with
    cases h
  · split at h
    · -- more rows asked for than there are
      cases h
    · next hsize =>
      obtain rfl := Except.ok.inj h
      -- the ranking rows are the first `n`, and the view that is shuffled again starts there
      have hn := nRank_le (sh.atk.run (test.flatnonzero 1)) (sh.nor.run (test.flatnonzero 0))
      rw [drop_onView _ hn.1, drop_onView _ hn.2] at hsize ⊢
      simp only [not_or, not_lt, gt_iff_lt] at hsize
      exact ⟨{
        n := nRank (sh.atk.run (test.flatnonzero 1)) (sh.nor.run (test.flatnonzero 0))
        atk := sh.atk.run (test.flatnonzero 1)
        nor := sh.nor.run (test.flatnonzero 0)
        heldAtk := sh.heldAtk.run _
        heldNor := sh.heldNor.run _
        atk_perm := sh.atk.perm _
        nor_perm := sh.nor.perm _
        heldAtk_perm := sh.heldAtk.perm _
        heldNor_perm := sh.heldNor.perm _
        trN_perm := sh.trN.perm _
        nTrain_le := hsize.1
        nTestAttack_le := hsize.2.1
        nTestNormal_le := hsize.2.2
        rankIdx_eq := rfl
        trIdx_eq := rfl
        teIdx_eq := rfl
        supNor_eq := rfl
        supAtk_eq := rfl }⟩

/-- The row sets by the arrays that they are cut from. -/
theorem splitRows_eq {train test : LabelCol} {args : PrepareArgs} {sh : Shuffles} {n : Nat}
    {atk nor trN heldAtk heldNor : List Nat} (hatk : sh.atk.run (test.flatnonzero 1) = atk)
    (hnor : sh.nor.run (test.flatnonzero 0) = nor)
    (htrN : sh.trN.run (train.flatnonzero 0) = trN) (hn : nRank atk nor = n)
    (hheldAtk : (sh.heldAtk.onView n atk).drop n = heldAtk)
    (hheldNor : (sh.heldNor.onView n nor).drop n = heldNor)
    (hrank : atk.take n ++ nor.take n ≠ []) (htrain : args.nTrain ≤ trN.length)
    (hattack : args.nTestAttack ≤ heldAtk.length)
    (hnormal : args.nTestNormal ≤ heldNor.length) :
    splitRows train test args sh =
      .ok
        { rankIdx := atk.take n ++ nor.take n
          trN := trN
          trIdx := PySlice.upTo trN args.nTrain
          teIdx := PySlice.upTo heldNor args.nTestNormal ++
            PySlice.upTo heldAtk args.nTestAttack
          supNor := PySlice.slice heldNor args.nTestNormal (args.nTestNormal + 2000)
          supAtk := PySlice.slice heldAtk args.nTestAttack (args.nTestAttack + 2000) } := by
  simp only [splitRows, hatk, hnor, htrN, hn, hheldAtk, hheldNor]
  rw [if_neg hrank, if_neg (by omega)]

/-! ## Real arithmetic -/

noncomputable instance : NumpyFun ℝ where
  sqrt := Real.sqrt
  pi := Real.pi

theorem tiny_eq : (tiny : ℝ) = 1e-8 := by
  rw [tiny, lit_real]
  norm_num

theorem tiny_pos : (0 : ℝ) < tiny := by
  rw [tiny_eq]
  norm_num

/-- `np.abs` is the absolute value. -/
theorem npAbs_eq (x : ℝ) : npAbs x = |x| := by
  unfold npAbs
  rw [lit_zero_real]
  split
  · next h => exact (abs_of_neg h).symm
  · next h => exact (abs_of_nonneg (not_lt.mp h)).symm

/-- The tolerance is relative to the second value. -/
theorem isClose_iff (a b : ℝ) : isClose a b = true ↔ |a - b| ≤ 1e-5 + 1e-5 * |b| := by
  have hlit : (lit (1 / 100000) : ℝ) = 1e-5 := by
    rw [lit_real]
    norm_num
  rw [isClose, npAbs_eq, npAbs_eq, hlit, Bool.not_eq_true', decide_eq_false_iff_not, not_lt]

/-- A value is close to itself. -/
theorem isClose_self (a : ℝ) : isClose a a = true := by
  rw [isClose_iff, sub_self, abs_zero]
  positivity

/-- A row is close to itself. -/
theorem rowClose_self (r : List ℝ) : rowClose r r = true := by
  induction r with
  | nil => rfl
  | cons a r ih =>
    rw [rowClose, List.zipWith_cons_cons, List.all_cons, isClose_self]
    exact ih

/-- Rows are close if they are close in every column. -/
theorem rowClose_map {ι : Type} (l : List ι) (f g : ι → ℝ) :
    rowClose (l.map f) (l.map g) = true ↔ ∀ j ∈ l, isClose (f j) (g j) = true := by
  simp [rowClose, List.zipWith_map, List.zipWith_self]

/-- A matrix is close to itself. -/
theorem allClose_self (m : List (List ℝ)) : allClose m m = some true := by
  unfold allClose
  rw [if_pos rfl, Option.some.injEq]
  induction m with
  | nil => rfl
  | cons r m ih =>
    rw [List.zipWith_cons_cons, List.all_cons, rowClose_self]
    exact ih

/-- Matrices with different numbers of rows pass only if one of them is a single row, which
    is close to all rows of the other. -/
theorem allClose_of_length_ne {a b : List (List ℝ)} (h : a.length ≠ b.length) :
    allClose a b = some true ↔
      (∃ r, a = [r] ∧ ∀ r' ∈ b, rowClose r r' = true) ∨
        ∃ r, b = [r] ∧ ∀ r' ∈ a, rowClose r' r = true := by
  unfold allClose
  rw [if_neg h]
  -- the lengths differ, so one side has to be a single row that is broadcast
  split
  · next r =>
    have hright : ¬ ∃ r', b = [r'] ∧ ∀ r'' ∈ [r], rowClose r'' r' = true := by
      rintro ⟨r', rfl, -⟩
      exact h rfl
    simp only [hright, or_false, Option.some.injEq, List.all_eq_true, List.cons.injEq, and_true,
      exists_eq_left']
  · next r ha =>
    have hleft : ¬ ∃ r', a = [r'] ∧ ∀ r'' ∈ [r], rowClose r' r'' = true := by
      rintro ⟨r', rfl, -⟩
      exact ha r' rfl
    simp only [hleft, false_or, Option.some.injEq, List.all_eq_true, List.cons.injEq, and_true,
      exists_eq_left']
  · next ha hb =>
    have hnone : ¬ ((∃ r, a = [r] ∧ ∀ r' ∈ b, rowClose r r' = true) ∨
        ∃ r, b = [r] ∧ ∀ r' ∈ a, rowClose r' r = true) := by
      rintro (⟨r, rfl, -⟩ | ⟨r, rfl, -⟩)
      · exact ha r rfl
      · exact hb r rfl
    simp only [hnone, reduceCtorEq]

/-! ## The written files -/

section Written

variable {k : Nat} {trainZ testZ : Nat → Fin k → ℝ} {order : List (Fin k)} {args : PrepareArgs}
  {s : RowSplit} {scaling : Scaling ℝ k}

/-- The files of a run that goes through, in the order they are written. -/
def angleFiles (trainZ testZ : Nat → Fin k → ℝ) (order : List (Fin k)) (s : RowSplit)
    (scaling : Scaling ℝ k) : List (AngleBatch ℝ k) :=
  [⟨.ref, trainZ, s.trIdx, order.take nFeat, scaling⟩,
    ⟨.query, testZ, s.teIdx, order.take nFeat, scaling⟩,
    ⟨.qmocRef, trainZ, s.qmocIdx, order.take nFeat, scaling⟩,
    ⟨.qmocCal, trainZ, s.calIdx, order.take nFeat, scaling⟩,
    ⟨.ref32, trainZ, s.trIdx, order.take 32, scaling⟩,
    ⟨.query32, testZ, s.teIdx, order.take 32, scaling⟩,
    ⟨.qmocRef32, trainZ, s.qmocIdx, order.take 32, scaling⟩,
    ⟨.qmocCal32, trainZ, s.calIdx, order.take 32, scaling⟩]

/-- The landmark rows start with the reference rows. -/
theorem upTo_qmocRef_values {n : Nat} (hn : n ≤ nQmoc) (htr : s.trIdx = s.trN.take n) :
    PySlice.upTo (AngleBatch.values ⟨.qmocRef, trainZ, s.qmocIdx, order, scaling⟩) n =
      AngleBatch.values ⟨.ref, trainZ, s.trIdx, order, scaling⟩ := by
  rw [PySlice.upTo_natCast]
  simp only [AngleBatch.values]
  rw [← List.map_take, RowSplit.qmocIdx, List.take_take, Nat.min_eq_left hn, htr]

/-- The first columns of the 32 are the 16. -/
theorem map_take_ref32_values :
    (AngleBatch.values ⟨.ref32, trainZ, s.trIdx, order.take 32, scaling⟩).map (·.take nFeat) =
      AngleBatch.values ⟨.ref, trainZ, s.trIdx, order.take nFeat, scaling⟩ := by
  simp only [AngleBatch.values, List.map_map]
  apply List.map_congr_left
  intro r _
  show List.take nFeat (List.map _ _) = _
  rw [← List.map_take, List.take_take]
  rfl

/-- The landmark rows pass the comparison with the reference rows. -/
def LandmarksClose (trainZ : Nat → Fin k → ℝ) (order : List (Fin k)) (args : PrepareArgs)
    (s : RowSplit) (scaling : Scaling ℝ k) : Prop :=
  allClose
    (PySlice.upTo (AngleBatch.values ⟨.qmocRef, trainZ, s.qmocIdx, order.take nFeat, scaling⟩)
      args.nTrain)
    (AngleBatch.values ⟨.ref, trainZ, s.trIdx, order.take nFeat, scaling⟩) = some true

/-- The landmark rows start with up to 1000 reference rows. -/
theorem landmarksClose_of_le {n : Nat} (hn : n ≤ nQmoc) (hargs : args.nTrain = n)
    (htr : s.trIdx = s.trN.take n) : LandmarksClose trainZ order args s scaling := by
  rw [LandmarksClose, hargs, upTo_qmocRef_values hn htr, allClose_self]

/-- With enough rows that pass the comparison the script goes through: the second
    comparison is of a matrix with itself. -/
theorem writeAngles_of_close (hqmoc : nQmoc + nCal ≤ s.trN.length)
    (hclose : LandmarksClose trainZ order args s scaling) :
    writeAngles trainZ testZ order args s scaling =
      ⟨angleFiles trainZ testZ order s scaling, none⟩ := by
  simp only [LandmarksClose] at hclose
  simp only [writeAngles]
  rw [if_neg (by omega), hclose, map_take_ref32_values, allClose_self]
  rfl

/-- Otherwise only the first two files are written. -/
theorem written_of_not_close
    (h : ¬ (nQmoc + nCal ≤ s.trN.length ∧ LandmarksClose trainZ order args s scaling)) :
    (writeAngles trainZ testZ order args s scaling).written =
      (angleFiles trainZ testZ order s scaling).take 2 := by
  simp only [writeAngles]
  split
  · rfl
  · next hrows =>
    split
    · rfl
    · rfl
    · next hclose => exact absurd ⟨by omega, hclose⟩ h

/-- The scored rows are always written. -/
theorem query_mem_written :
    (⟨.query, testZ, s.teIdx, order.take nFeat, scaling⟩ : AngleBatch ℝ k) ∈
      (writeAngles trainZ testZ order args s scaling).written := by
  by_cases h : nQmoc + nCal ≤ s.trN.length ∧ LandmarksClose trainZ order args s scaling
  · rw [writeAngles_of_close h.1 h.2]
    simp [angleFiles]
  · rw [written_of_not_close h]
    simp [angleFiles]

end Written

/-- The row set `tr_idx` of a run with a sensible argument. -/
theorem Cut.trIdx_eq_take {train test : LabelCol} {args : PrepareArgs} {s : RowSplit}
    (c : Cut train test args s) {n : Nat} (hargs : args.nTrain = n) :
    s.trIdx = s.trN.take n := by
  rw [c.trIdx_eq, hargs, PySlice.upTo_natCast]

section Landmarks

variable {k : Nat} {trainZ : Nat → Fin k → ℝ} {order : List (Fin k)} {args : PrepareArgs}
  {s : RowSplit} {scaling : Scaling ℝ k}

variable (trainZ order scaling) in
/-- The angles of a training row in the 16 columns. -/
noncomputable def angleRow (r : Nat) : List ℝ :=
  (order.take nFeat).map fun j => scaling.angle j (trainZ r j)

/-- The landmark rows that a negative argument leaves for the comparison. -/
theorem upTo_qmocRef_neg {m : Nat} (hargs : args.nTrain = -(m : Int)) (hm : 0 < m)
    (hqmoc : nQmoc ≤ s.trN.length) :
    PySlice.upTo (AngleBatch.values
      ⟨.qmocRef, trainZ, s.qmocIdx, order.take nFeat, scaling⟩) args.nTrain =
      (s.trN.take (nQmoc - m)).map (angleRow trainZ order scaling) := by
  have hlen : (s.qmocIdx.map (angleRow trainZ order scaling)).length = nQmoc := by
    rw [List.length_map, RowSplit.qmocIdx, List.length_take]
    omega
  show PySlice.upTo (s.qmocIdx.map (angleRow trainZ order scaling)) args.nTrain = _
  rw [hargs, PySlice.upTo_neg _ hm, hlen, ← List.map_take, RowSplit.qmocIdx, List.take_take,
    Nat.min_eq_left (Nat.sub_le _ _)]

/-- A single reference row is compared with no landmark row. -/
theorem single_ref_iff {m : Nat} (htr : s.trIdx = s.trN.take (s.trN.length - m))
    (hlt : m < s.trN.length) (hqmoc : nQmoc < s.trN.length) :
    (∃ r, s.trIdx.map (angleRow trainZ order scaling) = [r] ∧
      ∀ r' ∈ (s.trN.take (nQmoc - m)).map (angleRow trainZ order scaling),
        rowClose r' r = true) ↔ m + 1 = s.trN.length := by
  have hlen : (s.trIdx.map (angleRow trainZ order scaling)).length = s.trN.length - m := by
    rw [htr, List.length_map, List.length_take]
    omega
  constructor
  · rintro ⟨r, hr, -⟩
    rw [hr, List.length_singleton] at hlen
    omega
  · intro hone
    obtain ⟨r, hr⟩ := List.length_eq_one_iff.mp (hlen.trans (by omega))
    have hnone : nQmoc - m = 0 := by omega
    refine ⟨r, hr, ?_⟩
    rw [hnone]
    simp

/-- A single landmark row, the first, is compared with all reference rows. -/
theorem single_landmark_iff {m : Nat} (htr : s.trIdx = s.trN.take (s.trN.length - m))
    (hlt : m < s.trN.length) (hqmoc : nQmoc < s.trN.length) :
    (∃ r, (s.trN.take (nQmoc - m)).map (angleRow trainZ order scaling) = [r] ∧
      ∀ r' ∈ s.trIdx.map (angleRow trainZ order scaling), rowClose r r' = true) ↔
      m + 1 = nQmoc ∧ ∀ a ∈ s.trIdx.head?, ∀ r ∈ s.trIdx, ∀ j ∈ order.take nFeat,
        isClose (scaling.angle j (trainZ a j)) (scaling.angle j (trainZ r j)) = true := by
  cases hrows : s.trN with
  | nil =>
    rw [hrows] at hlt
    simp at hlt
  | cons t ts =>
    -- the first training row is the first landmark row and the first reference row
    have hhead : s.trIdx.head? = some t := by
      rw [htr, hrows, ← Nat.succ_pred_eq_of_pos (Nat.sub_pos_of_lt (hrows ▸ hlt))]
      rfl
    rw [hhead]
    simp only [Option.mem_some_iff, forall_eq']
    constructor
    · rintro ⟨r, hr, hclose⟩
      have hlen := congrArg List.length hr
      rw [List.length_map, List.length_take, List.length_singleton] at hlen
      have hone : nQmoc - m = 1 := by
        rw [hrows] at hqmoc
        omega
      rw [hone] at hr
      obtain rfl : angleRow trainZ order scaling t = r := List.singleton_inj.mp hr
      refine ⟨by omega, ?_⟩
      intro r hr
      exact (rowClose_map _ _ _).mp (hclose _ (List.mem_map_of_mem hr))
    · rintro ⟨hone, hclose⟩
      have hone' : nQmoc - m = 1 := by omega
      refine ⟨angleRow trainZ order scaling t, by rw [hone']; rfl, ?_⟩
      intro r' hr'
      obtain ⟨r, hr, rfl⟩ := List.mem_map.mp hr'
      exact (rowClose_map _ _ _).mpr (hclose r hr)

/-- A negative argument counts from the ends of arrays of different lengths, so the shapes
    differ, and only a single row is broadcast. -/
theorem landmarksClose_neg {m : Nat} (hargs : args.nTrain = -(m : Int)) (hm : 0 < m)
    (htr : s.trIdx = s.trN.take (s.trN.length - m)) (hlt : m < s.trN.length)
    (hqmoc : nQmoc + nCal ≤ s.trN.length) :
    LandmarksClose trainZ order args s scaling ↔
      m + 1 = s.trN.length ∨
        m + 1 = nQmoc ∧ ∀ a ∈ s.trIdx.head?, ∀ r ∈ s.trIdx, ∀ j ∈ order.take nFeat,
          isClose (scaling.angle j (trainZ a j)) (scaling.angle j (trainZ r j)) = true := by
  have hc : nCal = 400 := rfl
  have href : AngleBatch.values ⟨.ref, trainZ, s.trIdx, order.take nFeat, scaling⟩ =
      s.trIdx.map (angleRow trainZ order scaling) := rfl
  have hshape : ((s.trN.take (nQmoc - m)).map (angleRow trainZ order scaling)).length ≠
      (s.trIdx.map (angleRow trainZ order scaling)).length := by
    rw [htr, List.length_map, List.length_map, List.length_take, List.length_take]
    omega
  rw [LandmarksClose, upTo_qmocRef_neg hargs hm (by omega), href, allClose_of_length_ne hshape,
    or_comm, single_ref_iff htr hlt (by omega), single_landmark_iff htr hlt (by omega)]

/-- More than 1000 reference rows are compared with the 1000 landmark rows, and no side is a
    single row. -/
theorem not_landmarksClose_of_lt {n : Nat} (hmany : nQmoc < n) (hargs : args.nTrain = n)
    (htr : s.trIdx = s.trN.take n) (hn : n ≤ s.trN.length) :
    ¬ LandmarksClose trainZ order args s scaling := by
  have hq : nQmoc = 1000 := rfl
  have href : (AngleBatch.values
      ⟨.ref, trainZ, s.trIdx, order.take nFeat, scaling⟩).length = n := by
    rw [AngleBatch.values, htr, List.length_map, List.length_take]
    omega
  have hland : (PySlice.upTo (AngleBatch.values
      ⟨.qmocRef, trainZ, s.qmocIdx, order.take nFeat, scaling⟩) args.nTrain).length =
      nQmoc := by
    rw [hargs, PySlice.upTo_natCast, List.length_take, AngleBatch.values, List.length_map,
      RowSplit.qmocIdx, List.length_take]
    omega
  rw [LandmarksClose, allClose_of_length_ne (by rw [href, hland]; omega)]
  rintro (⟨r, hr, -⟩ | ⟨r, hr, -⟩)
  · rw [hr, List.length_singleton] at hland
    omega
  · rw [hr, List.length_singleton] at href
    omega

/-- When the landmark rows pass the comparison. -/
theorem landmarksClose_iff {train test : LabelCol} (c : Cut train test args s)
    (hne : s.trIdx ≠ []) (hqmoc : nQmoc + nCal ≤ s.trN.length) :
    LandmarksClose trainZ order args s scaling ↔
      (0 ≤ args.nTrain ∧ args.nTrain ≤ nQmoc) ∨ args.nTrain = 1 - s.trN.length ∨
        args.nTrain = 1 - nQmoc ∧ ∀ a ∈ s.trIdx.head?, ∀ r ∈ s.trIdx, ∀ j ∈ order.take nFeat,
          isClose (scaling.angle j (trainZ a j)) (scaling.angle j (trainZ r j)) = true := by
  have hq : nQmoc = 1000 := rfl
  rcases lt_or_ge args.nTrain 0 with hneg | hpos
  · obtain ⟨m, hargs⟩ := Int.exists_eq_neg_ofNat hneg.le
    have hm : 0 < m := by omega
    have htr : s.trIdx = s.trN.take (s.trN.length - m) := by
      rw [c.trIdx_eq, hargs, PySlice.upTo_neg _ hm]
    have hlt : m < s.trN.length := by
      by_contra hge
      rw [Nat.sub_eq_zero_of_le (not_lt.mp hge)] at htr
      exact hne (htr.trans List.take_zero)
    rw [landmarksClose_neg hargs hm htr hlt hqmoc]
    have hfirst : ¬ (0 ≤ args.nTrain ∧ args.nTrain ≤ nQmoc) := by omega
    have hlast : args.nTrain = 1 - s.trN.length ↔ m + 1 = s.trN.length := by omega
    have hone : args.nTrain = 1 - nQmoc ↔ m + 1 = nQmoc := by omega
    simp only [hfirst, false_or, hlast, hone]
  · obtain ⟨n, hargs⟩ := Int.eq_ofNat_of_zero_le hpos
    have htr := c.trIdx_eq_take hargs
    rcases Nat.lt_or_ge nQmoc n with hmany | hn
    · have hle := c.nTrain_le
      refine iff_of_false (not_landmarksClose_of_lt hmany hargs htr (by omega)) ?_
      rintro (h | h | ⟨h, -⟩) <;> omega
    · exact iff_of_true (landmarksClose_of_le hn hargs htr) (Or.inl (by omega))

end Landmarks

/-- A run with between 1 and 1000 training rows, and enough rows for QMOC-SVM, goes through
    to the end. -/
theorem prepare_completes {k : Nat} {files : HaiFiles ℝ k} {ranking : Ranking k}
    {args : PrepareArgs} {sh : Shuffles} {s : RowSplit}
    (h : splitRows files.train.toLabelCol files.test.toLabelCol args sh = .ok s)
    {n : Nat} (hargs : args.nTrain = n) (hpos : 0 < n) (hn : n ≤ nQmoc)
    (hqmoc : nQmoc + nCal ≤ s.trN.length) :
    (prepare files ranking args sh).fault = none := by
  obtain ⟨c⟩ := splitRows_ok h
  have htr := c.trIdx_eq_take hargs
  -- there is a training row to fit the scaling on
  have hne : s.trIdx ≠ [] := by
    intro hnil
    have hlen := congrArg List.length htr
    rw [hnil, List.length_take, List.length_nil] at hlen
    unfold nQmoc at hqmoc
    omega
  unfold prepare
  rw [h]
  cases hrows : s.trIdx with
  | nil => exact absurd hrows hne
  | cons r rs =>
    simp only [hrows]
    rw [writeAngles_of_close hqmoc (landmarksClose_of_le hn hargs htr)]

/-! ## Flat tables -/

/-- Shuffles that leave every array as it is. -/
def Shuffle.keep : Shuffle where
  run := id
  perm := fun l => List.Perm.refl l

@[inherit_doc Shuffle.keep] def Shuffles.keep : Shuffles :=
  ⟨Shuffle.keep, Shuffle.keep, Shuffle.keep, Shuffle.keep, Shuffle.keep⟩

/-- A table with one feature that is the same in all rows. -/
def flatTable (len : Nat) (v : ℝ) (label : Nat → Int8) : Table ℝ 1 where
  len := len
  label := label
  x := fun _ _ => v

/-- Training tables with enough rows, and test tables with a value that the training
    tables do not have. -/
def flatFiles : HaiFiles ℝ 1 where
  train1 := flatTable 1459 0 fun _ => 0
  train2 := flatTable 60 0 fun _ => 0
  test1 := flatTable 63 1 fun i => if i < 61 then 0 else 1
  test2 := flatTable 60 1 fun _ => 0

/-- The order of the only column. -/
def flatRanking : Ranking 1 where
  order := [0]
  perm := List.Perm.refl _

/-- All training rows of the flat tables are normal. -/
theorem flatFiles_normal : flatFiles.train.toLabelCol.flatnonzero 0 = List.range 1401 := by
  have hlabel : ∀ i, flatFiles.train.label i = 0 := by
    intro i
    simp [HaiFiles.train, vstack, movingAverage, flatFiles, flatTable]
  have hlen : flatFiles.train.len = 1401 := rfl
  rw [LabelCol.flatnonzero, hlen, List.filter_eq_self]
  intro i _
  rw [hlabel i]
  rfl

/-- The row sets of the flat tables: row 2 and row 0 rank the features. -/
theorem splitRows_flatFiles (args : PrepareArgs) (htrain : args.nTrain ≤ 1401)
    (hatk : args.nTestAttack ≤ 1) (hnor : args.nTestNormal ≤ 2) :
    splitRows flatFiles.train.toLabelCol flatFiles.test.toLabelCol args Shuffles.keep =
      .ok
        { rankIdx := [2, 0]
          trN := List.range 1401
          trIdx := PySlice.upTo (List.range 1401) args.nTrain
          teIdx := PySlice.upTo [1, 4] args.nTestNormal ++ PySlice.upTo [3] args.nTestAttack
          supNor := PySlice.slice [1, 4] args.nTestNormal (args.nTestNormal + 2000)
          supAtk := PySlice.slice [3] args.nTestAttack (args.nTestAttack + 2000) } := by
  have hattack : Shuffles.keep.atk.run (flatFiles.test.toLabelCol.flatnonzero 1) = [2, 3] := rfl
  have hnormal : Shuffles.keep.nor.run (flatFiles.test.toLabelCol.flatnonzero 0) = [0, 1, 4] :=
    rfl
  have hlen : args.nTrain ≤ (List.range 1401).length := by
    rw [List.length_range]
    exact htrain
  have hkeep : ∀ l, Shuffles.keep.trN.run l = l := fun _ => rfl
  exact splitRows_eq hattack hnormal ((hkeep _).trans flatFiles_normal) rfl rfl rfl (by decide)
    hlen hatk hnor

end OpteeRpi5.Spec
