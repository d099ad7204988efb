import OpteeRpi5.Spec.HaiLevels

/-!
# The range of the angles

The angles of a row are in `[-π, π]` if the levels of its kept columns are between those of
the training rows that the scaling has been fitted to. This holds of these training rows,
and of no other rows in general: the scored rows, the landmark rows after the first ones
and the calibration rows are scaled with it too, and the script neither clips nor checks
them.

## Key results

- `angle_mem_iff`: when an angle is in the domain of the kernel
- `inRange_iff_between`: the range of the scaling, by the levels of the training rows
- `reachesQmoc_iff`: the runs that write all files
- `anglesInDomain_iff`: all files are in the domain if the other rows are in that range
- `flatFiles_out_of_domain`: a column that is constant in training and differs in a test row
-/

namespace OpteeRpi5.Spec

open OpteeRpi5.Native
open scoped Numerals

variable {k : Nat}

/-! ## Scaling -/

/-- The features that the scaling maps into the domain. -/
def Scaling.InRange (s : Scaling ℝ k) (j : Fin k) (z : ℝ) : Prop :=
  s.lo j ≤ z ∧ z ≤ s.lo j + s.span j

section Angle

variable {s : Scaling ℝ k} {j : Fin k} (hspan : 0 < s.span j) (z : ℝ)

/-- The angle of a feature, in the usual notation. -/
theorem angle_eq (s : Scaling ℝ k) (j : Fin k) (z : ℝ) :
    s.angle j z = (z - s.lo j) / s.span j * (2 * Real.pi) - Real.pi := by
  have htwo : (lit 2 : ℝ) = 2 := by
    rw [lit_real]
    norm_num
  rw [Scaling.angle, htwo]
  rfl

include hspan

/-- The lower bound of the domain is the minimum. -/
theorem neg_pi_le_angle_iff : -Real.pi ≤ s.angle j z ↔ s.lo j ≤ z := by
  calc -Real.pi ≤ s.angle j z ↔ 0 ≤ (z - s.lo j) / s.span j * (2 * Real.pi) := by
        rw [angle_eq]
        constructor <;> intro h <;> linarith
    _ ↔ 0 ≤ (z - s.lo j) / s.span j := mul_nonneg_iff_of_pos_right (by positivity)
    _ ↔ 0 ≤ z - s.lo j := by rw [le_div_iff₀ hspan, zero_mul]
    _ ↔ s.lo j ≤ z := sub_nonneg

/-- The upper bound of the domain is the minimum plus the span. -/
theorem angle_le_pi_iff : s.angle j z ≤ Real.pi ↔ z ≤ s.lo j + s.span j := by
  calc s.angle j z ≤ Real.pi ↔ (z - s.lo j) / s.span j * (2 * Real.pi) ≤ 1 * (2 * Real.pi) := by
        rw [angle_eq]
        constructor <;> intro h <;> linarith
    _ ↔ (z - s.lo j) / s.span j ≤ 1 := mul_le_mul_iff_left₀ (by positivity)
    _ ↔ z - s.lo j ≤ s.span j := div_le_one hspan
    _ ↔ z ≤ s.lo j + s.span j := sub_le_iff_le_add'

/-- An angle is in the domain if its feature is in the range. -/
theorem angle_mem_iff :
    -Real.pi ≤ s.angle j z ∧ s.angle j z ≤ Real.pi ↔ Scaling.InRange s j z := by
  rw [neg_pi_le_angle_iff hspan, angle_le_pi_iff hspan]
  rfl

end Angle

/-! ## Minimum and maximum -/

section Fold

variable (z : Nat → ℝ) (rs : List Nat) (m v : ℝ)

/-- A running minimum is below what its start or a row is below. -/
theorem foldl_min_le_iff :
    rs.foldl (fun m r => if z r < m then z r else m) m ≤ v ↔ m ≤ v ∨ ∃ r ∈ rs, z r ≤ v := by
  induction rs generalizing m with
  | nil => simp
  | cons r rs ih =>
    rw [List.foldl_cons, ih, ← min_def_lt, min_le_iff, List.exists_mem_cons_iff, ← or_assoc,
      or_comm (a := z r ≤ v)]

/-- It is above what is below all of them. -/
theorem le_foldl_min_iff :
    v ≤ rs.foldl (fun m r => if z r < m then z r else m) m ↔ v ≤ m ∧ ∀ r ∈ rs, v ≤ z r := by
  induction rs generalizing m with
  | nil => simp
  | cons r rs ih =>
    rw [List.foldl_cons, ih, ← min_def_lt, le_min_iff, List.forall_mem_cons, ← and_assoc,
      and_comm (a := v ≤ z r)]

/-- A running maximum is above what its start or a row is above. -/
theorem le_foldl_max_iff :
    v ≤ rs.foldl (fun m r => if m < z r then z r else m) m ↔ v ≤ m ∨ ∃ r ∈ rs, v ≤ z r := by
  induction rs generalizing m with
  | nil => simp
  | cons r rs ih =>
    rw [List.foldl_cons, ih, ← max_def_lt, le_max_iff, List.exists_mem_cons_iff, ← or_assoc]

end Fold

section Fit

variable (z : Nat → Fin k → ℝ) (r : Nat) (rs : List Nat) (j : Fin k) (v : ℝ)

/-- The minimum of a column is attained. -/
theorem columnMin_le_iff : columnMin z r rs j ≤ v ↔ ∃ a ∈ r :: rs, z a j ≤ v := by
  rw [columnMin, foldl_min_le_iff, List.exists_mem_cons_iff]

/-- It is a lower bound of the rows, and the greatest one. -/
theorem le_columnMin_iff : v ≤ columnMin z r rs j ↔ ∀ a ∈ r :: rs, v ≤ z a j := by
  rw [columnMin, le_foldl_min_iff, List.forall_mem_cons]

/-- The maximum of a column is attained. -/
theorem le_columnMax_iff : v ≤ columnMax z r rs j ↔ ∃ a ∈ r :: rs, v ≤ z a j := by
  rw [columnMax, le_foldl_max_iff, List.exists_mem_cons_iff]

/-- A row with the minimum of the column. -/
theorem exists_columnMin : ∃ b ∈ r :: rs, z b j = columnMin z r rs j := by
  obtain ⟨b, hb, hle⟩ := (columnMin_le_iff z r rs j _).mp le_rfl
  exact ⟨b, hb, le_antisymm hle ((le_columnMin_iff z r rs j _).mp le_rfl b hb)⟩

/-- A row with the maximum of the column. -/
theorem exists_columnMax : ∃ c ∈ r :: rs, z c j = columnMax z r rs j := by
  obtain ⟨c, hc, hle⟩ := (le_columnMax_iff z r rs j _).mp le_rfl
  exact ⟨c, hc, le_antisymm ((le_columnMax_iff z r rs j _).mpr ⟨c, hc, le_rfl⟩) hle⟩

/-- A span is never zero: the script replaces small ones. -/
theorem fitScaling_span_pos : 0 < (fitScaling z r rs).span j := by
  simp only [fitScaling]
  split
  · exact tiny_pos
  · next h => exact tiny_pos.trans_le (not_lt.mp h)

/-- The range of a scaling by the rows it has been fitted to. The span is the spread of the
    column, or larger where that is close to zero. -/
theorem fitScaling_inRange_iff :
    Scaling.InRange (fitScaling z r rs) j v ↔
      (∃ a ∈ r :: rs, z a j ≤ v) ∧
        ((∃ a ∈ r :: rs, v ≤ z a j) ∨ ∀ a ∈ r :: rs, v - tiny ≤ z a j) := by
  rw [← columnMin_le_iff, ← le_columnMax_iff, ← le_columnMin_iff]
  refine and_congr Iff.rfl ?_
  simp only [fitScaling]
  -- a small span is replaced, and then the range goes beyond the largest value
  split
  · next h =>
    constructor
    · intro hv
      exact Or.inr (by linarith)
    · rintro (hv | hv) <;> linarith
  · next h =>
    constructor
    · intro hv
      exact Or.inl (by linarith)
    · rintro (hv | hv) <;> linarith

/-- In a column with a larger spread than `1e-8` the angles of the extreme rows are `-π` and
    `π`, and no angle is close to both. -/
theorem columnMax_sub_columnMin_lt {x : ℝ}
    (hclose : ∀ a ∈ r :: rs, |x - (fitScaling z r rs).angle j (z a j)| ≤
      1e-5 + 1e-5 * |(fitScaling z r rs).angle j (z a j)|) :
    columnMax z r rs j - columnMin z r rs j < tiny := by
  by_contra hwide
  have hspan : (fitScaling z r rs).span j = columnMax z r rs j - columnMin z r rs j :=
    if_neg hwide
  have hpos := hspan ▸ fitScaling_span_pos z r rs j
  obtain ⟨b, hb, hmin⟩ := exists_columnMin z r rs j
  obtain ⟨c, hc, hmax⟩ := exists_columnMax z r rs j
  have hlow : (fitScaling z r rs).angle j (z b j) = -Real.pi := by
    rw [angle_eq, hmin]
    show (columnMin z r rs j - columnMin z r rs j) / _ * _ - _ = _
    rw [sub_self, zero_div, zero_mul, zero_sub]
  have hhigh : (fitScaling z r rs).angle j (z c j) = Real.pi := by
    rw [angle_eq, hspan, hmax]
    show (columnMax z r rs j - columnMin z r rs j) / _ * _ - _ = _
    rw [div_self hpos.ne']
    ring
  have hb' := hclose b hb
  have hc' := hclose c hc
  rw [hlow, abs_neg, abs_of_pos Real.pi_pos, abs_le] at hb'
  rw [hhigh, abs_of_pos Real.pi_pos, abs_le] at hc'
  norm_num at hb' hc'
  linarith [Real.two_le_pi]

end Fit

/-! ## The files -/

/-- All values of a file are in the domain of the kernel. -/
def AngleBatch.InDomain (b : AngleBatch ℝ k) : Prop :=
  ∀ row ∈ b.values, ∀ v ∈ row, -Real.pi ≤ v ∧ v ≤ Real.pi

/-- All features of a file are in the range of the scaling. -/
def AngleBatch.InRange (b : AngleBatch ℝ k) : Prop :=
  ∀ r ∈ b.rows, ∀ j ∈ b.cols, Scaling.InRange b.scaling j (b.z r j)

/-- A file is in the domain if its features are in the range of the scaling. -/
theorem inDomain_iff_inRange {b : AngleBatch ℝ k} (hspan : ∀ j, 0 < b.scaling.span j) :
    AngleBatch.InDomain b ↔ AngleBatch.InRange b := by
  simp only [AngleBatch.InDomain, AngleBatch.InRange, AngleBatch.values, List.forall_mem_map,
    angle_mem_iff (hspan _)]

/-! ## The rows of the tables -/

section Rows

variable (files : HaiFiles ℝ k) (j : Fin k)

/-- A level is between the levels that the training rows `rows` have in column `j`, or in a
    column where these are almost equal, not far above them. -/
def Between (rows : List Nat) (l : ℝ) : Prop :=
  (∃ a ∈ rows, trainLevel files j a ≤ l) ∧
    ((∃ a ∈ rows, l ≤ trainLevel files j a) ∨
      ∀ a ∈ rows, l ≤ trainLevel files j a + 1e-8 * levelUnit files j)

/-- The z-score is increasing. -/
theorem zscore_le_iff (a b : ℝ) :
    (a - levelMean files j) / levelUnit files j ≤ (b - levelMean files j) / levelUnit files j ↔
      a ≤ b := by
  rw [div_le_div_iff_of_pos_right (levelUnit_pos files j), sub_le_sub_iff_right]

/-- The smallest span, in levels. -/
theorem zscore_sub_tiny_le_iff (a b : ℝ) :
    (a - levelMean files j) / levelUnit files j - tiny ≤
        (b - levelMean files j) / levelUnit files j ↔
      a ≤ b + 1e-8 * levelUnit files j := by
  have hunit := levelUnit_pos files j
  have hshift : (b - levelMean files j) / levelUnit files j + tiny =
      (b + 1e-8 * levelUnit files j - levelMean files j) / levelUnit files j := by
    rw [tiny_eq]
    field_simp
    ring
  rw [sub_le_iff_le_add, hshift, zscore_le_iff]

/-- A feature is in the range of the scaling if its level is between those of the rows that
    the scaling has been fitted to. -/
theorem inRange_iff_between (r : Nat) (rs : List Nat) (l : ℝ) :
    Scaling.InRange (fitScaling files.trainZ r rs) j
        ((l - levelMean files j) / levelUnit files j) ↔ Between files j (r :: rs) l := by
  simp only [fitScaling_inRange_iff, trainZ_eq, zscore_le_iff, zscore_sub_tiny_le_iff, Between]

/-- The level of a training row is between those of the training rows. -/
theorem between_of_mem {rows : List Nat} {a : Nat} (ha : a ∈ rows) :
    Between files j rows (trainLevel files j a) :=
  ⟨⟨a, ha, le_rfl⟩, Or.inl ⟨a, ha, le_rfl⟩⟩

/-- A file with training rows. -/
theorem trainBatch_inDomain_iff (f : AngleFile) (rows : List Nat) (cols : List (Fin k)) (r : Nat)
    (rs : List Nat) :
    AngleBatch.InDomain ⟨f, files.trainZ, rows, cols, fitScaling files.trainZ r rs⟩ ↔
      ∀ a ∈ rows, ∀ j ∈ cols, Between files j (r :: rs) (trainLevel files j a) := by
  rw [inDomain_iff_inRange fun j => fitScaling_span_pos _ _ _ j]
  simp only [AngleBatch.InRange, trainZ_eq, ← inRange_iff_between]

/-- A file with test rows. -/
theorem testBatch_inDomain_iff (f : AngleFile) (rows : List Nat) (cols : List (Fin k)) (r : Nat)
    (rs : List Nat) :
    AngleBatch.InDomain ⟨f, files.testZ, rows, cols, fitScaling files.trainZ r rs⟩ ↔
      ∀ a ∈ rows, ∀ j ∈ cols, Between files j (r :: rs) (testLevel files j a) := by
  rw [inDomain_iff_inRange fun j => fitScaling_span_pos _ _ _ j]
  simp only [AngleBatch.InRange, testZ_eq, ← inRange_iff_between]

/-! ## The files that are reached -/

/-- How far the level of row `a` is above that of row `b`, in multiples of the smallest
    span. -/
noncomputable def lift (b a : Nat) : ℝ :=
  (trainLevel files j a - trainLevel files j b) / (1e-8 * levelUnit files j)

/-- The levels of the rows in column `j` are within the smallest span, and that of the first
    row agrees with all of them in the sense of `np.allclose`. -/
def Alike (rows : List Nat) : Prop :=
  ∃ b ∈ rows, ∀ a ∈ rows, 0 ≤ lift files j b a ∧ lift files j b a < 1 ∧
    ∀ r ∈ rows.head?, |lift files j b r - lift files j b a| * (2 * Real.pi) ≤
      1e-5 + 1e-5 * |lift files j b a * (2 * Real.pi) - Real.pi|

/-- The run gets to the QMOC files. -/
def ReachesQmoc (order : List (Fin k)) (args : PrepareArgs) (s : RowSplit) : Prop :=
  nQmoc + nCal ≤ s.trN.length ∧
    ((0 ≤ args.nTrain ∧ args.nTrain ≤ nQmoc) ∨ args.nTrain = 1 - s.trN.length ∨
      args.nTrain = 1 - nQmoc ∧ ∀ j ∈ order.take nFeat, Alike files j s.trIdx)

/-- In features, the smallest span is `1e-8` in every column. -/
theorem lift_eq (b a : Nat) :
    lift files j b a = (files.trainZ a j - files.trainZ b j) / tiny := by
  have hunit := levelUnit_pos files j
  rw [lift, trainZ_eq, trainZ_eq, tiny_eq]
  field_simp
  ring

/-- The angles of a column whose levels are within the smallest span. -/
theorem angle_eq_lift {r : Nat} {rs : List Nat} {b : Nat} (hb : b ∈ r :: rs)
    (h : ∀ a ∈ r :: rs, 0 ≤ lift files j b a ∧ lift files j b a < 1) (a : Nat) :
    (fitScaling files.trainZ r rs).angle j (files.trainZ a j) =
      lift files j b a * (2 * Real.pi) - Real.pi := by
  have hmin : columnMin files.trainZ r rs j = files.trainZ b j := by
    apply le_antisymm
    · exact (columnMin_le_iff _ _ _ _ _).mpr ⟨b, hb, le_rfl⟩
    · refine (le_columnMin_iff _ _ _ _ _).mpr ?_
      intro a ha
      have hle := (h a ha).1
      rw [lift_eq, le_div_iff₀ tiny_pos, zero_mul, sub_nonneg] at hle
      exact hle
  -- the spread is below the smallest span, so that span is used
  obtain ⟨c, hc, hmax⟩ := exists_columnMax files.trainZ r rs j
  have hwidth : columnMax files.trainZ r rs j - columnMin files.trainZ r rs j < tiny := by
    have hlt := (h c hc).2
    rwa [lift_eq, div_lt_one tiny_pos, hmax, ← hmin] at hlt
  have hspan : (fitScaling files.trainZ r rs).span j = tiny := if_pos hwidth
  rw [angle_eq, hspan, lift_eq]
  show (files.trainZ a j - columnMin files.trainZ r rs j) / tiny * _ - _ = _
  rw [hmin]

/-- The levels of a column with a small spread, over the row with the lowest one. -/
theorem lift_mem_of_spread_lt {r : Nat} {rs : List Nat} {b : Nat}
    (hmin : files.trainZ b j = columnMin files.trainZ r rs j)
    (hwidth : columnMax files.trainZ r rs j - columnMin files.trainZ r rs j < tiny) {a : Nat}
    (ha : a ∈ r :: rs) : 0 ≤ lift files j b a ∧ lift files j b a < 1 := by
  have hbelow : columnMin files.trainZ r rs j ≤ files.trainZ a j :=
    (le_columnMin_iff _ _ _ _ _).mp le_rfl a ha
  have habove : files.trainZ a j ≤ columnMax files.trainZ r rs j :=
    (le_columnMax_iff _ _ _ _ _).mpr ⟨a, ha, le_rfl⟩
  rw [lift_eq, hmin]
  constructor
  · exact div_nonneg (by linarith) tiny_pos.le
  · rw [div_lt_one tiny_pos]
    linarith

/-- The first row passes the comparison with all rows if they are alike. -/
theorem isClose_iff_alike (r : Nat) (rs : List Nat) :
    (∀ a ∈ r :: rs, isClose ((fitScaling files.trainZ r rs).angle j (files.trainZ r j))
        ((fitScaling files.trainZ r rs).angle j (files.trainZ a j)) = true) ↔
      Alike files j (r :: rs) := by
  simp only [isClose_iff]
  have hlift {b a : Nat} : |lift files j b r * (2 * Real.pi) - Real.pi -
      (lift files j b a * (2 * Real.pi) - Real.pi)| =
      |lift files j b r - lift files j b a| * (2 * Real.pi) := by
    rw [sub_sub_sub_cancel_right, ← sub_mul, abs_mul, abs_of_pos Real.two_pi_pos]
  constructor
  · intro hclose
    obtain ⟨b, hb, hmin⟩ := exists_columnMin files.trainZ r rs j
    have hwidth := columnMax_sub_columnMin_lt files.trainZ r rs j hclose
    have hwithin : ∀ a ∈ r :: rs, 0 ≤ lift files j b a ∧ lift files j b a < 1 :=
      fun a ha => lift_mem_of_spread_lt files j hmin hwidth ha
    refine ⟨b, hb, ?_⟩
    intro a ha
    refine ⟨(hwithin a ha).1, (hwithin a ha).2, ?_⟩
    rintro _ ⟨⟩
    have h := hclose a ha
    rwa [angle_eq_lift files j hb hwithin, angle_eq_lift files j hb hwithin, hlift] at h
  · rintro ⟨b, hb, halike⟩ a ha
    have hwithin : ∀ a ∈ r :: rs, 0 ≤ lift files j b a ∧ lift files j b a < 1 :=
      fun a ha => ⟨(halike a ha).1, (halike a ha).2.1⟩
    rw [angle_eq_lift files j hb hwithin, angle_eq_lift files j hb hwithin, hlift]
    exact (halike a ha).2.2 r rfl

/-- The runs that write all files are those that pass the comparison of the landmarks. -/
theorem reachesQmoc_iff {train test : LabelCol} {order : List (Fin k)} {args : PrepareArgs}
    {s : RowSplit} (c : Cut train test args s) {r : Nat} {rs : List Nat}
    (hrows : s.trIdx = r :: rs) :
    ReachesQmoc files order args s ↔ nQmoc + nCal ≤ s.trN.length ∧
      LandmarksClose files.trainZ order args s (fitScaling files.trainZ r rs) := by
  refine and_congr_right fun hqmoc => ?_
  have hne : s.trIdx ≠ [] := by
    rw [hrows]
    exact List.cons_ne_nil _ _
  rw [landmarksClose_iff c hne hqmoc, hrows]
  have halike : (∀ j ∈ order.take nFeat, Alike files j (r :: rs)) ↔
      ∀ a ∈ (r :: rs).head?, ∀ b ∈ r :: rs, ∀ j ∈ order.take nFeat,
        isClose ((fitScaling files.trainZ r rs).angle j (files.trainZ a j))
          ((fitScaling files.trainZ r rs).angle j (files.trainZ b j)) = true := by
    simp only [← isClose_iff_alike, List.head?_cons, Option.mem_some_iff, forall_eq']
    exact ⟨fun h b hb j hj => h j hj b hb, fun h j hj b hb => h b hb j hj⟩
  rw [halike]

end Rows

/-- The files of a run by the rows they are written from. The reference rows are in the
    domain, and the 16 columns are among the 32. -/
theorem written_inDomain_iff (files : HaiFiles ℝ k) (order : List (Fin k))
    {train test : LabelCol} {args : PrepareArgs} {s : RowSplit} (c : Cut train test args s)
    {r : Nat} {rs : List Nat} (hrows : s.trIdx = r :: rs) :
    (∀ b ∈ (writeAngles files.trainZ files.testZ order args s
        (fitScaling files.trainZ r rs)).written, AngleBatch.InDomain b) ↔
      (∀ a ∈ s.teIdx, ∀ j ∈ order.take nFeat, Between files j s.trIdx (testLevel files j a)) ∧
      (ReachesQmoc files order args s →
        (∀ a ∈ s.teIdx, ∀ j ∈ order.take 32, Between files j s.trIdx (testLevel files j a)) ∧
        ∀ a ∈ s.qmocIdx ++ s.calIdx, ∀ j ∈ order.take 32,
          Between files j s.trIdx (trainLevel files j a)) := by
  have hsub : ∀ j ∈ order.take nFeat, j ∈ order.take 32 :=
    fun j hj => List.take_subset_take_left order (by decide) hj
  have href : ∀ (cols : List (Fin k)), ∀ a ∈ s.trIdx, ∀ j ∈ cols,
      Between files j (r :: rs) (trainLevel files j a) :=
    fun _ a ha j _ => between_of_mem files j (hrows ▸ ha)
  rw [reachesQmoc_iff files c hrows, List.forall_mem_append, hrows]
  by_cases h : nQmoc + nCal ≤ s.trN.length ∧
      LandmarksClose files.trainZ order args s (fitScaling files.trainZ r rs)
  · -- all eight files
    rw [writeAngles_of_close h.1 h.2]
    simp only [angleFiles, List.forall_mem_cons, trainBatch_inDomain_iff, testBatch_inDomain_iff,
      List.not_mem_nil, false_imp_iff, implies_true, and_true]
    constructor
    · rintro ⟨-, hquery, -, -, -, hquery32, hqmoc32, hcal32⟩
      exact ⟨hquery, fun _ => ⟨hquery32, hqmoc32, hcal32⟩⟩
    · rintro ⟨hquery, hall⟩
      obtain ⟨hquery32, hqmoc32, hcal32⟩ := hall h
      exact ⟨href _, hquery, fun a ha j hj => hqmoc32 a ha j (hsub j hj),
        fun a ha j hj => hcal32 a ha j (hsub j hj), href _, hquery32, hqmoc32, hcal32⟩
  · rw [written_of_not_close h]
    simp only [angleFiles, List.take_succ_cons, List.take_zero, List.forall_mem_cons,
      trainBatch_inDomain_iff, testBatch_inDomain_iff, List.not_mem_nil, false_imp_iff,
      implies_true, and_true]
    exact ⟨fun hall => ⟨hall.2, fun hreach => absurd hreach h⟩, fun hall => ⟨href _, hall.1⟩⟩

/-- For all tables, labels, arguments, rankings and outcomes of the shuffles: every value
    that is written to one of the files is in `[-π, π]` if and only if the scored rows, and
    in a run that gets to the QMOC files the landmark and calibration rows, have levels
    between those of the training rows in the columns that are kept. -/
theorem anglesInDomain_iff (files : HaiFiles ℝ k) (ranking : Ranking k) (args : PrepareArgs)
    (sh : Shuffles) :
    (∀ b ∈ (prepare files ranking args sh).written, AngleBatch.InDomain b) ↔
      ∀ s, splitRows files.train.toLabelCol files.test.toLabelCol args sh = .ok s →
        s.trIdx ≠ [] →
        (∀ a ∈ s.teIdx, ∀ j ∈ ranking.order.take nFeat,
          Between files j s.trIdx (testLevel files j a)) ∧
        (ReachesQmoc files ranking.order args s →
          (∀ a ∈ s.teIdx, ∀ j ∈ ranking.order.take 32,
            Between files j s.trIdx (testLevel files j a)) ∧
          ∀ a ∈ s.qmocIdx ++ s.calIdx, ∀ j ∈ ranking.order.take 32,
            Between files j s.trIdx (trainLevel files j a)) := by
  unfold prepare
  cases hsplit : splitRows files.train.toLabelCol files.test.toLabelCol args sh with
  | error fault =>
    -- a run that stops in the checks has written nothing
    simp
  | ok s =>
    obtain ⟨c⟩ := splitRows_ok hsplit
    simp only [Except.ok.injEq, forall_eq']
    cases hrows : s.trIdx with
    | nil =>
      -- neither has one without training rows, which fails in `min`
      simp
    | cons r rs =>
      have hiff := written_inDomain_iff files ranking.order c hrows
      rw [hrows] at hiff
      rw [hiff]
      exact ⟨fun h _ => h, fun h => h (List.cons_ne_nil r rs)⟩

/-! ## A constant column -/

/-- The mean of equal rows. -/
theorem fileMean_flatTable (len : Nat) (v : ℝ) (label : Nat → Int8) (j : Fin 1) (i : Nat) :
    fileMean (flatTable len v label) j i = v := by
  simp [fileMean, flatTable]

theorem trainMean_flatFiles (j : Fin 1) (i : Nat) : trainMean flatFiles j i = 0 := by
  unfold trainMean pairMean
  split <;> exact fileMean_flatTable _ _ _ _ _

theorem testMean_flatFiles (j : Fin 1) (i : Nat) : testMean flatFiles j i = 1 := by
  unfold testMean pairMean
  split <;> exact fileMean_flatTable _ _ _ _ _

/-- A column with one mean has the share of its training rows as level. -/
theorem level_flatFiles (j : Fin 1) (v : ℝ) :
    level flatFiles j v = if v = 0 then 1 else 0 := by
  have hrows : trainRows flatFiles = 1401 := rfl
  have hvals : ((Finset.range (trainRows flatFiles)).image (trainMean flatFiles j)).card ≤ 1 := by
    refine Finset.card_le_one.mpr ?_
    simp [trainMean_flatFiles]
  rw [level, if_neg (by omega), hrows]
  simp only [trainMean_flatFiles, eq_comm (a := (0 : ℝ))]
  split
  · rw [Finset.filter_true_of_mem (by simp_all)]
    simp
  · rw [Finset.filter_false_of_mem (by simp_all)]
    simp

/-- The training rows have the level 1, and the test rows 0. -/
theorem flatFiles_levels (j : Fin 1) (i : Nat) :
    trainLevel flatFiles j i = 1 ∧ testLevel flatFiles j i = 0 := by
  rw [trainLevel, testLevel, trainMean_flatFiles, testMean_flatFiles, level_flatFiles,
    level_flatFiles, if_pos rfl, if_neg one_ne_zero]
  exact ⟨rfl, rfl⟩

/-- A run on the flat tables goes through, and writes an angle for the scored rows that is
    not in the domain: the scaling has the smallest span, and the feature of these rows is
    not the one of the training rows. -/
theorem flatFiles_out_of_domain :
    (prepare flatFiles flatRanking ⟨1, 1, 1⟩ Shuffles.keep).fault = none ∧
    ∃ b ∈ (prepare flatFiles flatRanking ⟨1, 1, 1⟩ Shuffles.keep).written,
      b.file = .query ∧ ∃ row ∈ b.values, ∃ v ∈ row, v < -Real.pi := by
  obtain ⟨s, hs, htrN, htr, hte⟩ : ∃ s, splitRows flatFiles.train.toLabelCol
      flatFiles.test.toLabelCol ⟨1, 1, 1⟩ Shuffles.keep = .ok s ∧ s.trN = List.range 1401 ∧
      s.trIdx = PySlice.upTo (List.range 1401) ((1 : Nat) : Int) ∧ s.teIdx = [1, 3] :=
    ⟨_, splitRows_flatFiles ⟨1, 1, 1⟩ (by decide) (by decide) (by decide),
      by dsimp only, by dsimp only; rfl, rfl⟩
  have hrows : nQmoc + nCal ≤ s.trN.length := by
    rw [htrN, List.length_range]
    decide
  have htr' : s.trIdx = [0] := by
    rw [htr, PySlice.upTo_natCast, List.take_range]
    rfl
  refine ⟨prepare_completes hs (n := 1) rfl (by decide) (by decide) hrows, ?_⟩
  have hwritten : (prepare flatFiles flatRanking ⟨1, 1, 1⟩ Shuffles.keep).written =
      (writeAngles flatFiles.trainZ flatFiles.testZ [0] ⟨1, 1, 1⟩ s
        (fitScaling flatFiles.trainZ 0 [])).written := by
    simp only [prepare, hs, htr', flatRanking]
  rw [hwritten]
  refine ⟨_, query_mem_written, rfl, _, List.mem_map.mpr ⟨1, by simp [hte], rfl⟩, _,
    List.mem_map.mpr ⟨0, by simp [nFeat], rfl⟩, ?_⟩
  -- the level 0 is below the only level of the training rows
  have hspan := fitScaling_span_pos flatFiles.trainZ 0 [] 0
  have hmin : (fitScaling flatFiles.trainZ 0 []).lo 0 = flatFiles.trainZ 0 0 := rfl
  show (fitScaling flatFiles.trainZ 0 []).angle 0 (flatFiles.testZ 1 0) < -Real.pi
  rw [← not_le, neg_pi_le_angle_iff hspan, hmin, trainZ_eq, testZ_eq, zscore_le_iff,
    (flatFiles_levels 0 0).1, (flatFiles_levels 0 1).2]
  norm_num

end OpteeRpi5.Spec
