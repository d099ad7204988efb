import OpteeRpi5.Spec.HaiPrepareRun

/-!
# The row sets do not overlap

The rows that rank the features, the scored rows and the supervised rows are cut from two
arrays, one for each label. Whatever the shuffles do to them, and whatever the bounds of
the slices are, a row is used once. The numbers of labels are those of the arguments if
these are not negative: the script compares them with the number of rows from above only,
and a slice with a negative bound counts from the end.

## Key results

- `splits_nodup`: no row is used twice
- `labels_eq`: the labels of the scored rows, for all arguments
- `noLeakage_iff`: the splits are as documented if the numbers of scored rows are not negative
- `negative_count_accepted`: a run with a negative number goes through
-/

namespace OpteeRpi5.Spec

open OpteeRpi5.Native

section Cut

variable {train test : LabelCol} {args : PrepareArgs} {s : RowSplit}

/-! ## Rows of a label -/

/-- The rows of a label, each once. -/
theorem nodup_flatnonzero (y : LabelCol) (v : Int8) : (y.flatnonzero v).Nodup :=
  List.nodup_range.filter _

/-- The rows of a label have it. -/
theorem label_of_mem {y : LabelCol} {v : Int8} {i : Nat} (h : i ∈ y.flatnonzero v) :
    y.label i = v := by
  simpa using List.of_mem_filter h

/-- No row has two labels. -/
theorem nodup_append_flatnonzero (y : LabelCol) :
    (y.flatnonzero 1 ++ y.flatnonzero 0).Nodup := by
  refine List.nodup_append.mpr ⟨nodup_flatnonzero y 1, nodup_flatnonzero y 0, ?_⟩
  intro i hi j hj hij
  have hone := label_of_mem hi
  rw [hij, label_of_mem hj] at hone
  exact absurd hone (by decide)

/-- The normal rows that are held back are normal. -/
theorem Cut.label_heldNor (c : Cut train test args s) {i : Nat} (h : i ∈ c.heldNor) :
    test.label i = 0 :=
  label_of_mem (c.nor_perm.mem_iff.mp (List.mem_of_mem_drop (c.heldNor_perm.mem_iff.mp h)))

/-- The attack rows that are held back are attacks. -/
theorem Cut.label_heldAtk (c : Cut train test args s) {i : Nat} (h : i ∈ c.heldAtk) :
    test.label i = 1 :=
  label_of_mem (c.atk_perm.mem_iff.mp (List.mem_of_mem_drop (c.heldAtk_perm.mem_iff.mp h)))

/-! ## No row is used twice -/

/-- The rows of one label that are used, for slices that meet at the bound `a`. -/
theorem used_subperm {l held : List Nat} {n : Nat} (hheld : held.Perm (l.drop n)) (a b : Int) :
    (l.take n ++ (PySlice.upTo held a ++ PySlice.slice held a b)).Subperm l := by
  have hsub := PySlice.upTo_append_slice_sublist held a b
  have hsplit : (l.take n ++ held).Perm l := by
    have happend := hheld.append_left (l.take n)
    rwa [List.take_append_drop] at happend
  exact ((List.Sublist.refl _).append hsub).subperm.trans hsplit.subperm

/-- The row sets are disjoint, since the slices of an array meet at the same bound. -/
theorem splits_nodup (c : Cut train test args s) :
    (s.rankIdx ++ s.teIdx ++ s.supNor ++ s.supAtk).Nodup := by
  have hatk := (used_subperm c.heldAtk_perm args.nTestAttack (args.nTestAttack + 2000)).trans
    c.atk_perm.subperm
  have hnor := (used_subperm c.heldNor_perm args.nTestNormal (args.nTestNormal + 2000)).trans
    c.nor_perm.subperm
  have hall := hatk.append hnor
  -- the same rows, in the order of the statement
  have hperm : (s.rankIdx ++ s.teIdx ++ s.supNor ++ s.supAtk).Perm
      ((c.atk.take c.n ++ (PySlice.upTo c.heldAtk args.nTestAttack ++ s.supAtk)) ++
        (c.nor.take c.n ++ (PySlice.upTo c.heldNor args.nTestNormal ++ s.supNor))) := by
    rw [c.rankIdx_eq, c.teIdx_eq, List.perm_iff_count]
    intro i
    simp only [List.count_append]
    omega
  rw [c.supAtk_eq, c.supNor_eq] at hperm ⊢
  -- the two arrays are disjoint: they hold the rows of different labels
  obtain ⟨used, hused, hsub⟩ := hall
  exact (hperm.trans hused.symm).nodup_iff.mpr (hsub.nodup (nodup_append_flatnonzero test))

/-- The landmark rows and the calibration rows. -/
theorem qmoc_nodup (c : Cut train test args s) : (s.qmocIdx ++ s.calIdx).Nodup := by
  have hsub := PySlice.upTo_append_slice_sublist s.trN nQmoc ((nQmoc + nCal : Nat) : Int)
  rw [PySlice.upTo_natCast] at hsub
  exact hsub.nodup (c.trN_perm.nodup_iff.mpr (nodup_flatnonzero train 0))

/-! ## Labels -/

/-- Rows of a label, cut from an array in any way. -/
theorem map_label {l held : List Nat} {v : Int8} (hl : l ⊆ held)
    (hlabel : ∀ i ∈ held, test.label i = v) : l.map test.label = List.replicate l.length v := by
  rw [List.eq_replicate_iff, List.length_map]
  refine ⟨rfl, ?_⟩
  intro y hy
  obtain ⟨i, hi, rfl⟩ := List.mem_map.mp hy
  exact hlabel i (hl hi)

/-- `labels` is normal rows first, then attacks. -/
theorem labels_eq (c : Cut train test args s) :
    s.labels test =
      List.replicate (PySlice.upTo c.heldNor args.nTestNormal).length 0 ++
        List.replicate (PySlice.upTo c.heldAtk args.nTestAttack).length 1 := by
  rw [RowSplit.labels, c.teIdx_eq, List.map_append,
    map_label (PySlice.upTo_subset _ _) (fun _ => c.label_heldNor),
    map_label (PySlice.upTo_subset _ _) (fun _ => c.label_heldAtk)]

/-- `sup_y` holds the labels of the rows of `sup_x`. -/
theorem supY_eq (c : Cut train test args s) :
    s.supY = (s.supNor ++ s.supAtk).map test.label := by
  rw [RowSplit.supY, List.map_append, c.supNor_eq, c.supAtk_eq,
    map_label (PySlice.slice_subset _ _ _) (fun _ => c.label_heldNor),
    map_label (PySlice.slice_subset _ _ _) (fun _ => c.label_heldAtk)]

end Cut

/-! ## No leakage -/

/-- The splits as the script documents them. -/
structure NoLeakage (test : LabelCol) (args : PrepareArgs) (s : RowSplit) : Prop where
  rows : (s.rankIdx ++ s.teIdx ++ s.supNor ++ s.supAtk).Nodup
  qmoc : (s.qmocIdx ++ s.calIdx).Nodup
  labels : ∃ normal attack : Nat, args.nTestNormal = normal ∧ args.nTestAttack = attack ∧
    s.labels test = List.replicate normal 0 ++ List.replicate attack 1
  supY : s.supY = (s.supNor ++ s.supAtk).map test.label

/-- A slice of a bound that has been compared with the length. -/
theorem length_upTo {l : List Nat} {n : Nat} (h : (n : Int) ≤ l.length) :
    (PySlice.upTo l n).length = n := by
  rw [PySlice.upTo_natCast, List.length_take]
  omega

/-- For every label vector, every outcome of the shuffles and all arguments that pass the
    checks, the splits are as documented if and only if the numbers of scored rows are not
    negative. -/
theorem noLeakage_iff {train test : LabelCol} {args : PrepareArgs} {sh : Shuffles}
    {s : RowSplit} (h : splitRows train test args sh = .ok s) :
    NoLeakage test args s ↔ 0 ≤ args.nTestNormal ∧ 0 ≤ args.nTestAttack := by
  obtain ⟨c⟩ := splitRows_ok h
  constructor
  · -- numbers of labels are not negative
    intro hno
    obtain ⟨normal, attack, hnormal, hattack, _⟩ := hno.labels
    omega
  · rintro ⟨hnormal, hattack⟩
    obtain ⟨normal, hn⟩ := Int.eq_ofNat_of_zero_le hnormal
    obtain ⟨attack, ha⟩ := Int.eq_ofNat_of_zero_le hattack
    refine ⟨splits_nodup c, qmoc_nodup c, ⟨normal, attack, hn, ha, ?_⟩, supY_eq c⟩
    rw [labels_eq c, hn, ha, length_upTo (hn ▸ c.nTestNormal_le),
      length_upTo (ha ▸ c.nTestAttack_le)]

/-- The flat tables with one scored row of each label. -/
theorem noLeakage_flatFiles :
    ∃ s, splitRows flatFiles.train.toLabelCol flatFiles.test.toLabelCol ⟨1, 1, 1⟩
        Shuffles.keep = .ok s ∧ NoLeakage flatFiles.test.toLabelCol ⟨1, 1, 1⟩ s := by
  have hs := splitRows_flatFiles ⟨1, 1, 1⟩ (by decide) (by decide) (by decide)
  exact ⟨_, hs, (noLeakage_iff hs).mpr ⟨by decide, by decide⟩⟩

/-- A run with `--n-test-normal -1` goes through: it scores all normal rows but the last
    one, and the labels are not the `-1` normal ones that `meta.txt` reports. -/
theorem negative_count_accepted :
    (prepare flatFiles flatRanking ⟨1, -1, 1⟩ Shuffles.keep).fault = none ∧
    ∃ s, splitRows flatFiles.train.toLabelCol flatFiles.test.toLabelCol ⟨1, -1, 1⟩
        Shuffles.keep = .ok s ∧
      s.labels flatFiles.test.toLabelCol = [0, 1] ∧
      ¬ NoLeakage flatFiles.test.toLabelCol ⟨1, -1, 1⟩ s := by
  obtain ⟨s, hs, htrN, hlabels⟩ : ∃ s, splitRows flatFiles.train.toLabelCol
      flatFiles.test.toLabelCol ⟨1, -1, 1⟩ Shuffles.keep = .ok s ∧ s.trN = List.range 1401 ∧
      s.labels flatFiles.test.toLabelCol = [0, 1] :=
    ⟨_, splitRows_flatFiles ⟨1, -1, 1⟩ (by decide) (by decide) (by decide),
      by dsimp only, rfl⟩
  have hrows : nQmoc + nCal ≤ s.trN.length := by
    rw [htrN, List.length_range]
    decide
  refine ⟨prepare_completes hs (n := 1) rfl (by decide) (by decide) hrows, s, hs, hlabels, ?_⟩
  intro hno
  obtain ⟨normal, _, hnormal, _⟩ := hno.labels
  have hneg : (-1 : Int) = normal := hnormal
  omega

end OpteeRpi5.Spec
