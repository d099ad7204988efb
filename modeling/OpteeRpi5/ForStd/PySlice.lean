/-!
# Python slices

Slices `l[:stop]`, `l[start:]` and `l[start:stop]` of a list, with Python's reading of
the bounds: a negative bound counts from the end, and bounds beyond the ends are clamped.

Candidates for upstreaming to Lean's standard library.
-/

namespace PySlice

variable {α : Type}

/-- The position of a bound in a sequence of length `n`. -/
def pos (n : Nat) (i : Int) : Nat :=
  min (if i < 0 then i + n else i).toNat n

/-- `l[:stop]`. -/
def upTo (l : List α) (stop : Int) : List α :=
  l.take (pos l.length stop)

/-- `l[start:]`. -/
def downFrom (l : List α) (start : Int) : List α :=
  l.drop (pos l.length start)

/-- `l[start:stop]`. -/
def slice (l : List α) (start stop : Int) : List α :=
  (l.take (pos l.length stop)).drop (pos l.length start)

theorem pos_natCast (n k : Nat) : pos n k = min k n := by
  unfold pos
  rw [if_neg (by omega), Int.toNat_natCast]

theorem upTo_natCast (l : List α) (k : Nat) : upTo l k = l.take k := by
  rw [upTo, pos_natCast]
  rcases Nat.le_total k l.length with h | h
  · rw [Nat.min_eq_left h]
  · rw [Nat.min_eq_right h, List.take_length, List.take_of_length_le h]

/-- A slice up to the last `k` elements. -/
theorem upTo_neg (l : List α) {k : Nat} (hk : 0 < k) :
    upTo l (-(k : Int)) = l.take (l.length - k) := by
  have hpos : pos l.length (-(k : Int)) = l.length - k := by
    unfold pos
    rw [if_pos (by omega)]
    omega
  rw [upTo, hpos]

theorem downFrom_natCast (l : List α) (k : Nat) : downFrom l k = l.drop k := by
  rw [downFrom, pos_natCast]
  rcases Nat.le_total k l.length with h | h
  · rw [Nat.min_eq_left h]
  · rw [Nat.min_eq_right h, List.drop_length, List.drop_of_length_le h]

theorem slice_eq_take_drop (l : List α) (start stop : Int) :
    slice l start stop =
      (l.drop (pos l.length start)).take (pos l.length stop - pos l.length start) :=
  List.drop_take

/-- A slice with bounds that do not count from the end. -/
theorem slice_natCast (l : List α) (a n : Nat) :
    slice l a ((a + n : Nat) : Int) = (l.drop a).take n := by
  rw [slice_eq_take_drop, pos_natCast, pos_natCast]
  rcases Nat.le_total a l.length with h | h
  · rw [Nat.min_eq_left h]
    apply List.ext_getElem?
    intro i
    simp only [List.getElem?_take, List.getElem?_drop]
    split
    · next hi => rw [if_pos (by omega)]
    · next hi =>
      split
      · next hn => exact (List.getElem?_eq_none (by omega)).symm
      · rfl
  · rw [Nat.min_eq_right h, List.drop_length, List.drop_of_length_le h, List.take_nil,
      List.take_nil]

theorem upTo_subset (l : List α) (stop : Int) : upTo l stop ⊆ l :=
  List.take_subset _ _

theorem slice_subset (l : List α) (start stop : Int) : slice l start stop ⊆ l :=
  fun _ h => List.mem_of_mem_take (List.mem_of_mem_drop h)

/-- Two slices that meet at a bound do not overlap. -/
theorem upTo_append_slice_sublist (l : List α) (a b : Int) :
    (upTo l a ++ slice l a b).Sublist l := by
  have happend : upTo l a ++ l.drop (pos l.length a) = l := List.take_append_drop _ _
  have hsub := (List.Sublist.refl (upTo l a)).append (List.take_sublist
    (pos l.length b - pos l.length a) (l.drop (pos l.length a)))
  rw [happend] at hsub
  rw [slice_eq_take_drop]
  exact hsub

end PySlice
