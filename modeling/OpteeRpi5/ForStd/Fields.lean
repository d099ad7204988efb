import Mathlib.Data.List.TakeWhile

/-!
# Separated fields and escaping

The first field of a list and what follows its separator, and a format that puts a mark
before every special element. A parser that knows the separator but not the mark sees
the separators inside of an escaped field, with the mark in front of them.

Candidates for upstreaming to Lean's standard library.
-/

namespace Fields

variable {α : Type}

section Split

variable [DecidableEq α] {sep : α}

/-- The elements before the first separator. -/
def first (sep : α) (l : List α) : List α :=
  l.takeWhile (· ≠ sep)

/-- The elements after the first separator. -/
def rest (sep : α) (l : List α) : List α :=
  (l.dropWhile (· ≠ sep)).drop 1

private theorem all_ne {a : List α} (h : sep ∉ a) : ∀ c ∈ a, decide (c ≠ sep) = true := by
  intro c hc
  simpa using fun h' : c = sep => h (h' ▸ hc)

theorem first_append {a : List α} (h : sep ∉ a) (b : List α) : first sep (a ++ sep :: b) = a := by
  rw [first, List.takeWhile_append_of_pos (all_ne h), List.takeWhile_cons_of_neg (by simp),
    List.append_nil]

theorem rest_append {a : List α} (h : sep ∉ a) (b : List α) : rest sep (a ++ sep :: b) = b := by
  rw [rest, List.dropWhile_append_of_pos (all_ne h), List.dropWhile_cons_of_neg (by simp)]
  rfl

theorem first_of_not_mem {a : List α} (h : sep ∉ a) : first sep a = a :=
  List.takeWhile_eq_self_iff.mpr (all_ne h)

theorem rest_of_not_mem {a : List α} (h : sep ∉ a) : rest sep a = [] := by
  rw [rest, List.dropWhile_eq_nil_iff.mpr (all_ne h)]
  rfl

/-- What follows a separator is not lost if the first separator is an earlier one. -/
theorem rest_append_ne_nil (a : List α) {b : List α} (hb : b ≠ []) :
    rest sep (a ++ sep :: b) ≠ [] := by
  by_cases ha : sep ∈ a
  · obtain ⟨x, y, rfl, hx⟩ := List.eq_append_cons_of_mem ha
    rw [List.append_assoc, List.cons_append, rest_append hx]
    simp
  · rw [rest_append ha]
    exact hb

end Split

/-! ## Escaping -/

/-- Put `mark` before every special element. -/
def escape (mark : α) (special : α → Bool) (l : List α) : List α :=
  l.flatMap fun c => if special c then [mark, c] else [c]

section Escape

variable {mark : α} {special : α → Bool}

theorem escape_cons (c : α) (l : List α) :
    escape mark special (c :: l) =
      (if special c then [mark, c] else [c]) ++ escape mark special l := by
  rw [escape, List.flatMap_cons, ← escape]

theorem escape_append (a b : List α) :
    escape mark special (a ++ b) = escape mark special a ++ escape mark special b :=
  List.flatMap_append

/-- A special element in the middle. -/
theorem escape_append_cons {c : α} (hc : special c = true) (a b : List α) :
    escape mark special (a ++ c :: b) =
      escape mark special a ++ [mark] ++ c :: escape mark special b := by
  rw [escape_append, escape_cons, if_pos hc]
  simp

/-- Escaping adds marks only. -/
theorem mem_escape {c : α} (hc : c ≠ mark) (l : List α) :
    c ∈ escape mark special l ↔ c ∈ l := by
  induction l with
  | nil => rfl
  | cons d l ih =>
    rw [escape_cons, List.mem_append, ih, List.mem_cons]
    split
    · simp [hc]
    · simp

theorem mark_mem_escape {c : α} {l : List α} (hc : c ∈ l) (hs : special c = true) :
    mark ∈ escape mark special l := by
  refine List.mem_flatMap.mpr ⟨c, hc, ?_⟩
  rw [if_pos hs]
  exact List.mem_cons_self

theorem escape_eq_self {l : List α} (h : ∀ c ∈ l, special c = false) :
    escape mark special l = l := by
  induction l with
  | nil => rfl
  | cons c l ih =>
    rw [escape_cons, h c (by simp), ih fun d hd => h d (List.mem_cons_of_mem _ hd)]
    rfl

/-- Every mark makes the list longer. -/
theorem length_escape (l : List α) :
    (escape mark special l).length = l.length + l.countP special := by
  induction l with
  | nil => rfl
  | cons c l ih =>
    rw [escape_cons, List.length_append, ih, List.length_cons, List.countP_cons]
    split
    · simp only [List.length_cons, List.length_nil]
      omega
    · simp only [List.length_cons, List.length_nil]
      omega

/-- A list is its own escaped form exactly if it has no special elements. -/
theorem escape_eq_self_iff (l : List α) :
    escape mark special l = l ↔ ∀ c ∈ l, special c = false := by
  constructor
  · intro h
    have hlen := congrArg List.length h
    rw [length_escape] at hlen
    have hzero : l.countP special = 0 := by omega
    intro c hc
    simpa using List.countP_eq_zero.mp hzero c hc
  · exact escape_eq_self

/-- An escaped form without marks is the list itself. -/
theorem escape_eq_iff {l w : List α} (hw : mark ∉ w) (hs : ∀ c ∈ w, special c = false) :
    escape mark special l = w ↔ l = w := by
  constructor
  · intro h
    have hplain : ∀ c ∈ l, special c = false := by
      intro c hc
      rw [Bool.eq_false_iff]
      intro hsp
      exact hw (h ▸ mark_mem_escape hc hsp)
    rw [← h, escape_eq_self hplain]
  · intro h
    rw [h, escape_eq_self hs]

end Escape

end Fields
