import Mathlib.Data.List.Chain

/-!
# Positions of a ring

Element `k` of a stream that is written to a ring of `d` slots is in slot `k % d` and on
lap `k / d`. The slots of fewer than `d` consecutive elements are different, and slot and
lap together tell apart the elements of a longer window. `RingPos.lastBelow` is the
element that a slot holds.

Candidates for upstreaming to Lean's standard library.
-/

namespace RingPos

variable {d k m : Nat}

/-- Before the last slot the next element is in the next slot. -/
theorem succ_mod_of_lt (h : k % d + 1 < d) : (k + 1) % d = k % d + 1 := by
  rw [Nat.add_mod, Nat.mod_eq_of_lt (show 1 < d by omega), Nat.mod_eq_of_lt h]

/-- Before the last slot the next element is on the same lap. -/
theorem succ_div_of_lt (h : k % d + 1 < d) : (k + 1) / d = k / d := by
  have hk := Nat.div_add_mod k d
  have hmul : k + 1 = d * (k / d) + (k % d + 1) := by omega
  rw [hmul, Nat.mul_add_div (by omega), Nat.div_eq_of_lt h, Nat.add_zero]

/-- After the last slot comes the first one. -/
theorem succ_mod_of_eq (h : k % d + 1 = d) : (k + 1) % d = 0 := by
  have hk := Nat.div_add_mod k d
  have hmul : k + 1 = d * (k / d) + d := by omega
  rw [hmul, Nat.mul_add_mod, Nat.mod_self]

/-- After the last slot comes the next lap. -/
theorem succ_div_of_eq (h : k % d + 1 = d) : (k + 1) / d = k / d + 1 := by
  have hk := Nat.div_add_mod k d
  have hmul : k + 1 = d * (k / d) + d := by omega
  rw [hmul, Nat.mul_add_div (by omega), Nat.div_self (by omega)]

/-- Elements in one slot are whole laps apart. -/
theorem eq_or_eq_add_of_mod_eq (h : k ≤ m) (hle : m ≤ k + d) (hmod : m % d = k % d) :
    m = k ∨ m = k + d := by
  have hk := Nat.div_add_mod k d
  have hm := Nat.div_add_mod m d
  have hlap : d * (k / d) ≤ d * (m / d) := by omega
  rcases Nat.lt_trichotomy (m / d) (k / d + 1) with hlt | heq | hgt
  · -- the same lap
    have hle' : d * (m / d) ≤ d * (k / d) := Nat.mul_le_mul_left d (by omega)
    omega
  · rw [heq, Nat.mul_add, Nat.mul_one] at hm
    omega
  · have hfar : d * (k / d + 2) ≤ d * (m / d) := Nat.mul_le_mul_left d (by omega)
    rw [Nat.mul_add] at hfar
    omega

/-- Fewer than `d` elements apart, different elements are in different slots. -/
theorem mod_ne_of_lt (h : k < m) (hlt : m < k + d) : k % d ≠ m % d := by
  intro hmod
  have hcases := eq_or_eq_add_of_mod_eq (Nat.le_of_lt h) (Nat.le_of_lt hlt) hmod.symm
  omega

/-- A lap starts in the first slot and has `d` elements. -/
theorem div_eq_of_mod_eq_zero (h0 : k % d = 0) (h : k ≤ m) (hlt : m < k + d) :
    m / d = k / d := by
  have hk := Nat.div_add_mod k d
  have hlap : (d * (k / d) + (m - k)) / d = k / d := by
    rw [Nat.mul_add_div (by omega), Nat.div_eq_of_lt (show m - k < d by omega), Nat.add_zero]
  have hmul : d * (k / d) + (m - k) = m := by omega
  rw [hmul] at hlap
  exact hlap

/-! ## Slot and lap from different moments -/

/-- The element of lap `q` in the slot of `k`. -/
theorem mul_add_mod_slot (q : Nat) : (d * q + k % d) % d = k % d := by
  rw [Nat.mul_add_mod, Nat.mod_mod]

theorem mul_add_mod_lap (hd : 0 < d) (q : Nat) : (d * q + k % d) / d = q := by
  rw [Nat.mul_add_div hd, Nat.div_eq_of_lt (Nat.mod_lt k hd), Nat.add_zero]

/-- An element on a later lap, in the same slot, is a later element. -/
theorem le_mul_add_mod {q : Nat} (h : k / d ≤ q) : k ≤ d * q + k % d := by
  have hk := Nat.div_add_mod k d
  have hmul : d * (k / d) ≤ d * q := Nat.mul_le_mul_left d h
  omega

/-- An element on an earlier lap, in whatever slot, is an earlier element. -/
theorem mul_add_mod_lt {q : Nat} (hd : 0 < d) (h : q < m / d) : d * q + k % d < m := by
  have hm := Nat.div_add_mod m d
  have hk := Nat.mod_lt k hd
  have hmul : d * (q + 1) ≤ d * (m / d) := Nat.mul_le_mul_left d h
  rw [Nat.mul_add, Nat.mul_one] at hmul
  omega

/-- On one lap the slots are in the order of the elements. -/
theorem mod_le_mod_of_div_eq (h : k ≤ m) (hdiv : k / d = m / d) : k % d ≤ m % d := by
  have hk := Nat.div_add_mod k d
  have hm := Nat.div_add_mod m d
  rw [hdiv] at hk
  omega

/-- Laps that agree modulo `n` are the same or at least `n` apart. -/
theorem eq_or_add_le_of_mod_eq {p q n : Nat} (hle : p ≤ q) (hmod : p % n = q % n) :
    p = q ∨ p + n ≤ q := by
  by_cases hfar : p + n ≤ q
  · exact .inr hfar
  · have hzero : (q - p) % n = 0 := Nat.sub_mod_eq_zero_of_mod_eq hmod.symm
    rw [Nat.mod_eq_of_lt (by omega)] at hzero
    left
    omega

/-- Let `g` be `c` or the element after it. The slot of `a` and the lap of `g` modulo `n` are
    those of one element from `a` to `c`, if and only if the slots of `a` and `c` are in order
    and `g` is on the lap of `c`, or there are `n` laps from `a` to `g`. -/
theorem exists_slot_lap_iff {n a c g : Nat} (hd : 0 < d) (hn : 0 < n) (hac : a ≤ c) (hcg : c ≤ g)
    (hgc : g ≤ c + 1) :
    (∃ k, a ≤ k ∧ k ≤ c ∧ k % d = a % d ∧ k / d % n = g / d % n) ↔
      (a % d ≤ c % d ∧ g / d = c / d) ∨ a / d + n ≤ g / d := by
  constructor
  · intro h
    obtain ⟨k, hak, hkc, hslot, hlap⟩ := h
    have hkg : k / d ≤ g / d := Nat.div_le_div_right (by omega)
    rcases eq_or_add_le_of_mod_eq hkg hlap with heq | hfar
    · -- the element is on the lap of `g`, and `c` is between the two
      left
      have hkc' : k / d ≤ c / d := Nat.div_le_div_right hkc
      have hcg' : c / d ≤ g / d := Nat.div_le_div_right hcg
      refine ⟨?_, by omega⟩
      rw [← hslot]
      exact mod_le_mod_of_div_eq hkc (by omega)
    · right
      have hak' : a / d ≤ k / d := Nat.div_le_div_right hak
      omega
  · intro h
    rcases h with ⟨hslot, hlap⟩ | hfar
    · have hac' : a / d ≤ c / d := Nat.div_le_div_right hac
      refine ⟨d * (c / d) + a % d, le_mul_add_mod hac', ?_, mul_add_mod_slot _, ?_⟩
      · have hc := Nat.div_add_mod c d
        omega
      · rw [mul_add_mod_lap hd, hlap]
    · -- `n` laps before `g`
      have hlaps : n ≤ g / d := Nat.le_trans (Nat.le_add_left n _) hfar
      refine ⟨d * (g / d - n) + a % d, le_mul_add_mod (by omega), ?_, mul_add_mod_slot _, ?_⟩
      · have hlt : d * (g / d - n) + a % d < g := mul_add_mod_lt hd (by omega)
        omega
      · rw [mul_add_mod_lap hd, ← Nat.mod_eq_sub_mod hlaps]

/-! ## The element in a slot -/

/-- The last number below `w` that is whole laps away from `m`. -/
def lastBelow (d : Nat) (w m : Int) : Int :=
  m + d * ((w - 1 - m) / d)

/-- Numbers that are whole laps apart have the same last one. -/
theorem lastBelow_add_mul (hd : 0 < d) (w m q : Int) :
    lastBelow d w (m + d * q) = lastBelow d w m := by
  have hd' : (d : Int) ≠ 0 := by omega
  have hsplit : w - 1 - (m + d * q) = w - 1 - m + d * -q := by
    rw [Int.mul_neg]
    omega
  rw [lastBelow, lastBelow, hsplit, Int.add_mul_ediv_left _ _ hd', Int.mul_add, Int.mul_neg]
  omega

/-- With one more number, that one is the last in its slot, and the other slots keep
    theirs. -/
theorem lastBelow_succ (hd : 0 < d) (w m : Int) :
    lastBelow d (w + 1) m = if (d : Int) ∣ w - m then w else lastBelow d w m := by
  have hd' : 0 < (d : Int) := by omega
  have hsub : w + 1 - 1 - m = w - m := by omega
  rw [lastBelow, hsub]
  split
  · next hdvd =>
    rw [Int.mul_ediv_cancel' hdvd]
    omega
  · next hndvd =>
    -- the quotient of `w - m` is that of the number before
    have hmod : (w - m) % d ≠ 0 := fun h => hndvd (Int.dvd_of_emod_eq_zero h)
    have hnonneg := Int.emod_nonneg (w - m) (Int.ne_of_gt hd')
    have hlt := Int.emod_lt_of_pos (w - m) hd'
    have hdiv := Int.mul_ediv_add_emod (w - m) d
    have hprev : (w - 1 - m) / d = (w - m) / d := by
      have hshift : w - 1 - m = (w - m) % d - 1 + d * ((w - m) / d) := by omega
      rw [hshift, Int.add_mul_ediv_left _ _ (Int.ne_of_gt hd'),
        Int.ediv_eq_zero_of_lt (by omega) (by omega), Int.zero_add]
    rw [lastBelow, hprev]

/-- Elements that are taken from one slot after the other are in order when their laps
    never go back. -/
theorem isChain_lt_iff (hd : 0 < d) (laps : List Int) (k : Int) :
    (laps.mapIdx fun i l => k + i + d * l).IsChain (· < ·) ↔ laps.IsChain (· ≤ ·) := by
  induction laps generalizing k with
  | nil => simp
  | cons l laps ih =>
    have hshift : (fun (i : Nat) (l : Int) => k + ((i + 1 : Nat) : Int) + d * l) =
        fun (i : Nat) (l : Int) => (k + 1) + (i : Int) + d * l := by
      funext i l
      omega
    rw [List.mapIdx_cons, hshift]
    cases laps with
    | nil => simp
    | cons l' laps =>
      have hih := ih (k + 1)
      rw [List.mapIdx_cons] at hih ⊢
      rw [List.isChain_cons_cons, List.isChain_cons_cons, hih]
      -- one slot further the lap may stay, and a lap back is more than one slot
      have hstep : (k + (0 : Nat) + d * l < k + 1 + (0 : Nat) + d * l') ↔ l ≤ l' := by
        constructor
        · intro hlt
          by_contra hgt
          have hmul : (d : Int) * (l' + 1) ≤ d * l :=
            Int.mul_le_mul_of_nonneg_left (by omega) (by omega)
          rw [Int.mul_add] at hmul
          omega
        · intro hle
          have hmul : (d : Int) * l ≤ d * l' := Int.mul_le_mul_of_nonneg_left hle (by omega)
          omega
      rw [hstep]

end RingPos
