import Mathlib.Data.Nat.Init

/-!
# Named instances of numerals

The numeral `2` of a ring rests on a proof of `2 ≤ 2`, which Lean turns into an auxiliary
lemma of the first definition of a file that has the numeral. With a named instance it is
the same term in all files that open `Numerals`. This is of use in this project only.
-/

namespace Numerals

scoped instance atLeastTwo : Nat.AtLeastTwo 2 := ⟨Nat.le_refl 2⟩

end Numerals
