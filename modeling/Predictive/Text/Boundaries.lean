/-
Classes of code points written as the ascending list of the places where
membership changes: the first entry begins the class, the second ends it, the
third begins it again.
-/

namespace Predictive.Text.Boundaries

/-- A code point is in the class when an odd number of changes lie at or before it. -/
def holds (changes : Array Nat) (code : Nat) : Bool :=
  changes.countP (fun change => change ≤ code) % 2 == 1

end Predictive.Text.Boundaries
