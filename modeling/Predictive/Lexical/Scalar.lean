/-
The order of characters. Characters are numbered without the surrogate gap, so
U+D7FF and U+E000 are neighbours and every character but the last has a
successor. Facts about neighbours become facts about these numbers.
-/

namespace Predictive.Scalar

/-- The number of characters that come before a character. -/
def rank (char : Char) : Nat := char.ordinal.val

/-- The last character, U+10FFFF. -/
def last : Char := Char.ofOrdinal (Fin.last _)

example : last = Char.ofNat 0x10ffff := by decide

/-- The character just before a character. -/
def pred? (char : Char) : Option Char :=
  if rank char = 0 then none
  else
    have bound : rank char < Char.numCodePoints := char.ordinal.isLt
    some (Char.ofOrdinal ⟨rank char - 1, by omega⟩)

theorem le_iff_rank_le {left right : Char} : left ≤ right ↔ rank left ≤ rank right :=
  Char.le_iff_ordinal_le

theorem lt_iff_rank_lt {left right : Char} : left < right ↔ rank left < rank right :=
  Char.lt_iff_ordinal_lt

theorem eq_iff_rank_eq {left right : Char} : left = right ↔ rank left = rank right := by
  rw [← Char.ordinal_inj, Fin.ext_iff]
  rfl

theorem rank_lt (char : Char) : rank char < Char.numCodePoints := char.ordinal.isLt

theorem rank_last : rank last + 1 = Char.numCodePoints := by decide

theorem rank_le_last (char : Char) : rank char ≤ rank last := by
  have bound := rank_lt char
  have whole := rank_last
  omega

/-- A successor is the character numbered one more. -/
theorem succ?_eq_some_iff {char next : Char} :
    char.succ? = some next ↔ rank next = rank char + 1 := by
  rw [Char.succ?_eq, Option.map_eq_some_iff]
  constructor
  · rintro ⟨index, found, rfl⟩
    rw [Fin.addNat?_eq_some_iff] at found
    rw [rank, Char.ordinal_ofOrdinal]
    exact found.2
  · intro step
    refine ⟨next.ordinal, ?_, Char.ofOrdinal_ordinal⟩
    rw [Fin.addNat?_eq_some_iff]
    exact ⟨step ▸ rank_lt next, step⟩

/-- Only the last character has no successor. -/
theorem succ?_eq_none_iff {char : Char} : char.succ? = none ↔ char = last := by
  constructor
  · intro missing
    rw [eq_iff_rank_eq]
    have bound := rank_lt char
    have whole := rank_last
    by_cases isLast : rank char = rank last
    · exact isLast
    · have room : rank char + 1 < Char.numCodePoints := by omega
      have found : char.succ? = some (Char.ofOrdinal ⟨rank char + 1, room⟩) := by
        rw [succ?_eq_some_iff, rank, Char.ordinal_ofOrdinal]
      rw [missing] at found
      cases found
  · rintro rfl
    decide

/-- A predecessor is the character numbered one less. -/
theorem pred?_eq_some_iff {char previous : Char} :
    pred? char = some previous ↔ rank previous + 1 = rank char := by
  unfold pred?
  split
  case isTrue zero =>
    constructor
    · intro impossible
      cases impossible
    · intro step
      omega
  case isFalse positive =>
    rw [Option.some.injEq, eq_iff_rank_eq, rank, Char.ordinal_ofOrdinal]
    simp only
    omega

theorem pred?_eq_none_iff {char : Char} : pred? char = none ↔ rank char = 0 := by
  unfold pred?
  split <;> simp_all

end Predictive.Scalar
