/-
The canonical form of character sets. Joining sorted ranges keeps the characters that
they hold, and characters are held by one list of ranges in canonical form only. So a
set is known by its characters, in whatever way they were listed.
-/

import Mathlib.Logic.Basic
import Predictive.Lexical.CharSet

namespace Predictive

open Scalar

theorem CharRange.contains_between {left right char : Char} :
    (between left right).contains char = true ↔
      left ≤ char ∧ char ≤ right ∨ right ≤ char ∧ char ≤ left := by
  rw [contains_iff]
  unfold between
  simp only [le_iff_rank_le]
  split
  case isTrue => simp only; omega
  case isFalse => simp only; omega

namespace CharSet

variable {ranges rest : List CharRange} {char : Char}

def Holds (ranges : List CharRange) (char : Char) : Prop :=
  ∃ range ∈ ranges, range.contains char = true

theorem not_holds_nil : ¬Holds [] char := by
  intro held
  obtain ⟨range, member, -⟩ := held
  cases member

theorem holds_cons {first : CharRange} :
    Holds (first :: rest) char ↔ first.contains char = true ∨ Holds rest char := by
  simp only [Holds, List.mem_cons, or_and_right, exists_or, exists_eq_left]

theorem holds_append {left right : List CharRange} :
    Holds (left ++ right) char ↔ Holds left char ∨ Holds right char := by
  simp only [Holds, List.mem_append, or_and_right, exists_or]

theorem contains_iff_holds {set : CharSet} : set.contains char = true ↔ Holds set.ranges char :=
  List.any_eq_true

/-! ### Joining ranges -/

theorem contains_join {current next : CharRange} (follows : rank current.lo ≤ rank next.lo)
    (joins : continues current.hi next.lo = true) :
    (CharRange.mk current.lo (if current.hi < next.hi then next.hi else current.hi)).contains char
        = true ↔ current.contains char = true ∨ next.contains char = true := by
  rw [continues_iff] at joins
  rw [CharRange.contains_iff, CharRange.contains_iff, CharRange.contains_iff]
  simp only [lt_iff_rank_lt]
  split
  case isTrue => omega
  case isFalse => omega

theorem holds_coalesce {current : CharRange}
    (ascending : (current :: rest).Pairwise fun left right => rank left.lo ≤ rank right.lo) :
    Holds (coalesce current rest) char ↔ Holds (current :: rest) char := by
  induction rest generalizing current with
  | nil => exact Iff.rfl
  | cons next rest ih =>
      have ascends := List.pairwise_cons.mp ascending
      have follows := ascends.1 next List.mem_cons_self
      unfold coalesce
      split
      case isTrue joins =>
        have kept : (CharRange.mk current.lo
            (if current.hi < next.hi then next.hi else current.hi) :: rest).Pairwise
            fun left right => rank left.lo ≤ rank right.lo := by
          rw [List.pairwise_cons]
          constructor
          · intro later inRest
            exact ascends.1 later (List.mem_cons_of_mem _ inRest)
          · exact (List.pairwise_cons.mp ascends.2).2
        rw [ih kept, holds_cons, holds_cons, holds_cons, contains_join follows joins, or_assoc]
      case isFalse => rw [holds_cons, ih ascends.2, ← holds_cons]

/-- A range within another, one behind it, and two that meet across the surrogates. -/
example : coalesce ⟨'b', 'f'⟩ [⟨'c', 'd'⟩, ⟨'g', 'g'⟩, ⟨'z', '\ud7ff'⟩, ⟨'\ue000', '\ue100'⟩] =
    [⟨'b', 'g'⟩, ⟨'z', '\ue100'⟩] := by decide

theorem holds_normalize : Holds (normalize ranges) char ↔ Holds ranges char := by
  have sorted : Holds (ranges.mergeSort fun left right => rank left.lo ≤ rank right.lo) char ↔
      Holds ranges char := by
    simp only [Holds, List.mem_mergeSort]
  have ascending := ascending_mergeSort ranges
  rw [← sorted]
  unfold normalize
  split
  case h_1 same => rw [same]
  case h_2 first rest same =>
    rw [same] at ascending ⊢
    exact holds_coalesce ascending

end CharSet

/-! ### One list for each set -/

namespace Canonical

open CharSet (Holds holds_cons not_holds_nil)

variable {first other : CharRange} {ranges rest others left right : List CharRange}

theorem tail (canonical : Canonical (first :: rest)) : Canonical rest :=
  ⟨(List.forall_mem_cons.mp canonical.1).2, (List.pairwise_cons.mp canonical.2).2⟩

theorem lo_le_hi (canonical : Canonical (first :: rest)) : rank first.lo ≤ rank first.hi :=
  canonical.1 first List.mem_cons_self

theorem holds_lo (canonical : Canonical (first :: rest)) : Holds (first :: rest) first.lo := by
  rw [holds_cons, CharRange.contains_iff]
  exact Or.inl ⟨Nat.le_refl _, canonical.lo_le_hi⟩

theorem lt_of_holds_tail {char : Char} (canonical : Canonical (first :: rest))
    (held : Holds rest char) : rank first.hi + 1 < rank char := by
  obtain ⟨range, member, inside⟩ := held
  have apart : rank first.hi + 1 < rank range.lo := (List.pairwise_cons.mp canonical.2).1 _ member
  rw [CharRange.contains_iff] at inside
  omega

theorem holds_tail_iff {char : Char} (canonical : Canonical (first :: rest)) :
    Holds rest char ↔ Holds (first :: rest) char ∧ rank first.hi < rank char := by
  rw [holds_cons, CharRange.contains_iff]
  constructor
  · intro held
    have beyond := canonical.lt_of_holds_tail held
    exact ⟨Or.inr held, by omega⟩
  · intro both
    rcases both.1 with inside | held
    · omega
    · exact held

theorem lo_le_of_holds {char : Char} (canonical : Canonical (first :: rest))
    (held : Holds (first :: rest) char) : rank first.lo ≤ rank char := by
  have ordered := canonical.lo_le_hi
  rw [holds_cons, CharRange.contains_iff] at held
  rcases held with inside | held
  · exact inside.1
  · have beyond := canonical.lt_of_holds_tail held
    omega

/-- A range that begins within the first one and holds only what the ranges hold ends
with it: the character behind the first range is held by none. -/
theorem hi_le_of_holds (canonical : Canonical (first :: rest))
    (begins : rank other.lo ≤ rank first.hi)
    (held : ∀ char, other.contains char = true → Holds (first :: rest) char) :
    rank other.hi ≤ rank first.hi := by
  cases following : first.hi.succ? with
  | none =>
      rw [succ?_eq_none_iff.mp following]
      exact rank_le_last other.hi
  | some next =>
      rw [succ?_eq_some_iff] at following
      by_cases short : rank other.hi ≤ rank first.hi
      · exact short
      · have inside : other.contains next = true := by
          rw [CharRange.contains_iff]
          omega
        have behind := (canonical.holds_tail_iff).mpr ⟨held next inside, by omega⟩
        have beyond := canonical.lt_of_holds_tail behind
        omega

theorem head_eq_of_holds (canonical : Canonical (first :: rest))
    (othersCanonical : Canonical (other :: others))
    (same : ∀ char, Holds (first :: rest) char ↔ Holds (other :: others) char) :
    first = other := by
  have ordered := canonical.lo_le_hi
  have otherOrdered := othersCanonical.lo_le_hi
  have below := canonical.lo_le_of_holds ((same _).mpr othersCanonical.holds_lo)
  have above := othersCanonical.lo_le_of_holds ((same _).mp canonical.holds_lo)
  have short := canonical.hi_le_of_holds (by omega) fun char inside =>
    (same char).mpr (holds_cons.mpr (Or.inl inside))
  have long := othersCanonical.hi_le_of_holds (by omega) fun char inside =>
    (same char).mp (holds_cons.mpr (Or.inl inside))
  have sameLo : first.lo = other.lo := eq_iff_rank_eq.mpr (by omega)
  have sameHi : first.hi = other.hi := eq_iff_rank_eq.mpr (by omega)
  cases first
  cases other
  exact congr (congrArg CharRange.mk sameLo) sameHi

/-- Lists in canonical form that hold the same characters are equal. -/
theorem eq_of_holds (canonical : Canonical left) (rightCanonical : Canonical right)
    (same : ∀ char, Holds left char ↔ Holds right char) : left = right := by
  induction left generalizing right with
  | nil =>
      cases right with
      | nil => rfl
      | cons other others => exact (not_holds_nil ((same _).mpr rightCanonical.holds_lo)).elim
  | cons first rest ih =>
      cases right with
      | nil => exact (not_holds_nil ((same _).mp canonical.holds_lo)).elim
      | cons other others =>
          have heads := canonical.head_eq_of_holds rightCanonical same
          subst heads
          have tails : rest = others := by
            apply ih canonical.tail rightCanonical.tail
            intro char
            rw [canonical.holds_tail_iff, rightCanonical.holds_tail_iff, same char]
          rw [tails]

theorem not_holds_behind {range : CharRange} {next : Char} (canonical : Canonical ranges)
    (member : range ∈ ranges) (behind : rank next = rank range.hi + 1) :
    ¬Holds ranges next := by
  induction ranges with
  | nil => cases member
  | cons first rest ih =>
      rw [holds_cons, CharRange.contains_iff]
      intro held
      rcases List.mem_cons.mp member with same | inRest
      · subst same
        rcases held with inside | later
        · omega
        · have beyond := canonical.lt_of_holds_tail later
          omega
      · have apart : rank first.hi + 1 < rank range.lo :=
          (List.pairwise_cons.mp canonical.2).1 range inRest
        have ordered : rank range.lo ≤ rank range.hi := canonical.tail.1 range inRest
        rcases held with inside | later
        · omega
        · exact ih canonical.tail inRest later

end Canonical

namespace CharSet

/-- Well-formed ranges that ascend, with a character between any two of them that is in
none. -/
structure Separated (ranges : List CharRange) : Prop where
  wellFormed : ∀ range ∈ ranges, range.lo ≤ range.hi
  apart : ranges.Pairwise fun left right =>
    ∃ char, left.hi < char ∧ char < right.lo ∧ ¬Holds ranges char

theorem separated_of_canonical {ranges : List CharRange} (canonical : Canonical ranges) :
    Separated ranges where
  wellFormed := fun range member => le_iff_rank_le.mpr (canonical.1 range member)
  apart := by
    apply canonical.2.imp_of_mem
    intro left right inLeft inRight apart
    change rank left.hi + 1 < rank right.lo at apart
    cases following : left.hi.succ? with
    | none =>
        have bound := rank_le_last right.lo
        rw [succ?_eq_none_iff.mp following] at apart
        omega
    | some next =>
        rw [succ?_eq_some_iff] at following
        exact ⟨next, lt_iff_rank_lt.mpr (by omega), lt_iff_rank_lt.mpr (by omega),
          canonical.not_holds_behind inLeft following⟩

theorem eq_of_contains {left right : CharSet}
    (same : ∀ char, left.contains char = true ↔ right.contains char = true) : left = right := by
  have ranges : left.ranges = right.ranges := by
    apply left.canonical.eq_of_holds right.canonical
    intro char
    rw [← contains_iff_holds, ← contains_iff_holds]
    exact same char
  cases left
  cases right
  cases ranges
  rfl

/-! ### Sets from pairs -/

/-- The character lies between the bounds of some pair, whichever bound comes first. -/
def Covers (pairs : List (Char × Char)) (char : Char) : Prop :=
  ∃ pair ∈ pairs, pair.1 ≤ char ∧ char ≤ pair.2 ∨ pair.2 ≤ char ∧ char ≤ pair.1

theorem contains_ofPairs_iff {pairs : List (Char × Char)} {char : Char} :
    (ofPairs pairs).contains char = true ↔ Covers pairs char := by
  rw [contains_iff_holds, ofPairs, holds_normalize]
  simp only [Holds, Covers, List.mem_map, exists_exists_and_eq_and, CharRange.contains_between]

theorem contains_ofChars_iff {chars : List Char} {char : Char} :
    (ofChars chars).contains char = true ↔ char ∈ chars := by
  rw [ofChars, contains_ofPairs_iff]
  simp only [Covers, List.mem_map, exists_exists_and_eq_and, or_self]
  constructor
  · intro covered
    obtain ⟨other, member, low, high⟩ := covered
    rwa [Char.le_antisymm high low]
  · intro member
    exact ⟨char, member, Char.le_refl char, Char.le_refl char⟩

/-- A set that is built from pairs of bounds has its ranges in ascending order with a
missing character between any two, holds what the pairs cover, and is equal to the set
of other pairs exactly when those cover the same characters. -/
theorem ofPairs_canonical_form (pairs : List (Char × Char)) :
    Separated (ofPairs pairs).ranges ∧
      (∀ char, (ofPairs pairs).contains char = true ↔ Covers pairs char) ∧
      ∀ others, ofPairs pairs = ofPairs others ↔
        ∀ char, Covers pairs char ↔ Covers others char := by
  refine ⟨separated_of_canonical (ofPairs pairs).canonical, fun char => contains_ofPairs_iff, ?_⟩
  intro others
  constructor
  · intro same char
    rw [← contains_ofPairs_iff, same, contains_ofPairs_iff]
  · intro covered
    apply eq_of_contains
    intro char
    rw [contains_ofPairs_iff, contains_ofPairs_iff, covered char]

end CharSet

end Predictive
