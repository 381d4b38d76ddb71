/-
Sets of characters, kept as ranges in the one form that each set has: every
range is well formed, ranges ascend, and between two ranges at least one
character is missing. A set is built from pairs of bounds in any order, and its
complement is taken within a domain.
-/

import Predictive.Lexical.Scalar

namespace Predictive

open Scalar

/-- The characters from `lo` to `hi`. The bounds may be reversed; the range then
holds no character. -/
structure CharRange where
  lo : Char
  hi : Char
  deriving DecidableEq, Repr, Inhabited

namespace CharRange

def contains (range : CharRange) (char : Char) : Bool :=
  range.lo ≤ char && char ≤ range.hi

theorem contains_iff {range : CharRange} {char : Char} :
    range.contains char = true ↔
      rank range.lo ≤ rank char ∧ rank char ≤ rank range.hi := by
  simp only [contains, Bool.and_eq_true, decide_eq_true_eq, le_iff_rank_le]

/-- The range between two bounds in either order. -/
def between (left right : Char) : CharRange :=
  if left ≤ right then ⟨left, right⟩ else ⟨right, left⟩

def WellFormed (range : CharRange) : Prop := rank range.lo ≤ rank range.hi

/-- At least one character lies after the first range and before the second. -/
def Apart (left right : CharRange) : Prop := rank left.hi + 1 < rank right.lo

instance (range : CharRange) : Decidable range.WellFormed :=
  inferInstanceAs (Decidable (rank range.lo ≤ rank range.hi))

instance (left right : CharRange) : Decidable (left.Apart right) :=
  inferInstanceAs (Decidable (rank left.hi + 1 < rank right.lo))

theorem wellFormed_between (left right : Char) : (between left right).WellFormed := by
  unfold between WellFormed
  split
  case isTrue ordered => exact le_iff_rank_le.mp ordered
  case isFalse reversed =>
    rw [le_iff_rank_le] at reversed
    simp only
    omega

end CharRange

/-- The form in which a set of characters is stored. -/
def Canonical (ranges : List CharRange) : Prop :=
  (∀ range ∈ ranges, range.WellFormed) ∧ ranges.Pairwise CharRange.Apart

/-- A set of characters. -/
structure CharSet where
  ranges : List CharRange
  canonical : Canonical ranges
  deriving DecidableEq

namespace CharSet

/-- Whether a range that begins at `lo` continues one that ends at `hi`: no
character lies between them. -/
def continues (hi lo : Char) : Bool :=
  match hi.succ? with
  | none => true
  | some next => lo ≤ next

theorem continues_iff {hi lo : Char} :
    continues hi lo = true ↔ rank lo ≤ rank hi + 1 := by
  unfold continues
  split
  case h_1 missing =>
    rw [succ?_eq_none_iff] at missing
    subst missing
    have bound := rank_le_last lo
    exact ⟨fun _ => by omega, fun _ => rfl⟩
  case h_2 next found =>
    rw [succ?_eq_some_iff] at found
    rw [decide_eq_true_eq, le_iff_rank_le, found]

/-- Joins ranges that are in ascending order of their low ends. -/
def coalesce (current : CharRange) : List CharRange → List CharRange
  | [] => [current]
  | next :: rest =>
      if continues current.hi next.lo then
        coalesce ⟨current.lo, if current.hi < next.hi then next.hi else current.hi⟩ rest
      else current :: coalesce next rest

theorem lo_le_of_mem_coalesce {current range : CharRange} {rest : List CharRange}
    (ascending : (current :: rest).Pairwise fun left right => rank left.lo ≤ rank right.lo)
    (member : range ∈ coalesce current rest) : rank current.lo ≤ rank range.lo := by
  induction rest generalizing current with
  | nil =>
      simp only [coalesce, List.mem_singleton] at member
      exact Nat.le_of_eq (congrArg (fun entry => rank entry.lo) member.symm)
  | cons next rest ih =>
      rw [List.pairwise_cons] at ascending
      obtain ⟨first, others⟩ := ascending
      unfold coalesce at member
      split at member
      · exact @ih ⟨current.lo, if current.hi < next.hi then next.hi else current.hi⟩
          (List.pairwise_cons.mpr
          ⟨fun later inRest => first later (List.mem_cons_of_mem _ inRest),
            (List.pairwise_cons.mp others).2⟩) member
      · rcases List.mem_cons.mp member with same | inRest
        · exact Nat.le_of_eq (congrArg (fun entry => rank entry.lo) same.symm)
        · exact Nat.le_trans (first next List.mem_cons_self) (ih others inRest)

theorem canonical_coalesce {current : CharRange} {rest : List CharRange}
    (ascending : (current :: rest).Pairwise fun left right => rank left.lo ≤ rank right.lo)
    (wellFormed : ∀ range ∈ current :: rest, range.WellFormed) :
    Canonical (coalesce current rest) := by
  induction rest generalizing current with
  | nil => simpa [Canonical, coalesce] using wellFormed
  | cons next rest ih =>
      have ascends := List.pairwise_cons.mp ascending
      have here : rank current.lo ≤ rank current.hi := wellFormed current List.mem_cons_self
      have others : ∀ range ∈ next :: rest, range.WellFormed :=
        fun range member => wellFormed range (List.mem_cons_of_mem _ member)
      unfold coalesce
      split
      · refine ih ?_ ?_
        · rw [List.pairwise_cons]
          exact ⟨fun later inRest => ascends.1 later (List.mem_cons_of_mem _ inRest),
            (List.pairwise_cons.mp ascends.2).2⟩
        · intro range member
          rcases List.mem_cons.mp member with rfl | inRest
          · unfold CharRange.WellFormed
            simp only
            split
            case isTrue longer =>
              have longer := lt_iff_rank_lt.mp longer
              omega
            case isFalse => exact here
          · exact others range (List.mem_cons_of_mem _ inRest)
      · rename_i separate
        rw [continues_iff] at separate
        have tail := ih ascends.2 others
        refine ⟨?_, List.pairwise_cons.mpr ⟨?_, tail.2⟩⟩
        · intro range member
          rcases List.mem_cons.mp member with rfl | inRest
          · exact here
          · exact tail.1 range inRest
        · intro range member
          have after := lo_le_of_mem_coalesce ascends.2 member
          unfold CharRange.Apart
          omega

/-- Ranges in the canonical form that holds the same characters. -/
def normalize (ranges : List CharRange) : List CharRange :=
  match ranges.mergeSort (fun left right => rank left.lo ≤ rank right.lo) with
  | [] => []
  | first :: rest => coalesce first rest

theorem ascending_mergeSort (ranges : List CharRange) :
    (ranges.mergeSort fun left right => rank left.lo ≤ rank right.lo).Pairwise
      fun left right => rank left.lo ≤ rank right.lo := by
  have sorted : (ranges.mergeSort fun left right => rank left.lo ≤ rank right.lo).Pairwise
      fun left right => decide (rank left.lo ≤ rank right.lo) = true := by
    refine List.pairwise_mergeSort ?_ ?_ ranges
    · intro left middle right first second
      rw [decide_eq_true_eq] at *
      omega
    · intro left right
      rw [Bool.or_eq_true, decide_eq_true_eq, decide_eq_true_eq]
      omega
  simpa using sorted

theorem canonical_normalize {ranges : List CharRange}
    (wellFormed : ∀ range ∈ ranges, range.WellFormed) : Canonical (normalize ranges) := by
  have ascending := ascending_mergeSort ranges
  have members : ∀ range ∈ ranges.mergeSort (fun left right => rank left.lo ≤ rank right.lo),
      range.WellFormed :=
    fun range member => wellFormed range (List.mem_mergeSort.mp member)
  unfold normalize
  split
  case h_1 => simp [Canonical]
  case h_2 first rest sorted =>
    rw [sorted] at ascending members
    exact canonical_coalesce ascending members

/-- The characters between any of the given pairs of bounds. The bounds of a
pair may come in either order. -/
def ofPairs (pairs : List (Char × Char)) : CharSet where
  ranges := normalize (pairs.map fun (left, right) => .between left right)
  canonical := canonical_normalize fun range member => by
    obtain ⟨⟨left, right⟩, _, rfl⟩ := List.mem_map.mp member
    exact CharRange.wellFormed_between left right

/-- The given characters. -/
def ofChars (chars : List Char) : CharSet := ofPairs (chars.map fun char => (char, char))

def empty : CharSet := ofPairs []

def digits : CharSet := ofPairs [('0', '9')]

/-- Space, tab, carriage return and newline. -/
def blanks : CharSet := ofChars [' ', '\t', '\r', '\n']

def contains (set : CharSet) (char : Char) : Bool :=
  set.ranges.any fun range => range.contains char

def isEmpty (set : CharSet) : Bool := set.ranges.isEmpty

end CharSet

/-- A nonempty stretch of characters, within which complements are taken. -/
structure CharDomain where
  lo : Char
  hi : Char
  ordered : rank lo ≤ rank hi
  deriving DecidableEq

namespace CharDomain

/-- The domain between two bounds in either order. -/
def between (left right : Char) : CharDomain :=
  let range := CharRange.between left right
  ⟨range.lo, range.hi, CharRange.wellFormed_between left right⟩

/-- The first 128 characters. -/
def ascii : CharDomain := ⟨Char.ofNat 0, Char.ofNat 0x7f, by decide⟩

/-- Every character. -/
def unicode : CharDomain := ⟨Char.ofNat 0, last, by decide⟩

def range (domain : CharDomain) : CharRange := ⟨domain.lo, domain.hi⟩

def contains (domain : CharDomain) (char : Char) : Bool := domain.range.contains char

end CharDomain

namespace CharSet

/-- The stretches of a domain, from `cursor` on, that ascending ranges leave
uncovered. Without a cursor the domain is used up. -/
def gapsFrom (domain : CharDomain) : Option Char → List CharRange → List CharRange
  | none, _ => []
  | some cursor, [] => if cursor ≤ domain.hi then [⟨cursor, domain.hi⟩] else []
  | some cursor, range :: rest =>
      if range.hi < cursor then gapsFrom domain (some cursor) rest
      else if domain.hi < range.lo then
        if cursor ≤ domain.hi then [⟨cursor, domain.hi⟩] else []
      else
        let gap :=
          match pred? range.lo with
          | some before =>
              if cursor < range.lo then
                [⟨cursor, if before < domain.hi then before else domain.hi⟩]
              else []
          | none => []
        gap ++ gapsFrom domain range.hi.succ? rest

/-- The stretches of a domain that a set does not cover. -/
def complementIn (set : CharSet) (domain : CharDomain) : List CharRange :=
  gapsFrom domain (some domain.lo) set.ranges

end CharSet

end Predictive
