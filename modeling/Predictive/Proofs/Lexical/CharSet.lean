/-
Complements of character sets. The stretches that a set leaves uncovered in a
domain hold exactly the characters of the domain that are not in the set. They are
in canonical form themselves, so that their complement has the ranges of what the
set has in the domain.
-/

import Predictive.Proofs.Lexical.CanonicalForm

namespace Predictive.CharSet

open Scalar

variable {domain : CharDomain} {char : Char}

theorem holds_single_iff {range : CharRange} :
    Holds [range] char ↔ rank range.lo ≤ rank char ∧ rank char ≤ rank range.hi := by
  rw [holds_cons, CharRange.contains_iff, or_iff_left not_holds_nil]

theorem holds_rest_iff {cursor : Char} :
    Holds (if cursor ≤ domain.hi then [CharRange.mk cursor domain.hi] else []) char ↔
      rank cursor ≤ rank char ∧ rank char ≤ rank domain.hi := by
  split
  case isTrue => exact holds_single_iff
  case isFalse above =>
    rw [le_iff_rank_le] at above
    exact iff_of_false not_holds_nil (by omega)

theorem holds_gap_iff {cursor : Char} {range : CharRange}
    (begins : rank range.lo ≤ rank domain.hi) :
    Holds (match pred? range.lo with
      | some before =>
          if cursor < range.lo then
            [CharRange.mk cursor (if before < domain.hi then before else domain.hi)]
          else []
      | none => []) char ↔ rank cursor ≤ rank char ∧ rank char < rank range.lo := by
  split
  case h_1 before found =>
    rw [pred?_eq_some_iff] at found
    have inDomain : before < domain.hi := lt_iff_rank_lt.mpr (by omega)
    rw [if_pos inDomain]
    split
    case isTrue => rw [holds_single_iff, ← found, Nat.lt_succ_iff]
    case isFalse reached =>
      rw [lt_iff_rank_lt] at reached
      exact iff_of_false not_holds_nil (by omega)
  case h_2 first =>
    rw [pred?_eq_none_iff] at first
    exact iff_of_false not_holds_nil (by omega)

theorem holds_gapsFrom_succ?_iff {hi : Char} {ranges : List CharRange}
    (behind : ∀ cursor, Holds (gapsFrom domain (some cursor) ranges) char ↔
      rank cursor ≤ rank char ∧ rank char ≤ rank domain.hi ∧ ¬Holds ranges char) :
    Holds (gapsFrom domain hi.succ? ranges) char ↔
      rank hi < rank char ∧ rank char ≤ rank domain.hi ∧ ¬Holds ranges char := by
  cases next : hi.succ? with
  | none =>
      have bound := rank_le_last char
      rw [succ?_eq_none_iff.mp next, gapsFrom]
      exact iff_of_false not_holds_nil (by omega)
  | some following =>
      rw [behind following, succ?_eq_some_iff.mp next]
      rfl

/-- From a cursor on, the gaps hold what is in the domain and in none of the ranges. -/
theorem holds_gapsFrom_iff {cursor : Char} {ranges : List CharRange}
    (canonical : Canonical ranges) :
    Holds (gapsFrom domain (some cursor) ranges) char ↔
      rank cursor ≤ rank char ∧ rank char ≤ rank domain.hi ∧ ¬Holds ranges char := by
  induction ranges generalizing cursor with
  | nil =>
      rw [gapsFrom, holds_rest_iff]
      exact and_congr_right fun _ => (and_iff_left not_holds_nil).symm
  | cons range rest ih =>
      have ordered := canonical.lo_le_hi
      have behind := fun cursor => @ih cursor canonical.tail
      have free : rank char ≤ rank range.hi → ¬Holds rest char := by
        intro low held
        have beyond := canonical.lt_of_holds_tail held
        omega
      rw [gapsFrom, holds_cons, CharRange.contains_iff, not_or]
      split
      case isTrue passed =>
        rw [lt_iff_rank_lt] at passed
        rw [behind cursor]
        constructor
        · intro ⟨low, high, others⟩
          exact ⟨low, high, by omega, others⟩
        · intro ⟨low, high, _, others⟩
          exact ⟨low, high, others⟩
      case isFalse ahead =>
        rw [lt_iff_rank_lt] at ahead
        split
        case isTrue beyond =>
          rw [lt_iff_rank_lt] at beyond
          rw [holds_rest_iff]
          constructor
          · intro ⟨low, high⟩
            exact ⟨low, high, by omega, free (by omega)⟩
          · intro ⟨low, high, _⟩
            exact ⟨low, high⟩
        case isFalse within =>
          rw [lt_iff_rank_lt] at within
          rw [holds_append]
          refine (or_congr (holds_gap_iff (Nat.le_of_not_lt within))
            (holds_gapsFrom_succ?_iff behind)).trans ?_
          constructor
          · intro split
            rcases split with short | far
            · exact ⟨short.1, by omega, by omega, free (by omega)⟩
            · exact ⟨by omega, far.2.1, by omega, far.2.2⟩
          · intro ⟨low, high, outside, others⟩
            by_cases short : rank char < rank range.lo
            · exact Or.inl ⟨low, short⟩
            · exact Or.inr ⟨by omega, high, others⟩

theorem holds_complementIn_iff (set : CharSet) :
    Holds (set.complementIn domain) char ↔
      domain.contains char = true ∧ set.contains char = false := by
  have bounds : domain.contains char = true ↔
      rank domain.lo ≤ rank char ∧ rank char ≤ rank domain.hi := CharRange.contains_iff
  rw [complementIn, holds_gapsFrom_iff set.canonical, ← contains_iff_holds, Bool.not_eq_true,
    bounds, and_assoc]

/-! ### The form of a complement -/

theorem canonical_nil : Canonical [] := ⟨nofun, .nil⟩

theorem canonical_cons {first : CharRange} {rest : List CharRange}
    (wellFormed : first.WellFormed) (apart : ∀ range ∈ rest, first.Apart range)
    (canonical : Canonical rest) : Canonical (first :: rest) :=
  ⟨List.forall_mem_cons.mpr ⟨wellFormed, canonical.1⟩,
    List.pairwise_cons.mpr ⟨apart, canonical.2⟩⟩

theorem canonical_rest (cursor : Char) :
    Canonical (if cursor ≤ domain.hi then [CharRange.mk cursor domain.hi] else []) := by
  split
  case isTrue within => exact canonical_cons (le_iff_rank_le.mp within) nofun canonical_nil
  case isFalse => exact canonical_nil

theorem lt_lo_of_mem_gapsFrom_succ? {hi : Char} {ranges : List CharRange} {gap : CharRange}
    (canonical : Canonical ranges) (member : gap ∈ gapsFrom domain hi.succ? ranges)
    (wellFormed : gap.WellFormed) : rank hi < rank gap.lo := by
  have inside : gap.contains gap.lo = true := by
    rw [CharRange.contains_iff]
    exact ⟨Nat.le_refl _, wellFormed⟩
  have held := (holds_gapsFrom_succ?_iff fun cursor => holds_gapsFrom_iff canonical).mp
    ⟨gap, member, inside⟩
  exact held.1

theorem canonical_gapsFrom {ranges : List CharRange} (canonical : Canonical ranges)
    (cursor : Option Char) : Canonical (gapsFrom domain cursor ranges) := by
  induction ranges generalizing cursor with
  | nil =>
      cases cursor with
      | none => exact canonical_nil
      | some cursor => exact canonical_rest cursor
  | cons range rest ih =>
      cases cursor with
      | none => exact canonical_nil
      | some cursor =>
          have ordered := canonical.lo_le_hi
          have behind := ih canonical.tail range.hi.succ?
          simp only [gapsFrom]
          split
          case isTrue => exact ih canonical.tail (some cursor)
          case isFalse =>
            split
            case isTrue => exact canonical_rest cursor
            case isFalse within =>
              rw [lt_iff_rank_lt] at within
              split
              case h_2 => exact behind
              case h_1 before found =>
                rw [pred?_eq_some_iff] at found
                split
                case isFalse => exact behind
                case isTrue ahead =>
                  rw [lt_iff_rank_lt] at ahead
                  have inDomain : before < domain.hi := lt_iff_rank_lt.mpr (by omega)
                  rw [if_pos inDomain]
                  apply canonical_cons _ _ behind
                  · change rank cursor ≤ rank before
                    omega
                  · intro gap member
                    have passed := lt_lo_of_mem_gapsFrom_succ? canonical.tail member
                      (behind.1 gap member)
                    change rank before + 1 < rank gap.lo
                    omega

theorem canonical_complementIn (set : CharSet) (domain : CharDomain) :
    Canonical (set.complementIn domain) :=
  canonical_gapsFrom set.canonical (some domain.lo)

/-! ### Complements of complements -/

def ofRanges (ranges : List CharRange) : CharSet :=
  ofPairs (ranges.map fun range => (range.lo, range.hi))

/-- Every character, in ascending order. -/
def everyChar : List Char := (List.finRange Char.numCodePoints).map Char.ofOrdinal

def within (set : CharSet) (domain : CharDomain) : CharSet :=
  ofChars (everyChar.filter fun char => set.contains char && domain.contains char)

theorem contains_ofRanges_iff {ranges : List CharRange}
    (wellFormed : ∀ range ∈ ranges, range.WellFormed) :
    (ofRanges ranges).contains char = true ↔ Holds ranges char := by
  rw [ofRanges, contains_ofPairs_iff]
  simp only [Covers, List.mem_map, exists_exists_and_eq_and, Holds, CharRange.contains_iff,
    le_iff_rank_le]
  refine exists_congr fun range => and_congr_right fun member => ?_
  have ordered : rank range.lo ≤ rank range.hi := wellFormed range member
  omega

theorem contains_within_iff {set : CharSet} :
    (set.within domain).contains char = true ↔
      set.contains char = true ∧ domain.contains char = true := by
  have listed : char ∈ everyChar :=
    List.mem_map.mpr ⟨char.ordinal, List.mem_finRange _, Char.ofOrdinal_ordinal⟩
  rw [within, contains_ofChars_iff, List.mem_filter, Bool.and_eq_true, and_iff_right listed]

/-- The complement of a set in a domain is made of ascending ranges with a character
between any two that is in none, and holds what is in the domain and not in the set.
Taking the complement of that again gives the ranges of what the set has in the domain. -/
theorem complementIn_exact (set : CharSet) (domain : CharDomain) :
    Separated (set.complementIn domain) ∧
      (∀ char, Holds (set.complementIn domain) char ↔
        domain.contains char = true ∧ set.contains char = false) ∧
      (ofRanges (set.complementIn domain)).complementIn domain = (set.within domain).ranges := by
  have canonical := set.canonical_complementIn domain
  refine ⟨separated_of_canonical canonical, fun char => set.holds_complementIn_iff, ?_⟩
  apply (canonical_complementIn _ domain).eq_of_holds (set.within domain).canonical
  intro char
  have outside : (ofRanges (set.complementIn domain)).contains char = false ↔
      ¬(domain.contains char = true ∧ set.contains char = false) := by
    rw [← set.holds_complementIn_iff, ← contains_ofRanges_iff canonical.1, Bool.not_eq_true]
  rw [holds_complementIn_iff, outside, ← contains_iff_holds, contains_within_iff]
  cases domain.contains char <;> cases set.contains char <;> simp

/-- A range before the domain, one within it, and one across its end. -/
example : gapsFrom (.between 'a' 'z') (some 'a') [⟨'!', '!'⟩, ⟨'c', 'd'⟩, ⟨'x', '~'⟩] =
    [⟨'a', 'b'⟩, ⟨'e', 'w'⟩] := by decide

end Predictive.CharSet
