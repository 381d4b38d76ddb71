/-
Looking up a character among arcs. Halving finds the border between the items
that lie before a place and the others, so among arcs in order the lookup finds
the one that holds the character; and an arc that is added at the end, joined to
the last one or not, keeps the order and leads where it should.
-/

import Predictive.Lexical.Dfa

namespace Predictive

open Scalar

namespace Search

variable {α : Type} {items : Array α} {before : α → Bool}

def Border (items : Array α) (before : α → Bool) (point : Nat) : Prop :=
  ∀ index item, items[index]? = some item → before item = decide (index < point)

/-- Halving keeps the border in sight. -/
theorem narrow_near {base size point : Nat} (inside : base + size ≤ items.size)
    (border : Border items before point) (some : 0 < size) (low : base ≤ point)
    (high : point ≤ base + size) :
    narrow items before base size inside < items.size ∧
      narrow items before base size inside ≤ point ∧
        point ≤ narrow items before base size inside + 1 := by
  fun_induction narrow items before base size inside with
  | case1 base size inside large half bound isBefore ih =>
      have passed : base + half < point := by
        rwa [border _ _ (Array.getElem?_eq_getElem bound), decide_eq_true_eq] at isBefore
      exact ih (by omega) (Nat.le_of_lt passed) (by omega)
  | case2 base size inside large half bound isBehind ih =>
      have reached : ¬base + half < point := by
        rwa [border _ _ (Array.getElem?_eq_getElem bound), decide_eq_true_eq] at isBehind
      exact ih (by omega) low (by omega)
  | case3 base size inside small => exact ⟨by omega, low, by omega⟩

theorem partitionPoint_eq {point : Nat} (within : point ≤ items.size)
    (border : Border items before point) : partitionPoint items before = point := by
  by_cases none : items.size = 0
  · have empty : items = #[] := Array.eq_empty_of_size_eq_zero none
    subst empty
    exact (Nat.le_zero.mp within).symm
  · have whole : 0 + items.size ≤ items.size := by omega
    obtain ⟨inRange, low, high⟩ := narrow_near whole border (by omega) (Nat.zero_le _) (by omega)
    have found := Array.getElem?_eq_getElem inRange
    simp only [partitionPoint, found, border _ _ found, decide_eq_true_eq]
    split <;> omega

theorem partitionPoint_of_append {front back : List α} (whole : items.toList = front ++ back)
    (isBefore : ∀ item ∈ front, before item = true)
    (isBehind : ∀ item ∈ back, before item = false) :
    partitionPoint items before = front.length := by
  have size : items.size = front.length + back.length := by
    rw [← Array.length_toList, whole, List.length_append]
  apply partitionPoint_eq (by omega)
  intro index item found
  rw [← Array.getElem?_toList, whole, List.getElem?_append] at found
  by_cases inFront : index < front.length
  · rw [if_pos inFront] at found
    rw [isBefore _ (List.mem_of_getElem? found), decide_eq_true inFront]
  · rw [if_neg inFront] at found
    rw [isBehind _ (List.mem_of_getElem? found), decide_eq_false inFront]

end Search

namespace DfaState

structure Ordered (arcs : List Arc) : Prop where
  wellFormed : ∀ arc ∈ arcs, arc.range.WellFormed
  ascending : arcs.Pairwise fun left right => rank left.range.hi < rank right.range.lo

def Leads (arcs : List Arc) (char : Char) (target : Nat) : Prop :=
  ∃ arc ∈ arcs, arc.range.contains char = true ∧ arc.target = target

theorem Ordered.exists_split {arcs : List Arc} (ordered : Ordered arcs) (char : Char) :
    ∃ front back, arcs = front ++ back ∧ (∀ arc ∈ front, rank arc.range.hi < rank char) ∧
      ∀ arc ∈ back, rank char ≤ rank arc.range.hi := by
  induction arcs with
  | nil => exact ⟨[], [], rfl, nofun, nofun⟩
  | cons first rest ih =>
      obtain ⟨wellFormed, ascending⟩ := ordered
      obtain ⟨-, restFormed⟩ := List.forall_mem_cons.mp wellFormed
      obtain ⟨above, restAscending⟩ := List.pairwise_cons.mp ascending
      by_cases passed : rank first.range.hi < rank char
      · obtain ⟨front, back, rfl, isBefore, isBehind⟩ := ih ⟨restFormed, restAscending⟩
        exact ⟨first :: front, back, rfl, List.forall_mem_cons.mpr ⟨passed, isBefore⟩, isBehind⟩
      · refine ⟨[], first :: rest, rfl, nofun, List.forall_mem_cons.mpr ⟨by omega, ?_⟩⟩
        intro arc member
        have apart := above arc member
        have formed : rank arc.range.lo ≤ rank arc.range.hi := restFormed arc member
        omega

theorem next?_eq_some_iff {state : DfaState} (ordered : Ordered state.arcs.toList) {char : Char}
    {target : Nat} : state.next? char = some target ↔ Leads state.arcs.toList char target := by
  obtain ⟨front, back, whole, isBefore, isBehind⟩ := ordered.exists_split char
  have point : Search.partitionPoint state.arcs (fun arc => decide (arc.range.hi < char)) =
      front.length := by
    apply Search.partitionPoint_of_append whole
    · exact fun arc member => decide_eq_true (lt_iff_rank_lt.mpr (isBefore arc member))
    · exact fun arc member => decide_eq_false fun passed =>
        Nat.not_lt_of_le (isBehind arc member) (lt_iff_rank_lt.mp passed)
  have notInFront : ∀ arc ∈ front, ¬arc.range.contains char = true := by
    intro arc member inside
    have passed := isBefore arc member
    rw [CharRange.contains_iff] at inside
    omega
  have found : state.arcs[front.length]? = back.head? := by
    rw [← Array.getElem?_toList, whole, List.getElem?_append_right (Nat.le_refl _), Nat.sub_self,
      List.head?_eq_getElem?]
  simp only [next?, point, found, Leads, whole, List.mem_append]
  cases back with
  | nil =>
      refine ⟨nofun, ?_⟩
      rintro ⟨arc, inFront | inBack, inside, -⟩
      · exact (notInFront arc inFront inside).elim
      · cases inBack
  | cons first rest =>
      have alone : ∀ arc ∈ rest, ¬arc.range.contains char = true := by
        intro arc member inside
        have ascending := (List.pairwise_append.mp (whole ▸ ordered.ascending)).2.1
        have apart := (List.pairwise_cons.mp ascending).1 arc member
        have reached := isBehind first List.mem_cons_self
        rw [CharRange.contains_iff] at inside
        omega
      change (if first.range.contains char = true then some first.target else none) =
        some target ↔ _
      constructor
      · intro isTarget
        by_cases inside : first.range.contains char = true
        · rw [if_pos inside] at isTarget
          exact ⟨first, Or.inr List.mem_cons_self, inside, Option.some.inj isTarget⟩
        · rw [if_neg inside] at isTarget
          cases isTarget
      · rintro ⟨arc, inFront | inBack, inside, rfl⟩
        · exact (notInFront arc inFront inside).elim
        · rcases List.mem_cons.mp inBack with rfl | inRest
          · exact if_pos inside
          · exact (alone arc inRest inside).elim

theorem ordered_append {arcs : List Arc} {arc : Arc} (ordered : Ordered arcs)
    (wellFormed : arc.range.WellFormed)
    (behind : ∀ other ∈ arcs, rank other.range.hi < rank arc.range.lo) :
    Ordered (arcs ++ [arc]) := by
  refine ⟨?_, List.pairwise_append.mpr ⟨ordered.ascending, List.pairwise_singleton _ _, ?_⟩⟩
  · intro other member
    rcases List.mem_append.mp member with old | new
    · exact ordered.wellFormed other old
    · rwa [List.mem_singleton.mp new]
  · intro other member last isLast
    rw [List.mem_singleton.mp isLast]
    exact behind other member

theorem leads_append {arcs : List Arc} {arc : Arc} {char : Char} {target : Nat} :
    Leads (arcs ++ [arc]) char target ↔
      Leads arcs char target ∨ arc.range.contains char = true ∧ arc.target = target := by
  simp only [Leads, List.mem_append, List.mem_singleton, or_and_right, exists_or, exists_eq_left]

theorem ends_append {arcs : List Arc} {arc : Arc} (wellFormed : arc.range.WellFormed)
    (behind : ∀ other ∈ arcs, rank other.range.hi < rank arc.range.lo) :
    ∀ other ∈ arcs ++ [arc], rank other.range.hi ≤ rank arc.range.hi := by
  intro other member
  rcases List.mem_append.mp member with old | new
  · exact Nat.le_of_lt (Nat.lt_of_lt_of_le (behind other old) wellFormed)
  · obtain rfl := List.mem_singleton.mp new
    exact Nat.le_refl _

theorem pushArc_spec {arcs : Array Arc} (arc : Arc) (ordered : Ordered arcs.toList)
    (wellFormed : arc.range.WellFormed)
    (behind : ∀ other ∈ arcs.toList, rank other.range.hi < rank arc.range.lo) :
    Ordered (pushArc arcs arc).toList ∧
      (∀ other ∈ (pushArc arcs arc).toList, rank other.range.hi ≤ rank arc.range.hi) ∧
      ∀ char target, Leads (pushArc arcs arc).toList char target ↔
        Leads arcs.toList char target ∨ arc.range.contains char = true ∧ arc.target = target := by
  have pushed : Ordered (arcs.push arc).toList ∧
      (∀ other ∈ (arcs.push arc).toList, rank other.range.hi ≤ rank arc.range.hi) ∧
      ∀ char target, Leads (arcs.push arc).toList char target ↔
        Leads arcs.toList char target ∨ arc.range.contains char = true ∧ arc.target = target := by
    rw [Array.toList_push]
    exact ⟨ordered_append ordered wellFormed behind, ends_append wellFormed behind,
      fun char target => leads_append⟩
  unfold pushArc
  split
  case h_2 => exact pushed
  case h_1 last isLast =>
    split
    case isFalse => exact pushed
    case isTrue adjoins =>
      obtain ⟨front, rfl⟩ := Array.back?_eq_some_iff.mp isLast
      obtain ⟨sameTarget, next⟩ := adjoins
      rw [succ?_eq_some_iff] at next
      rw [Array.toList_push] at ordered behind ⊢
      obtain ⟨frontFormed, ascending⟩ := ordered
      obtain ⟨frontAscending, -, apart⟩ := List.pairwise_append.mp ascending
      have lastFormed : rank last.range.lo ≤ rank last.range.hi :=
        frontFormed last (List.mem_append_right _ (List.mem_singleton_self last))
      change rank arc.range.lo ≤ rank arc.range.hi at wellFormed
      have joinedFormed : (CharRange.mk last.range.lo arc.range.hi).WellFormed := by
        change rank last.range.lo ≤ rank arc.range.hi
        omega
      have frontOrdered : Ordered front.toList :=
        ⟨fun other member => frontFormed other (List.mem_append_left _ member), frontAscending⟩
      have frontBehind : ∀ other ∈ front.toList, rank other.range.hi < rank last.range.lo :=
        fun other member => apart other member last (List.mem_singleton_self last)
      rw [Array.pop_push, Array.toList_push]
      refine ⟨ordered_append frontOrdered joinedFormed frontBehind,
        ends_append joinedFormed frontBehind, fun char target => ?_⟩
      rw [leads_append, leads_append, or_assoc, ← sameTarget, ← or_and_right]
      refine or_congr_right (and_congr_left fun _ => ?_)
      rw [CharRange.contains_iff, CharRange.contains_iff, CharRange.contains_iff]
      change rank last.range.lo ≤ rank char ∧ rank char ≤ rank arc.range.hi ↔ _
      omega

end DfaState

end Predictive
