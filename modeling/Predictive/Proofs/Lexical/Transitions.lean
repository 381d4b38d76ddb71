/-
The arcs of a deterministic automaton that is made from another one. They ascend
without overlap, lead to states that exist, and are as few as their targets allow; so
looking up a character by halving finds the arc that holds it whenever one does.
-/

import Mathlib.Tactic
import Predictive.Proofs.Lexical.Subset

namespace Predictive

open Scalar

namespace DfaState

/-- Of two arcs in a row with no character between them the targets differ. -/
def Merged (arcs : List Arc) : Prop :=
  arcs.IsChain fun left right =>
    left.range.hi.succ? = some right.range.lo → left.target ≠ right.target

/-- The arcs that a state has in an automaton of `count` states. -/
structure Tidy (arcs : List Arc) (count : Nat) : Prop where
  wellFormed : ∀ arc ∈ arcs, arc.range.lo ≤ arc.range.hi
  ascending : arcs.Pairwise fun left right => left.range.hi < right.range.lo
  merged : Merged arcs
  targets : ∀ arc ∈ arcs, arc.target < count

theorem Tidy.ordered {arcs : List Arc} {count : Nat} (tidy : Tidy arcs count) : Ordered arcs where
  wellFormed := fun arc member => le_iff_rank_le.mp (tidy.wellFormed arc member)
  ascending := tidy.ascending.imp lt_iff_rank_lt.mp

theorem Tidy.mono {arcs : List Arc} {count more : Nat} (tidy : Tidy arcs count)
    (grows : count ≤ more) : Tidy arcs more where
  wellFormed := tidy.wellFormed
  ascending := tidy.ascending
  merged := tidy.merged
  targets := fun arc member => Nat.lt_of_lt_of_le (tidy.targets arc member) grows

theorem merged_append_single {front : List Arc} {arc : Arc} (merged : Merged front)
    (differs : ∀ last ∈ front.getLast?,
      last.range.hi.succ? = some arc.range.lo → last.target ≠ arc.target) :
    Merged (front ++ [arc]) := by
  rw [Merged, List.isChain_append]
  refine ⟨merged, List.isChain_singleton arc, ?_⟩
  intro last isLast other isArc
  rw [List.head?_cons, Option.mem_some_iff] at isArc
  rw [← isArc]
  exact differs last isLast

/-- An arc that could be joined to the last one is, so arcs stay merged. -/
theorem pushArc_merged {arcs : Array Arc} (merged : Merged arcs.toList) (arc : Arc) :
    Merged (pushArc arcs arc).toList := by
  unfold pushArc
  split
  case h_2 none =>
    rw [Array.back?_eq_none_iff.mp none]
    exact List.isChain_singleton arc
  case h_1 last isLast =>
    obtain ⟨front, rfl⟩ := Array.back?_eq_some_iff.mp isLast
    split
    case isTrue adjoins =>
      rw [Array.toList_push, Merged, List.isChain_append] at merged
      rw [Array.pop_push, Array.toList_push]
      apply merged_append_single merged.1
      intro before isBefore
      have apart := merged.2.2 before isBefore last (List.head?_cons ▸ Option.mem_some_self last)
      rw [adjoins.1] at apart
      exact apart
    case isFalse apart =>
      rw [Array.toList_push]
      apply merged_append_single merged
      intro other isOther adjoins same
      rw [Array.toList_push, List.getLast?_concat, Option.mem_some_iff] at isOther
      subst isOther
      exact apart ⟨same, adjoins⟩

end DfaState

namespace Subset

open DfaState (Merged Tidy)

theorem fill_merged (nfa : Nfa) (sets : Array (List Nat)) (set : List Nat) :
    Merged (fill nfa sets set).2.arcs.toList := by
  apply fill_keeps sets set fun filling => Merged filling.arcs.toList
  · exact List.isChain_nil
  · intro filling stretch id numbered merged
    exact DfaState.pushArc_merged merged _
  · intro filling stretch moves merged
    exact DfaState.pushArc_merged merged _

theorem fill_tidy {nfa : Nfa} {sets : Array (List Nat)} (catalog : Catalog nfa sets)
    (set : List Nat) : Tidy (fill nfa sets set).2.arcs.toList (fill nfa sets set).1.size := by
  have filled := (fill_filled catalog set).1
  refine ⟨fun arc member => le_iff_rank_le.mpr (filled.ordered.wellFormed arc member),
    filled.ordered.ascending.imp lt_iff_rank_lt.mpr,
    fill_merged nfa sets set, ?_⟩
  intro arc member
  have inside : arc.range.contains arc.range.lo = true :=
    CharRange.contains_iff.mpr ⟨Nat.le_refl _, filled.ordered.wellFormed arc member⟩
  obtain ⟨stretch, -, -, -, numbered⟩ := filled.sound _ _ ⟨arc, member, inside, rfl⟩
  exact (Array.getElem?_eq_some_iff.mp numbered).1

theorem explore_tidy (nfa : Nfa) :
    ∀ state ∈ (explore nfa).states, Tidy state.arcs.toList (explore nfa).sets.size := by
  apply explore_keeps fun exploration =>
    ∀ state ∈ exploration.states, Tidy state.arcs.toList exploration.sets.size
  · intro state member
    exact (Array.not_mem_empty state member).elim
  · intro exploration set explored waits tidy state member
    rcases Array.mem_push.mp member with old | new
    · exact (tidy state old).mono (fill_filled explored.catalog set).2.size_le
    · rw [new]
      exact fill_tidy explored.catalog set

end Subset

namespace Dfa

/-- The states of an automaton that is made deterministic have tidy arcs, and looking up
a character finds a target exactly when an arc to that target holds the character. -/
theorem ofNfa_tidy {nfa : Nfa} {state : DfaState} (member : state ∈ (ofNfa nfa).states) :
    DfaState.Tidy state.arcs.toList (ofNfa nfa).states.size ∧
      ∀ char target, state.next? char = some target ↔
        ∃ arc ∈ state.arcs.toList, arc.range.contains char = true ∧ arc.target = target := by
  have tidy := Subset.explore_tidy nfa state member
  rw [← (Subset.explore_spec nfa).2] at tidy
  exact ⟨tidy, fun char target => DfaState.next?_eq_some_iff tidy.ordered⟩

/-- A range across the surrogates, and reversed bounds that cut it there. -/
def cutAcross : Pattern := .alternative [.range '\ud700' '\ue0ff', .range '\ue000' '~']

theorem ofNfa_tidy_cutAcross :
    ∃ state ∈ (ofNfa (.ofToken "cut" cutAcross)).states,
      state.arcs = #[⟨⟨'\ud700', '\ue0ff'⟩, 1⟩] ∧
        DfaState.Tidy state.arcs.toList 2 ∧ state.next? '\ue000' = some 1 := by
  have found : (ofNfa (.ofToken "cut" cutAcross)).states[0]? =
      some ⟨#[⟨⟨'\ud700', '\ue0ff'⟩, 1⟩], none⟩ := by cbv
  have size : (ofNfa (.ofToken "cut" cutAcross)).states.size = 2 := by cbv
  have member := Array.mem_of_getElem? found
  have tidy := ofNfa_tidy member
  refine ⟨_, member, rfl, size ▸ tidy.1, (tidy.2 _ _).mpr ?_⟩
  exact ⟨_, List.mem_singleton_self _, by decide, rfl⟩

end Dfa

end Predictive
