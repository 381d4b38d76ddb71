/-
Closures and runs of sets of states. The closure of some seeds lists exactly the
states that epsilon edges reach from them, each of them once and in ascending order,
and a run of closed sets over a text ends in exactly the states at the ends of paths
that read the text.
-/

import Mathlib.Data.List.Permutation
import Mathlib.Data.List.Sort
import Predictive.Lexical.Path

namespace Predictive.Nfa

variable {nfa : Nfa}

theorem stateAt_of_size_le {id : Nat} (outside : nfa.states.size ≤ id) :
    nfa.stateAt id = .blank := by
  rw [stateAt, Array.getD_eq_getD_getElem?, Array.getElem?_eq_none outside, Option.getD_none]

theorem lt_size_of_mem_epsilonsOf {source target : Nat} (edge : target ∈ nfa.epsilonsOf source) :
    source < nfa.states.size := by
  by_cases inRange : source < nfa.states.size
  · exact inRange
  · rw [epsilonsOf, stateAt_of_size_le (Nat.le_of_not_lt inRange)] at edge
    cases edge

theorem lt_size_of_mem_arcsOf {source : Nat} {arc : Arc} (edge : arc ∈ nfa.arcsOf source) :
    source < nfa.states.size := by
  by_cases inRange : source < nfa.states.size
  · exact inRange
  · rw [arcsOf, stateAt_of_size_le (Nat.le_of_not_lt inRange)] at edge
    cases edge

theorem lt_size_of_tagOf {id : Nat} {tag : AcceptTag} (tagged : nfa.tagOf id = some tag) :
    id < nfa.states.size := by
  by_cases inRange : id < nfa.states.size
  · exact inRange
  · rw [tagOf, stateAt_of_size_le (Nat.le_of_not_lt inRange)] at tagged
    cases tagged

theorem EpsilonReaches.lt_size {first last : Nat} (reaches : nfa.EpsilonReaches first last)
    (inRange : last < nfa.states.size) : first < nfa.states.size := by
  cases reaches with
  | refl => exact inRange
  | step edge others => exact lt_size_of_mem_epsilonsOf edge

/-! ### The stack -/

theorem getElem?_pushNew (marks : Array Bool) (stack ids : List Nat) (other : Nat) :
    (pushNew marks stack ids).1[other]? =
      if other ∈ ids ∧ marks[other]? = some false then some true else marks[other]? := by
  fun_induction pushNew marks stack ids with
  | case1 marks stack => simp only [List.not_mem_nil, false_and, if_false]
  | case2 marks stack id rest unmarked ih =>
      have inRange := (Array.getElem?_eq_some_iff.mp unmarked).1
      rw [ih, Array.getElem?_setIfInBounds]
      by_cases same : id = other
      · subst same
        simp only [if_true, inRange, unmarked, List.mem_cons_self, true_and, ite_self]
      · simp only [if_neg same, List.mem_cons, Ne.symm same, false_or]
  | case3 marks stack id rest known ih =>
      rw [ih]
      by_cases same : other = id
      · subst same
        simp only [known, and_false, if_false]
      · simp only [List.mem_cons, same, false_or]

theorem mem_pushNew_iff {marks : Array Bool} {stack ids : List Nat} {other : Nat} :
    other ∈ (pushNew marks stack ids).2 ↔
      other ∈ stack ∨ other ∈ ids ∧ marks[other]? = some false := by
  fun_induction pushNew marks stack ids with
  | case1 marks stack => simp only [List.not_mem_nil, false_and, or_false]
  | case2 marks stack id rest unmarked ih =>
      rw [ih, Array.getElem?_setIfInBounds]
      by_cases same : id = other
      · subst same
        simp only [List.mem_cons_self, true_or, true_and, unmarked, or_true]
      · simp only [if_neg same, List.mem_cons, Ne.symm same, false_or]
  | case3 marks stack id rest known ih =>
      rw [ih]
      by_cases same : other = id
      · subst same
        simp only [known, and_false]
      · simp only [List.mem_cons, same, false_or]

theorem marked_pushNew {marks : Array Bool} {other : Nat} (marked : marks[other]? = some true)
    (stack ids : List Nat) : (pushNew marks stack ids).1[other]? = some true := by
  rw [getElem?_pushNew, marked, ite_self]

theorem unmarked_of_pushNew {marks : Array Bool} {stack ids : List Nat} {other : Nat}
    (unmarked : (pushNew marks stack ids).1[other]? = some false) :
    marks[other]? = some false := by
  rw [getElem?_pushNew] at unmarked
  by_cases isNew : other ∈ ids ∧ marks[other]? = some false
  · exact isNew.2
  · rwa [if_neg isNew] at unmarked

theorem mem_pushNew_or_unmarked {marks : Array Bool} {other : Nat}
    (unmarked : marks[other]? = some false) (stack ids : List Nat) :
    other ∈ (pushNew marks stack ids).2 ∨ (pushNew marks stack ids).1[other]? = some false := by
  rw [mem_pushNew_iff, getElem?_pushNew]
  by_cases member : other ∈ ids
  · exact Or.inl (Or.inr ⟨member, unmarked⟩)
  · rw [if_neg fun isNew => member isNew.1]
    exact Or.inr unmarked

structure Stacked (marks : Array Bool) (stack : List Nat) : Prop where
  distinct : stack.Nodup
  marked : ∀ id ∈ stack, marks[id]? = some true

theorem Stacked.tail {marks : Array Bool} {id : Nat} {rest : List Nat}
    (stacked : Stacked marks (id :: rest)) : Stacked marks rest :=
  ⟨(List.nodup_cons.mp stacked.distinct).2,
    fun other member => stacked.marked other (List.mem_cons_of_mem _ member)⟩

theorem Stacked.pushNew {marks : Array Bool} {stack : List Nat} (stacked : Stacked marks stack)
    (ids : List Nat) : Stacked (pushNew marks stack ids).1 (pushNew marks stack ids).2 := by
  fun_induction Nfa.pushNew marks stack ids with
  | case1 marks stack => exact stacked
  | case2 marks stack id rest unmarked ih =>
      have inRange := (Array.getElem?_eq_some_iff.mp unmarked).1
      apply ih
      constructor
      · refine List.nodup_cons.mpr ⟨?_, stacked.distinct⟩
        intro member
        rw [stacked.marked id member] at unmarked
        cases unmarked
      · intro other member
        rw [Array.getElem?_setIfInBounds]
        by_cases same : id = other
        · rw [if_pos same, if_pos inRange]
        · rw [if_neg same]
          exact stacked.marked other ((List.mem_cons.mp member).resolve_left (Ne.symm same))
  | case3 marks stack id rest known ih => exact ih stacked

/-! ### The states that are collected -/

theorem mem_collect_of_mem_stack {marks : Array Bool} {stack : List Nat} {id : Nat}
    (member : id ∈ stack) : id ∈ nfa.collect marks stack := by
  fun_induction collect nfa marks stack with
  | case1 marks => exact member
  | case2 marks first rest pushed ih =>
      rcases List.mem_cons.mp member with same | inRest
      · exact List.mem_cons.mpr (Or.inl same)
      · exact List.mem_cons_of_mem _ (ih (mem_pushNew_iff.mpr (Or.inl inRest)))

theorem reached_of_mem_collect {marks : Array Bool} {stack : List Nat} {id : Nat}
    (member : id ∈ nfa.collect marks stack) : ∃ seed ∈ stack, nfa.EpsilonReaches seed id := by
  fun_induction collect nfa marks stack with
  | case1 marks => cases member
  | case2 marks first rest pushed ih =>
      rcases List.mem_cons.mp member with rfl | later
      · exact ⟨id, List.mem_cons_self, .refl id⟩
      · obtain ⟨seed, isPushed, reaches⟩ := ih later
        rcases mem_pushNew_iff.mp isPushed with inRest | ⟨edge, -⟩
        · exact ⟨seed, List.mem_cons_of_mem _ inRest, reaches⟩
        · exact ⟨first, List.mem_cons_self, .step edge reaches⟩

theorem stacked_or_unmarked_of_mem_collect {marks : Array Bool} {stack : List Nat} {id : Nat}
    (member : id ∈ nfa.collect marks stack) : id ∈ stack ∨ marks[id]? = some false := by
  fun_induction collect nfa marks stack with
  | case1 marks => cases member
  | case2 marks first rest pushed ih =>
      rcases List.mem_cons.mp member with rfl | later
      · exact Or.inl List.mem_cons_self
      · rcases ih later with isPushed | unmarked
        · rcases mem_pushNew_iff.mp isPushed with inRest | ⟨-, unmarked⟩
          · exact Or.inl (List.mem_cons_of_mem _ inRest)
          · exact Or.inr unmarked
        · exact Or.inr (unmarked_of_pushNew unmarked)

theorem nodup_collect {marks : Array Bool} {stack : List Nat} (stacked : Stacked marks stack) :
    (nfa.collect marks stack).Nodup := by
  fun_induction collect nfa marks stack with
  | case1 marks => exact List.nodup_nil
  | case2 marks first rest pushed ih =>
      refine List.nodup_cons.mpr ⟨?_, ih (stacked.tail.pushNew _)⟩
      have marked := stacked.marked first List.mem_cons_self
      intro again
      rcases stacked_or_unmarked_of_mem_collect again with isPushed | unmarked
      · rcases mem_pushNew_iff.mp isPushed with inRest | ⟨-, unmarked⟩
        · exact (List.nodup_cons.mp stacked.distinct).1 inRest
        · rw [marked] at unmarked
          cases unmarked
      · rw [marked_pushNew marked] at unmarked
        cases unmarked

theorem collect_closing {marks : Array Bool} {stack : List Nat} {id target : Nat}
    (member : id ∈ nfa.collect marks stack) (edge : target ∈ nfa.epsilonsOf id)
    (unmarked : marks[target]? = some false) : target ∈ nfa.collect marks stack := by
  fun_induction collect nfa marks stack with
  | case1 marks => cases member
  | case2 marks first rest pushed ih =>
      apply List.mem_cons_of_mem
      rcases List.mem_cons.mp member with rfl | later
      · exact mem_collect_of_mem_stack (mem_pushNew_iff.mpr (Or.inr ⟨edge, unmarked⟩))
      · rcases mem_pushNew_or_unmarked unmarked rest (nfa.epsilonsOf first) with
          isPushed | still
        · exact mem_collect_of_mem_stack isPushed
        · exact ih later still

/-! ### Closures -/

theorem mem_closure_iff {seeds : List Nat} {id : Nat} :
    id ∈ nfa.closure seeds ↔
      id < nfa.states.size ∧ ∃ seed ∈ seeds, nfa.EpsilonReaches seed id := by
  have unmarked_iff : ∀ {id : Nat},
      (Array.replicate nfa.states.size false)[id]? = some false ↔ id < nfa.states.size := by
    intro id
    rw [Array.getElem?_replicate]
    by_cases inRange : id < nfa.states.size
    · exact iff_of_true (if_pos inRange) inRange
    · rw [if_neg inRange]
      exact iff_of_false nofun inRange
  rw [closure, List.mem_mergeSort]
  constructor
  · intro collected
    constructor
    · rcases stacked_or_unmarked_of_mem_collect collected with isPushed | unmarked
      · rcases mem_pushNew_iff.mp isPushed with impossible | ⟨-, unmarked⟩
        · cases impossible
        · exact unmarked_iff.mp unmarked
      · exact unmarked_iff.mp (unmarked_of_pushNew unmarked)
    · obtain ⟨seed, isPushed, reaches⟩ := reached_of_mem_collect collected
      rcases mem_pushNew_iff.mp isPushed with impossible | ⟨member, -⟩
      · cases impossible
      · exact ⟨seed, member, reaches⟩
  · rintro ⟨inRange, seed, member, reaches⟩
    have collected : seed ∈ nfa.collect
        (pushNew (Array.replicate nfa.states.size false) [] seeds).1
        (pushNew (Array.replicate nfa.states.size false) [] seeds).2 :=
      mem_collect_of_mem_stack (mem_pushNew_iff.mpr
        (Or.inr ⟨member, unmarked_iff.mpr (reaches.lt_size inRange)⟩))
    clear member
    induction reaches with
    | refl => exact collected
    | step edge others ih =>
        apply ih inRange
        rcases mem_pushNew_or_unmarked (unmarked_iff.mpr (others.lt_size inRange)) [] seeds with
          isPushed | unmarked
        · exact mem_collect_of_mem_stack isPushed
        · exact collect_closing collected edge unmarked

theorem ascending_closure (nfa : Nfa) (seeds : List Nat) :
    (nfa.closure seeds).Pairwise (· < ·) := by
  have distinct : (nfa.closure seeds).Nodup := by
    have empty : Stacked (Array.replicate nfa.states.size false) [] :=
      ⟨List.nodup_nil, fun _ member => absurd member List.not_mem_nil⟩
    exact (List.mergeSort_perm _ _).nodup_iff.mpr (nodup_collect (empty.pushNew seeds))
  have sorted : (nfa.closure seeds).Pairwise (· ≤ ·) := List.pairwise_mergeSort' (· ≤ ·) _
  exact sorted.imp₂ (fun _ _ atMost differ => Nat.lt_of_le_of_ne atMost differ) distinct

theorem closure_sublist (nfa : Nfa) (seeds : List Nat) :
    (nfa.closure seeds).Sublist (List.range nfa.states.size) := by
  have ascending := nfa.ascending_closure seeds
  apply List.sublist_of_subperm_of_pairwise _ ascending List.pairwise_lt_range
  apply List.subperm_of_subset ascending.nodup
  intro id member
  exact List.mem_range.mpr (mem_closure_iff.mp member).1

/-! ### Runs of closed sets -/

namespace Path

theorem trans {first second third : Nat} {left right : List Char}
    (start : nfa.Path first left second) (rest : nfa.Path second right third) :
    nfa.Path first (left ++ right) third := by
  induction start with
  | refl => exact rest
  | epsilon edge _ ih => exact .epsilon edge (ih rest)
  | arc edge inside _ ih => exact .arc edge inside (ih rest)

theorem nil_iff {first last : Nat} :
    nfa.Path first [] last ↔ nfa.EpsilonReaches first last := by
  constructor
  · intro path
    generalize empty : ([] : List Char) = text at path
    induction path with
    | refl id => exact .refl id
    | epsilon edge _ ih => exact .step edge (ih empty)
    | arc => cases empty
  · intro reaches
    induction reaches with
    | refl id => exact .refl id
    | step edge _ ih => exact .epsilon edge ih

theorem cons_iff {first last : Nat} {char : Char} {text : List Char} :
    nfa.Path first (char :: text) last ↔
      ∃ source arc, nfa.EpsilonReaches first source ∧ arc ∈ nfa.arcsOf source ∧
        arc.range.contains char = true ∧ nfa.Path arc.target text last := by
  constructor
  · intro path
    generalize whole : char :: text = read at path
    induction path with
    | refl => cases whole
    | epsilon edge _ ih =>
        obtain ⟨source, arc, reaches, leaves, inside, others⟩ := ih whole
        exact ⟨source, arc, .step edge reaches, leaves, inside, others⟩
    | @arc first last arc char text edge inside others =>
        cases whole
        exact ⟨first, arc, .refl first, edge, inside, others⟩
  · rintro ⟨source, arc, reaches, leaves, inside, others⟩
    exact (nil_iff.mpr reaches).trans (.arc leaves inside others)

end Path

/-- The states of the automaton that paths over a text lead to from a set. -/
def Ends (nfa : Nfa) (set : List Nat) (text : List Char) (id : Nat) : Prop :=
  id < nfa.states.size ∧ ∃ source ∈ set, nfa.Path source text id

/-- The closed set after a text; a run that has no state left is given up. -/
def after? (nfa : Nfa) (set : List Nat) : List Char → Option (List Nat)
  | [] => some set
  | char :: rest =>
      let moved := nfa.move set char
      if moved.isEmpty then none else nfa.after? (nfa.closure moved) rest

theorem mem_move_iff {set : List Nat} {char : Char} {target : Nat} :
    target ∈ nfa.move set char ↔
      ∃ source ∈ set, ∃ arc ∈ nfa.arcsOf source,
        arc.range.contains char = true ∧ arc.target = target := by
  simp only [move, List.mem_map, List.mem_filter, List.mem_flatMap]
  constructor
  · rintro ⟨arc, ⟨⟨source, member, edge⟩, inside⟩, rfl⟩
    exact ⟨source, member, arc, edge, inside, rfl⟩
  · rintro ⟨source, member, arc, edge, inside, rfl⟩
    exact ⟨arc, ⟨⟨source, member, edge⟩, inside⟩, rfl⟩

theorem ends_cons_iff {seeds : List Nat} {char : Char} {text : List Char} {id : Nat} :
    nfa.Ends seeds (char :: text) id ↔ nfa.Ends (nfa.move (nfa.closure seeds) char) text id := by
  apply and_congr_right
  intro inRange
  constructor
  · rintro ⟨seed, member, path⟩
    obtain ⟨source, arc, reaches, edge, inside, others⟩ := Path.cons_iff.mp path
    have inClosure : source ∈ nfa.closure seeds :=
      mem_closure_iff.mpr ⟨lt_size_of_mem_arcsOf edge, seed, member, reaches⟩
    exact ⟨arc.target, mem_move_iff.mpr ⟨source, inClosure, arc, edge, inside, rfl⟩, others⟩
  · rintro ⟨target, moved, others⟩
    obtain ⟨source, inClosure, arc, edge, inside, rfl⟩ := mem_move_iff.mp moved
    obtain ⟨-, seed, member, reaches⟩ := mem_closure_iff.mp inClosure
    exact ⟨seed, member, Path.cons_iff.mpr ⟨source, arc, reaches, edge, inside, others⟩⟩

/-- A run from a closure ends in the states that paths from the seeds lead to; when
it is given up there are none. -/
theorem after?_closure (nfa : Nfa) (seeds : List Nat) (text : List Char) :
    match nfa.after? (nfa.closure seeds) text with
    | some set => ∀ id, id ∈ set ↔ nfa.Ends seeds text id
    | none => ∀ id, ¬nfa.Ends seeds text id := by
  induction text generalizing seeds with
  | nil =>
      intro id
      simp only [mem_closure_iff, Ends, Path.nil_iff]
  | cons char rest ih =>
      simp only [after?, ends_cons_iff]
      by_cases none : (nfa.move (nfa.closure seeds) char).isEmpty = true
      · rw [if_pos none]
        rintro id ⟨-, source, member, -⟩
        rw [List.isEmpty_iff.mp none] at member
        cases member
      · rw [if_neg none]
        exact ih (nfa.move (nfa.closure seeds) char)

theorem mem_tags_iff {set : List Nat} {text : List Char}
    (ends : ∀ id, id ∈ set ↔ nfa.Ends [nfa.start] text id) {tag : AcceptTag} :
    tag ∈ set.filterMap nfa.tagOf ↔ nfa.Tagged text tag := by
  rw [List.mem_filterMap]
  constructor
  · rintro ⟨id, member, tagged⟩
    obtain ⟨-, source, isStart, path⟩ := (ends id).mp member
    rw [List.mem_singleton.mp isStart] at path
    exact ⟨id, path, tagged⟩
  · rintro ⟨id, path, tagged⟩
    exact ⟨id, (ends id).mpr ⟨lt_size_of_tagOf tagged, _, List.mem_singleton_self _, path⟩, tagged⟩

end Predictive.Nfa
