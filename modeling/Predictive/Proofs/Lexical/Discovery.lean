/-
The order of discovery. Each set of states that the start leads to is found once and
filled once, first in first out, and a set is found by a text. Sets are numbered in the
order in which the arcs of the filled states first lead to them.
-/

import Mathlib.Tactic
import Predictive.Proofs.Lexical.Confinement
import Predictive.Proofs.Lexical.Subset

namespace Predictive

namespace Nfa

variable {nfa : Nfa}

structure EpsilonClosed (nfa : Nfa) (set : List Nat) : Prop where
  states : ∀ id ∈ set, id < nfa.states.size
  edges : ∀ id ∈ set, ∀ target ∈ nfa.epsilonsOf id, target ∈ set

theorem after?_concat {set middle : List Nat} {text : List Char} {char : Char}
    (after : nfa.after? set text = some middle) (moves : nfa.move middle char ≠ []) :
    nfa.after? set (text ++ [char]) = some (nfa.closure (nfa.move middle char)) := by
  induction text generalizing set with
  | nil =>
      cases after
      have some : ¬(nfa.move middle char).isEmpty = true := fun empty =>
        moves (List.isEmpty_iff.mp empty)
      simp only [List.nil_append, after?, if_neg some]
  | cons first rest ih =>
      simp only [List.cons_append, after?] at after ⊢
      split at after
      case isTrue => cases after
      case isFalse goesOn =>
        rw [if_neg goesOn]
        exact ih after

theorem Closed.epsilonClosed (closed : nfa.Closed) {text : List Char} {set : List Nat}
    (after : nfa.after? (nfa.closure [nfa.start]) text = some set) : nfa.EpsilonClosed set := by
  have ends := nfa.after?_closure [nfa.start] text
  rw [after] at ends
  constructor
  · intro id member
    exact ((ends id).mp member).1
  · intro id member target edge
    obtain ⟨-, source, isStart, path⟩ := (ends id).mp member
    have further := path.trans (.epsilon edge (.refl target))
    rw [List.append_nil] at further
    exact (ends target).mpr ⟨closed.edges (Or.inl edge), source, isStart, further⟩

end Nfa

/-- The targets of all arcs, read state by state in the order of the numbers. -/
def Dfa.targets (dfa : Dfa) : List Nat :=
  dfa.states.toList.flatMap fun state => state.arcs.toList.map Arc.target

namespace Subset

variable {nfa : Nfa}

/-! ### The worklist -/

namespace Exploration

def waiting (exploration : Exploration) : List (List Nat) :=
  exploration.sets.toList.drop exploration.states.size

def after (nfa : Nfa) (steps : Nat) : Exploration := (step nfa)^[steps] (.initial nfa)

theorem waiting_eq_nil_iff {exploration : Exploration} :
    exploration.waiting = [] ↔ exploration.sets.size ≤ exploration.states.size := by
  rw [waiting, List.drop_eq_nil_iff, Array.length_toList]

theorem step_of_waiting_nil {exploration : Exploration} (idle : exploration.waiting = []) :
    exploration.step nfa = exploration := by
  rw [waiting_eq_nil_iff] at idle
  rw [step, Array.getElem?_eq_none idle]

theorem size_step {exploration : Exploration} (busy : exploration.waiting ≠ []) :
    (exploration.step nfa).states.size = exploration.states.size + 1 := by
  rw [ne_eq, waiting_eq_nil_iff, Nat.not_le] at busy
  rw [step, Array.getElem?_eq_getElem busy]
  exact Array.size_push _

/-- Steps beyond the last set change nothing, so exploring is taking as many steps as
are allowed. -/
theorem run_eq_iterate (fuel : Nat) (exploration : Exploration) :
    exploration.run nfa fuel = (step nfa)^[fuel] exploration := by
  induction fuel generalizing exploration with
  | zero => rfl
  | succ fuel ih =>
      unfold run
      split
      case isTrue => rw [ih, Function.iterate_succ_apply]
      case isFalse done =>
        have idle : exploration.step nfa = exploration :=
          step_of_waiting_nil (waiting_eq_nil_iff.mpr (Nat.le_of_not_lt done))
        rw [Function.iterate_fixed idle]

theorem after_of_waiting_nil {first later : Nat} (idle : (after nfa first).waiting = [])
    (behind : first ≤ later) : after nfa later = after nfa first := by
  have split : later = (later - first) + first := by omega
  rw [after, split, Function.iterate_add_apply]
  exact Function.iterate_fixed (step_of_waiting_nil idle) _

theorem after_succ (nfa : Nfa) (steps : Nat) :
    after nfa (steps + 1) = (after nfa steps).step nfa :=
  Function.iterate_succ_apply' _ _ _

theorem size_after (steps : Nat) (busy : ∀ earlier < steps, (after nfa earlier).waiting ≠ []) :
    (after nfa steps).states.size = steps := by
  induction steps with
  | zero => rfl
  | succ steps ih =>
      have before := ih fun earlier early => busy earlier (Nat.lt_succ_of_lt early)
      rw [after_succ, size_step (busy steps (Nat.lt_succ_self steps)), before]

end Exploration

open Exploration (waiting after)

theorem waiting_explore (nfa : Nfa) : (explore nfa).waiting = [] :=
  Exploration.waiting_eq_nil_iff.mpr (Nat.le_of_eq (explore_spec nfa).2.symm)

theorem exists_drained (nfa : Nfa) :
    ∃ last, (after nfa last).waiting = [] ∧ explore nfa = after nfa last ∧
      ∀ earlier < last, (after nfa earlier).waiting ≠ [] := by
  have whole : explore nfa = after nfa (2 ^ nfa.states.size) := Exploration.run_eq_iterate _ _
  have idle := waiting_explore nfa
  rw [whole] at idle ⊢
  have ends : ∃ steps, (after nfa steps).waiting = [] := ⟨_, idle⟩
  refine ⟨Nat.find ends, Nat.find_spec ends, ?_, fun earlier early => Nat.find_min ends early⟩
  exact Exploration.after_of_waiting_nil (Nat.find_spec ends) (Nat.find_min' ends idle)

theorem waiting_after_iff (nfa : Nfa) (steps : Nat) :
    (after nfa steps).waiting = [] ↔ (explore nfa).states.size ≤ steps := by
  obtain ⟨last, idle, same, busy⟩ := exists_drained nfa
  rw [same, Exploration.size_after last busy]
  constructor
  · intro done
    by_cases early : steps < last
    · exact (busy steps early done).elim
    · omega
  · intro late
    rw [Exploration.after_of_waiting_nil idle late]
    exact idle

/-! ### Filling again -/

theorem Catalog.number_unique {sets : Array (List Nat)} (catalog : Catalog nfa sets)
    {left right : Nat} {set : List Nat} (first : sets[left]? = some set)
    (second : sets[right]? = some set) : left = right := by
  have inRange : left < sets.toList.length := by
    rw [Array.length_toList]
    exact (Array.getElem?_eq_some_iff.mp first).1
  apply (List.getElem?_inj inRange catalog.distinct).mp
  rw [Array.getElem?_toList, Array.getElem?_toList, first, second]

theorem Extends.trans {first second third : Array (List Nat)} (start : Extends first second)
    (rest : Extends second third) : Extends first third :=
  fun id set known => rest id set (start id set known)

theorem fillStretch_extends (arcs : List Arc) (filling : Filling) (stretch : CharRange) :
    Extends filling.sets (fillStretch nfa arcs filling stretch).sets := by
  rcases fillStretch_cases arcs filling stretch with ⟨none, same⟩ | ⟨some, -⟩
  · rw [same]
    exact fun _ _ known => known
  · obtain ⟨id, sets, same, -, extended, -⟩ := fillStretch_arc filling some
    rw [same]
    exact extended

theorem foldl_extends {arcs : List Arc} (todo : List CharRange) (filling : Filling) :
    Extends filling.sets (todo.foldl (fillStretch nfa arcs) filling).sets := by
  induction todo generalizing filling with
  | nil => exact fun _ _ known => known
  | cons stretch rest ih => exact (fillStretch_extends arcs filling stretch).trans (ih _)

theorem fillStretch_again {arcs : List Arc} {whole : Array (List Nat)} (catalog : Catalog nfa whole)
    {filling : Filling} {stretch : CharRange}
    (extended : Extends (fillStretch nfa arcs filling stretch).sets whole) :
    fillStretch nfa arcs ⟨whole, filling.arcs⟩ stretch =
      ⟨whole, (fillStretch nfa arcs filling stretch).arcs⟩ := by
  by_cases idle : targetsOn arcs stretch.lo = []
  · have unchanged : ∀ other, fillStretch nfa arcs other stretch = other :=
      fun other => if_pos (List.isEmpty_iff.mpr idle)
    rw [unchanged, unchanged]
  · obtain ⟨id, sets, same, numbered, -⟩ := fillStretch_arc filling idle
    rw [same] at extended ⊢
    have known := extended id _ numbered
    rcases fillStretch_cases arcs ⟨whole, filling.arcs⟩ stretch with
      ⟨none, -⟩ | ⟨-, ⟨other, found, again⟩ | ⟨new, -⟩⟩
    · exact (idle none).elim
    · rw [again, catalog.number_unique found known]
    · exact (new (Array.mem_of_getElem? known)).elim

theorem foldl_again {arcs : List Arc} {whole : Array (List Nat)} (catalog : Catalog nfa whole)
    (todo : List CharRange) (filling : Filling)
    (extended : Extends (todo.foldl (fillStretch nfa arcs) filling).sets whole) :
    todo.foldl (fillStretch nfa arcs) ⟨whole, filling.arcs⟩ =
      ⟨whole, (todo.foldl (fillStretch nfa arcs) filling).arcs⟩ := by
  induction todo generalizing filling with
  | nil => rfl
  | cons stretch rest ih =>
      rw [List.foldl_cons] at extended ⊢
      rw [fillStretch_again catalog ((foldl_extends rest _).trans extended)]
      exact ih _ extended

theorem fill_again {sets whole : Array (List Nat)} (catalog : Catalog nfa whole) (set : List Nat)
    (extended : Extends (fill nfa sets set).1 whole) :
    fill nfa whole set = (whole, (fill nfa sets set).2) := by
  have again := foldl_again catalog (stretches (cuts (set.flatMap nfa.arcsOf))) ⟨sets, #[]⟩ extended
  simp only [fill]
  rw [again]

/-- A state that is filled is what filling its set gives in any catalog that knows more. -/
def Refills (nfa : Nfa) (exploration : Exploration) : Prop :=
  ∀ (id : Nat) (state : DfaState), exploration.states[id]? = some state →
    ∃ set, exploration.sets[id]? = some set ∧
      ∀ whole, Catalog nfa whole → Extends exploration.sets whole →
        fill nfa whole set = (whole, state)

theorem explore_refills (nfa : Nfa) : Refills nfa (explore nfa) := by
  apply explore_keeps (Refills nfa)
  · intro id state none
    cases none
  · intro exploration set explored waits refills id state found
    have extended := (fill_filled explored.catalog set).2
    change (exploration.states.push _)[id]? = some state at found
    rw [Array.getElem?_push] at found
    split at found
    case isTrue isLast =>
      cases found
      exact ⟨set, isLast ▸ extended _ set waits,
        fun whole catalog further => fill_again catalog set further⟩
    case isFalse =>
      obtain ⟨other, numbered, again⟩ := refills id state found
      exact ⟨other, extended id other numbered,
        fun whole catalog further => again whole catalog (extended.trans further)⟩

/-! ### Texts that lead to sets -/

def Reached (nfa : Nfa) (sets : Array (List Nat)) : Prop :=
  ∀ set ∈ sets, ∃ text, nfa.after? (nfa.closure [nfa.start]) text = some set

theorem fill_reached {sets : Array (List Nat)} {set : List Nat} {text : List Char}
    (reached : Reached nfa sets) (leads : nfa.after? (nfa.closure [nfa.start]) text = some set) :
    Reached nfa (fill nfa sets set).1 := by
  apply fill_keeps sets set fun filling => Reached nfa filling.sets
  · exact reached
  · exact fun filling stretch id numbered known => known
  · intro filling stretch moves known other member
    rcases Array.mem_push.mp member with old | new
    · exact known other old
    · rw [new]
      exact ⟨text ++ [stretch.lo], Nfa.after?_concat leads moves⟩

theorem explore_reached (nfa : Nfa) : Reached nfa (explore nfa).sets := by
  apply explore_keeps fun exploration => Reached nfa exploration.sets
  · intro set member
    rw [List.mem_singleton.mp (Array.mem_toList_iff.mpr member)]
    exact ⟨[], rfl⟩
  · intro exploration set explored waits reached
    obtain ⟨text, leads⟩ := reached set (Array.mem_of_getElem? waits)
    exact fill_reached reached leads

/-! ### Numbers in order -/

/-- Where 0 is known at first, the numbers that are read for the first time are 1, 2 and
so on up to the count. -/
def InOrder (targets : List Nat) (count : Nat) : Prop :=
  (0 :: targets).eraseDups = List.range count

theorem InOrder.mem_iff {targets : List Nat} {count id : Nat} (inOrder : InOrder targets count) :
    id ∈ 0 :: targets ↔ id < count := by
  rw [← List.mem_eraseDups, inOrder, List.mem_range]

theorem eraseDups_concat (items : List Nat) (item : Nat) :
    (items ++ [item]).eraseDups =
      if item ∈ items then items.eraseDups else items.eraseDups ++ [item] := by
  rw [List.eraseDups_append]
  by_cases seen : item ∈ items
  · have nothing : [item].removeAll items = [] := by
      simp only [List.removeAll, List.filter, List.elem_eq_true_of_mem seen, Bool.not_true]
    rw [if_pos seen, nothing]
    exact List.append_nil _
  · have alone : [item].removeAll items = [item] := by
      simp only [List.removeAll, List.filter, List.elem_eq_mem, seen, decide_false, Bool.not_false]
    rw [if_neg seen, alone]
    rfl

theorem InOrder.known {targets : List Nat} {count id : Nat} (inOrder : InOrder targets count)
    (known : id < count) : InOrder (targets ++ [id]) count := by
  rw [InOrder, ← List.cons_append, eraseDups_concat, if_pos (inOrder.mem_iff.mpr known)]
  exact inOrder

theorem InOrder.next {targets : List Nat} {count : Nat} (inOrder : InOrder targets count) :
    InOrder (targets ++ [count]) (count + 1) := by
  have unseen : count ∉ 0 :: targets := fun member =>
    Nat.lt_irrefl count (inOrder.mem_iff.mp member)
  rw [InOrder, ← List.cons_append, eraseDups_concat, if_neg unseen, inOrder, List.range_succ]

theorem map_target_pushArc (arcs : Array Arc) (arc : Arc) :
    (DfaState.pushArc arcs arc).toList.map Arc.target =
        arcs.toList.map Arc.target ++ [arc.target] ∨
      arc.target ∈ arcs.toList.map Arc.target ∧
        (DfaState.pushArc arcs arc).toList.map Arc.target = arcs.toList.map Arc.target := by
  have pushed : (arcs.push arc).toList.map Arc.target =
      arcs.toList.map Arc.target ++ [arc.target] := by
    rw [Array.toList_push, List.map_append, List.map_singleton]
  unfold DfaState.pushArc
  split
  case h_2 => exact Or.inl pushed
  case h_1 last isLast =>
    split
    case isFalse => exact Or.inl pushed
    case isTrue adjoins =>
      obtain ⟨front, rfl⟩ := Array.back?_eq_some_iff.mp isLast
      refine Or.inr ⟨?_, ?_⟩
      · rw [← adjoins.1]
        exact List.mem_map_of_mem (Array.mem_toList_iff.mpr Array.mem_push_self)
      · rw [Array.pop_push, Array.toList_push, Array.toList_push, List.map_append, List.map_append,
          List.map_singleton, List.map_singleton, adjoins.1]

theorem fill_inOrder {sets : Array (List Nat)} {before : List Nat} (set : List Nat)
    (inOrder : InOrder before sets.size) :
    InOrder (before ++ (fill nfa sets set).2.arcs.toList.map Arc.target)
      (fill nfa sets set).1.size := by
  apply fill_keeps sets set fun filling =>
    InOrder (before ++ filling.arcs.toList.map Arc.target) filling.sets.size
  · rw [List.map_nil, List.append_nil]
    exact inOrder
  · intro filling stretch id numbered known
    rcases map_target_pushArc filling.arcs ⟨stretch, id⟩ with last | ⟨-, kept⟩
    · rw [last, ← List.append_assoc]
      exact known.known (Array.getElem?_eq_some_iff.mp numbered).1
    · rw [kept]
      exact known
  · intro filling stretch moves known
    rw [Array.size_push]
    rcases map_target_pushArc filling.arcs ⟨stretch, filling.sets.size⟩ with last | ⟨member, -⟩
    · rw [last, ← List.append_assoc]
      exact known.next
    · -- A new number cannot be the target of the last arc.
      have below := known.mem_iff.mp
        (List.mem_cons_of_mem _ (List.mem_append_right before member))
      exact (Nat.lt_irrefl _ below).elim

theorem explore_inOrder (nfa : Nfa) :
    InOrder (Dfa.targets ⟨(explore nfa).states⟩) (explore nfa).sets.size := by
  apply explore_keeps fun exploration =>
    InOrder (Dfa.targets ⟨exploration.states⟩) exploration.sets.size
  · rfl
  · intro exploration set explored waits inOrder
    rw [Dfa.targets, Array.toList_push, List.flatMap_append, List.flatMap_singleton]
    exact fill_inOrder set inOrder

/-! ### Breadth first -/

/-- How the deterministic automaton is found: its states are filled one at each step from
sets of their own, and are numbered breadth first. -/
structure BreadthFirst (nfa : Nfa) : Prop where
  /-- No set waits any more from the step on that fills the last state. -/
  drained : ∀ steps, (after nfa steps).waiting = [] ↔ (Dfa.ofNfa nfa).states.size ≤ steps
  /-- What is left then is the automaton. -/
  ended : (after nfa (Dfa.ofNfa nfa).states.size).states = (Dfa.ofNfa nfa).states
  /-- A state is what filling the set of its number gives. -/
  filled : ∀ (id : Nat) (state : DfaState), (Dfa.ofNfa nfa).states[id]? = some state →
    ∃ set, (explore nfa).sets[id]? = some set ∧ set ≠ [] ∧ nfa.EpsilonClosed set ∧
      fill nfa (explore nfa).sets set = ((explore nfa).sets, state)
  /-- Sets with different numbers differ in a member. -/
  distinct : ∀ (left right : Nat) (first second : List Nat),
    (explore nfa).sets[left]? = some first → (explore nfa).sets[right]? = some second →
      (∀ id, id ∈ first ↔ id ∈ second) → left = right
  reached : ∀ id < (Dfa.ofNfa nfa).states.size, ∃ text, (Dfa.ofNfa nfa).run? 0 text = some id
  inOrder : InOrder (Dfa.ofNfa nfa).targets (Dfa.ofNfa nfa).states.size

theorem Catalog.eq_of_mem_iff {sets : Array (List Nat)} (catalog : Catalog nfa sets)
    {first second : List Nat} (isFirst : first ∈ sets) (isSecond : second ∈ sets)
    (same : ∀ id, id ∈ first ↔ id ∈ second) : first = second := by
  have firstAscends := List.pairwise_lt_range.sublist
    (catalog.ascending first (Array.mem_toList_iff.mpr isFirst))
  have secondAscends := List.pairwise_lt_range.sublist
    (catalog.ascending second (Array.mem_toList_iff.mpr isSecond))
  exact firstAscends.eq_of_mem_iff secondAscends same

/-- The automaton of a pattern or grammar is made deterministic breadth first. -/
theorem explore_breadthFirst (built : nfa.Built) : BreadthFirst nfa := by
  obtain ⟨explored, complete⟩ := explore_spec nfa
  have closed := built.closed
  refine ⟨waiting_after_iff nfa, ?_, ?_, ?_, ?_, ?_⟩
  · obtain ⟨last, idle, same, busy⟩ := exists_drained nfa
    have size : (explore nfa).states.size = last := same ▸ Exploration.size_after last busy
    change (after nfa (explore nfa).states.size).states = (explore nfa).states
    rw [size, same]
  · intro id state found
    obtain ⟨set, numbered, refilled⟩ := explore_refills nfa id state found
    obtain ⟨text, leads⟩ := explore_reached nfa set (Array.mem_of_getElem? numbered)
    obtain ⟨member, inSet⟩ :=
      closed.exists_mem_after? text (List.mem_singleton_self _) closed.start leads
    exact ⟨set, numbered, List.ne_nil_of_mem inSet, closed.epsilonClosed leads,
      refilled _ explored.catalog fun _ _ known => known⟩
  · intro left right first second isFirst isSecond same
    have equal := explored.catalog.eq_of_mem_iff (Array.mem_of_getElem? isFirst)
      (Array.mem_of_getElem? isSecond) same
    exact explored.catalog.number_unique isFirst (equal ▸ isSecond)
  · intro id inRange
    have inSets : id < (explore nfa).sets.size := complete ▸ inRange
    have numbered : (explore nfa).sets[id]? = some (explore nfa).sets[id] :=
      Array.getElem?_eq_getElem inSets
    obtain ⟨text, leads⟩ := explore_reached nfa _ (Array.mem_of_getElem? numbered)
    have runs := Dfa.run?_ofNfa text explored.first
    rw [leads] at runs
    obtain ⟨last, ran, isLast⟩ := runs
    exact ⟨text, explored.catalog.number_unique isLast numbered ▸ ran⟩
  · have inOrder := explore_inOrder nfa
    rw [← complete] at inOrder
    exact inOrder

/-- One of two words, over and over: the states behind both lead back to a known one. -/
def wordsOver : Pattern := .oneOrMore (.alternative [.literal "ab", .literal "ac"])

set_option maxRecDepth 4000 in
theorem explore_breadthFirst_wordsOver :
    (Nfa.ofToken "words" wordsOver).Built ∧
      (Dfa.ofNfa (.ofToken "words" wordsOver)).targets = [1, 2, 3, 1, 1] ∧
      (after (.ofToken "words" wordsOver) 4).waiting = [] ∧
      ∃ text, (Dfa.ofNfa (.ofToken "words" wordsOver)).run? 0 text = some 3 := by
  have built := Nfa.Built.token "words" wordsOver
  have found := explore_breadthFirst built
  have size : (Dfa.ofNfa (.ofToken "words" wordsOver)).states.size = 4 := by cbv
  have targets : (Dfa.ofNfa (.ofToken "words" wordsOver)).targets = [1, 2, 3, 1, 1] := by cbv
  exact ⟨built, targets, (found.drained 4).mpr (by omega), found.reached 3 (by omega)⟩

end Subset

end Predictive
