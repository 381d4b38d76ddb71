/-
The order of the rules does not matter to a grammar in plain form. What lowering adds
for a rule is the same wherever the rule stands, no two rules add productions of one
name, and so the plain forms have the same names and the same productions of each. Two
plain grammars that agree in this way have the same FIRST and FOLLOW sets.
-/

import Mathlib.Data.List.Basic
import Predictive.Proofs.Grammar.Follow
import Predictive.Proofs.Grammar.Numbering

namespace Predictive

/-! ### Rules in another order -/

namespace Draft

theorem firstRepeat_eq_none {seen names : List String} (distinct : names.Nodup)
    (new : ∀ name ∈ names, name ∉ seen) : firstRepeat seen names = none := by
  induction names generalizing seen with
  | nil => rfl
  | cons head rest ih =>
      have parts := List.nodup_cons.mp distinct
      rw [firstRepeat, if_neg (new head List.mem_cons_self)]
      apply ih parts.2
      intro name member old
      rcases List.mem_cons.mp old with same | earlier
      · exact parts.1 (same ▸ member)
      · exact new name (List.mem_cons_of_mem _ member) earlier

theorem firstUndefined_eq_none {declared : List String} {rules : List (String × Rule)}
    (closed : ∀ entry ∈ rules, ∀ name ∈ entry.2.references, name ∈ declared) :
    firstUndefined declared rules = none := by
  apply List.findSome?_eq_none_iff.mpr
  intro entry member
  rw [Option.map_eq_none_iff, List.find?_eq_none]
  intro name reference
  simpa using closed entry member name reference

theorem of_build {draft : Draft} {grammar : Grammar} (built : draft.build = .ok grammar) :
    grammar.start = draft.startName ∧ grammar.rules = draft.rules := by
  unfold build at built
  split at built
  case h_1 => cases built
  case h_2 =>
    split at built
    case isTrue =>
      split at built
      case h_1 => cases built
      case h_2 =>
        cases built
        exact ⟨rfl, rfl⟩
    case isFalse => cases built

theorem build_grammar (grammar : Grammar) :
    build ⟨some grammar.start, grammar.rules⟩ = .ok grammar := by
  have free : firstRepeat [] (names ⟨some grammar.start, grammar.rules⟩) = none :=
    firstRepeat_eq_none grammar.distinct fun _ _ => List.not_mem_nil
  have closed : firstUndefined (names ⟨some grammar.start, grammar.rules⟩) grammar.rules = none :=
    firstUndefined_eq_none grammar.closed
  unfold build
  split
  case h_1 name repeated => cases free.symm.trans repeated
  case h_2 =>
    split
    case isTrue =>
      split
      case h_1 name undefined => cases closed.symm.trans undefined
      case h_2 => rfl
    case isFalse missing => exact absurd grammar.startDefined missing

end Draft

namespace Grammar

/-- The grammar with its rules in another order. -/
def reorder (source : Grammar) {rules : List (String × Rule)} (same : source.rules.Perm rules) :
    Grammar where
  start := source.start
  rules := rules
  distinct := (same.map Prod.fst).nodup_iff.mp source.distinct
  startDefined := (same.map Prod.fst).mem_iff.mp source.startDefined
  closed := by
    intro entry member name reference
    exact (same.map Prod.fst).mem_iff.mp (source.closed entry (same.mem_iff.mpr member) name
      reference)

end Grammar

theorem flatMap_eq_of_perm {α β : Type} {left right : List α} {part : α → List β}
    (same : left.Perm right)
    (apart : left.Pairwise fun one other => part one = [] ∨ part other = []) :
    left.flatMap part = right.flatMap part := by
  induction same with
  | nil => rfl
  | cons head rest ih =>
      rw [List.flatMap_cons, List.flatMap_cons, ih (List.pairwise_cons.mp apart).2]
  | swap first second rest =>
      have either := (List.pairwise_cons.mp apart).1 first List.mem_cons_self
      simp only [List.flatMap_cons, ← List.append_assoc]
      rcases either with none | none
      · rw [none, List.append_nil, List.nil_append]
      · rw [none, List.append_nil, List.nil_append]
  | trans first second inFirst inSecond =>
      rw [inFirst apart]
      exact inSecond (first.pairwise apart Or.symm)

namespace Grammar

variable {source other : Grammar}

theorem block_eq (same : source.rules.Perm other.rules) {entry : String × Rule}
    (member : entry ∈ source.rules) : source.block entry = other.block entry := by
  obtain ⟨place, placed, own⟩ := other.exists_adds_block (same.mem_iff.mp member)
  have alike : Lowering.Alike entry.1 other.reference source.reference := by
    refine ⟨rfl, fun number => ?_⟩
    rw [other.names_reference, source.names_reference]
    exact (same.map Prod.fst).mem_iff.symm
  have foreign := Lowering.adds_block source.consistent_reference
    (source.unstarted_declared.known entry member) alike placed
  exact foreign.unique own

theorem lhs_block {entry : String × Rule} (member : entry ∈ source.rules)
    {production : Production} (inside : production ∈ (source.block entry).2) :
    production.lhs = entry.1 ∨ production.lhs ∈ (source.block entry).1 := by
  have consistent := source.consistent_reference
  obtain ⟨place, placed, adds⟩ := source.exists_adds_block member
  have branches := Lowering.addBranches_branched entry.1 place source.reference
    (Lowering.topBranches entry.2) consistent (PlainGrammar.lt_size_of_nameOf? placed)
    (fun _ => source.mem_declared)
    (by
      rw [Lowering.symbolsOfAll_topBranches]
      exact source.symbols_closed entry member)
  have present : production ∈ (Lowering.addBranches entry.1 place source.reference
      (Lowering.topBranches entry.2)).grammar.productions := by
    apply Array.mem_toList_iff.mp
    exact adds.productions ▸ List.mem_append_right _ inside
  have owned : production.lhs ∈ Lowering.names _ :=
    (branches.grows.consistent consistent).owned production present
  rw [adds.names_eq, List.mem_append] at owned
  apply owned.imp_left
  intro old
  obtain ⟨id, named⟩ := PlainGrammar.mem_names_iff.mp old
  by_cases same : id = place
  · rw [same] at named
    exact Option.some.inj (named.symm.trans placed)
  · -- An old name other than the rule's own has no productions, before as after.
    exfalso
    have kept := branches.grows.bodiesOf consistent named (by
      intro touched
      rcases touched with here | beyond
      · exact same here
      · exact Nat.not_le.mpr (PlainGrammar.lt_size_of_nameOf? named) beyond)
    have listed := PlainGrammar.mem_bodiesOf.mpr present
    rw [kept] at listed
    have early := PlainGrammar.mem_bodiesOf.mp listed
    change _ ∈ source.declared.productions at early
    rw [source.declared_spec.2.2] at early
    exact absurd early (Array.not_mem_empty _)

theorem blocks_apart {one another : String × Rule} (first : one ∈ source.rules)
    (second : another ∈ source.rules) (different : one.1 ≠ another.1)
    {left right : Production} (inFirst : left ∈ (source.block one).2)
    (inSecond : right ∈ (source.block another).2) : left.lhs ≠ right.lhs := by
  have distinct := source.lower_consistent.distinct
  rw [source.names_lower] at distinct
  have free : ∀ {rule owner : String × Rule}, rule ∈ source.rules → owner ∈ source.rules →
      rule.1 ∉ (source.block owner).1 := by
    intro rule owner isRule isOwner inside
    exact (List.nodup_append.mp distinct).2.2 rule.1 (List.mem_map_of_mem isRule) rule.1
      (List.mem_flatMap.mpr ⟨owner, isOwner, inside⟩) rfl
  intro same
  rcases lhs_block first inFirst with leftOwn | leftSynthetic
  · rcases lhs_block second inSecond with rightOwn | rightSynthetic
    · exact different (leftOwn.symm.trans (same.trans rightOwn))
    · exact free first second (leftOwn ▸ same ▸ rightSynthetic)
  · rcases lhs_block second inSecond with rightOwn | rightSynthetic
    · exact free second first (rightOwn ▸ same.symm ▸ leftSynthetic)
    · obtain ⟨leftNumber, leftName⟩ := source.owned_block first leftSynthetic
      obtain ⟨rightNumber, rightName⟩ := source.owned_block second rightSynthetic
      exact different
        (Lowering.owner_eq_of_syntheticName (leftName.symm.trans (same.trans rightName)))

def bodiesFrom (source : Grammar) (name : String) (entry : String × Rule) : List (List Symbol) :=
  ((source.block entry).2.filter fun production => production.lhs == name).map Production.rhs

theorem mem_bodiesFrom {name : String} {entry : String × Rule} {rhs : List Symbol}
    (inside : rhs ∈ source.bodiesFrom name entry) :
    ∃ production ∈ (source.block entry).2, production.lhs = name := by
  obtain ⟨production, kept, _⟩ := List.mem_map.mp inside
  obtain ⟨listed, named⟩ := List.mem_filter.mp kept
  exact ⟨production, listed, eq_of_beq named⟩

theorem bodiesFrom_apart (source : Grammar) (name : String) :
    source.rules.Pairwise fun one another =>
      source.bodiesFrom name one = [] ∨ source.bodiesFrom name another = [] := by
  apply (List.pairwise_map.mp source.distinct).imp_of_mem
  intro one another first second different
  by_contra both
  obtain ⟨some, more⟩ := not_or.mp both
  obtain ⟨_, inFirst⟩ := List.exists_mem_of_ne_nil _ some
  obtain ⟨_, inSecond⟩ := List.exists_mem_of_ne_nil _ more
  obtain ⟨left, leftListed, leftNamed⟩ := mem_bodiesFrom inFirst
  obtain ⟨right, rightListed, rightNamed⟩ := mem_bodiesFrom inSecond
  exact blocks_apart first second different leftListed rightListed
    (leftNamed.trans rightNamed.symm)

theorem bodiesOf_lower (source : Grammar) (name : String) :
    source.lower.bodiesOf name = source.rules.flatMap (source.bodiesFrom name) := by
  rw [PlainGrammar.bodiesOf, source.productions_lower, List.filter_flatMap, List.map_flatMap]
  rfl

/-- One rule alone adds the productions of a name, in an order of its own. -/
theorem bodiesOf_lower_eq (same : source.rules.Perm other.rules) (name : String) :
    source.lower.bodiesOf name = other.lower.bodiesOf name := by
  rw [bodiesOf_lower, bodiesOf_lower, flatMap_eq_of_perm same (source.bodiesFrom_apart name)]
  apply List.flatMap_congr
  intro entry member
  rw [bodiesFrom, bodiesFrom, block_eq same (same.mem_iff.mpr member)]

end Grammar

namespace PlainGrammar

/-- Two plain grammars have the same names, the same productions of each name in the same
order, and the same start symbol; their numbers may differ. -/
structure Agrees (left right : PlainGrammar) : Prop where
  names : left.names.Perm right.names
  bodies : ∀ name, left.bodiesOf name = right.bodiesOf name
  start : left.startName = right.startName

/-- A plain grammar as lowering leaves it: its numbers fit, productions are listed in the
order of their numbers, and the start symbol has a name. -/
structure Regular (grammar : PlainGrammar) : Prop where
  consistent : grammar.Consistent
  inOrder : grammar.ListsInOrder
  started : grammar.nameOf? grammar.start = some grammar.startName

variable {grammar left right : PlainGrammar} {symbols : List Symbol} {name : String}

theorem map_range_nameOf (grammar : PlainGrammar) :
    (List.range grammar.nonTerminals.size).map grammar.nameOf = grammar.names := by
  apply List.ext_getElem
  · rw [names, List.length_map, List.length_map, List.length_range, Array.length_toList]
  · intro id _ _
    simp only [names, List.getElem_map, List.getElem_range, Array.getElem_toList, nameOf, nameOf?]
    rw [Array.getElem?_eq_getElem, Option.map_some, Option.getD_some]

theorem map_range_production (grammar : PlainGrammar) :
    (List.range grammar.productions.size).map grammar.production = grammar.productions.toList := by
  apply List.ext_getElem
  · rw [List.length_map, List.length_range, Array.length_toList]
  · intro number _ inRange
    rw [List.getElem_map, List.getElem_range, Array.getElem_toList, production,
      Array.getD_eq_getD_getElem?, Array.getElem?_eq_getElem, Option.getD_some]

theorem map_bodiesOf (grammar : PlainGrammar) (name : String) :
    (grammar.bodiesOf name).map (Production.mk name) =
      grammar.productions.toList.filter fun production => production.lhs == name := by
  rw [bodiesOf, List.map_map]
  apply (List.map_congr_left ?_).trans (List.map_id _)
  intro production member
  have named := eq_of_beq (List.mem_filter.mp member).2
  simp only [Function.comp, ← named, id]

theorem Regular.map_productionIds (regular : grammar.Regular) {id : Nat}
    (named : grammar.nameOf? id = some name) :
    (grammar.productionIds id).map grammar.production =
      (grammar.bodiesOf name).map (Production.mk name) := by
  have ascending := (regular.inOrder id).imp Nat.compare_eq_lt.mpr
  have numbers : grammar.productionIds id = (List.range grammar.productions.size).filter
      fun number => (grammar.production number).lhs == name := by
    apply OrderedSet.eq_of_mem_iff ascending
      ((List.pairwise_lt_range.imp Nat.compare_eq_lt.mpr).filter _)
    intro number
    rw [regular.consistent.listed named, List.mem_filter, List.mem_range, beq_iff_eq, production,
      Array.getD_eq_getD_getElem?]
    constructor
    · intro some
      obtain ⟨rhs, found⟩ := some
      rw [found]
      exact ⟨(Array.getElem?_eq_some_iff.mp found).1, rfl⟩
    · intro both
      obtain ⟨inRange, same⟩ := both
      rw [Array.getElem?_eq_getElem inRange] at same ⊢
      exact ⟨grammar.productions[number].rhs, by rw [← same]; rfl⟩
  rw [numbers, map_bodiesOf, ← map_range_production, List.filter_map]
  rfl

structure Within (left right : PlainGrammar) : Prop where
  productions : ∀ production ∈ left.productions, production ∈ right.productions
  start : left.startName = right.startName

namespace Within

theorem vanishes (within : left.Within right) (empty : left.Vanishes symbols) :
    right.Vanishes symbols := by
  induction empty with
  | nil => exact .nil
  | cons member inner others inInner inOthers =>
      exact .cons (within.productions _ member) inInner inOthers

theorem begins (within : left.Within right) {kind : String} (begins : left.Begins kind symbols) :
    right.Begins kind symbols := by
  induction begins with
  | here rest => exact .here rest
  | inside rest member inner ih => exact .inside rest (within.productions _ member) ih
  | behind empty later ih => exact .behind (within.vanishes empty) ih

theorem follows (within : left.Within right) {lookahead : Lookahead}
    (follows : left.Follows lookahead name) : right.Follows lookahead name := by
  induction follows with
  | start =>
      rw [within.start]
      exact .start
  | beside member begins => exact .beside (within.productions _ member) (within.begins begins)
  | inherited member empty follows ih =>
      exact .inherited (within.productions _ member) (within.vanishes empty) ih

end Within

namespace Agrees

theorem symm (agrees : left.Agrees right) : right.Agrees left :=
  ⟨agrees.names.symm, fun name => (agrees.bodies name).symm, agrees.start.symm⟩

theorem within (agrees : left.Agrees right) : left.Within right where
  productions := fun production member =>
    mem_bodiesOf.mp (agrees.bodies production.lhs ▸ mem_bodiesOf.mpr member)
  start := agrees.start

theorem ofSymbols_eq (agrees : left.Agrees right) (inLeft : left.Regular) (inRight : right.Regular)
    (symbols : List Symbol) :
    (FirstSets.compute left).ofSymbols symbols = (FirstSets.compute right).ofSymbols symbols := by
  have leftSound := (FirstSets.compute_spec inLeft.consistent).1
  have rightSound := (FirstSets.compute_spec inRight.consistent).1
  apply Prod.ext
  · apply OrderedSet.eq_of_mem_iff (leftSound.ascending_ofSymbols symbols)
      (rightSound.ascending_ofSymbols symbols)
    intro kind
    rw [FirstSets.mem_compute_ofSymbols_iff inLeft.consistent,
      FirstSets.mem_compute_ofSymbols_iff inRight.consistent]
    exact ⟨agrees.within.begins, agrees.symm.within.begins⟩
  · apply Bool.eq_iff_iff.mpr
    rw [FirstSets.compute_ofSymbols_nullable_iff inLeft.consistent,
      FirstSets.compute_ofSymbols_nullable_iff inRight.consistent]
    exact ⟨agrees.within.vanishes, agrees.symm.within.vanishes⟩

theorem ofId_eq (agrees : left.Agrees right) (inLeft : left.Regular) (inRight : right.Regular)
    {leftId rightId : Nat} (leftNamed : left.nameOf? leftId = some name)
    (rightNamed : right.nameOf? rightId = some name) :
    (FollowSets.compute left (.compute left)).ofId leftId =
      (FollowSets.compute right (.compute right)).ofId rightId := by
  have leftSound := (FollowSets.compute_spec inLeft.consistent inLeft.started).1
  have rightSound := (FollowSets.compute_spec inRight.consistent inRight.started).1
  apply OrderedSet.eq_of_mem_iff (leftSound.ascending_ofId leftId)
    (rightSound.ascending_ofId rightId)
  intro lookahead
  rw [FollowSets.mem_compute_iff inLeft.consistent inLeft.started leftNamed,
    FollowSets.mem_compute_iff inRight.consistent inRight.started rightNamed]
  exact ⟨agrees.within.follows, agrees.symm.within.follows⟩

end Agrees

end PlainGrammar

namespace Grammar

variable {source other : Grammar}

theorem lower_regular (source : Grammar) : source.lower.Regular where
  consistent := source.lower_consistent
  inOrder := source.lower_listsInOrder
  started := by
    rw [source.startName_lower]
    exact source.nameOf?_lower_start

theorem lower_agrees (start : source.start = other.start) (same : source.rules.Perm other.rules) :
    source.lower.Agrees other.lower where
  names := by
    rw [source.names_lower, other.names_lower]
    have blocks : (source.rules.flatMap fun entry => (source.block entry).1) =
        source.rules.flatMap fun entry => (other.block entry).1 := by
      apply List.flatMap_congr
      intro entry member
      rw [block_eq same member]
    rw [blocks]
    exact (same.map Prod.fst).append (same.flatMap_right _)
  bodies := bodiesOf_lower_eq same
  start := by rw [source.startName_lower, other.startName_lower, start]

end Grammar

end Predictive
