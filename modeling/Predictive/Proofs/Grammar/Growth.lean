/-
How lowering builds a plain grammar. Every change declares a free name, adds a
production to a non-terminal or restarts the numbering of synthetic names. The
cross references of the grammar survive each change, and a change that is not
allowed to touch a non-terminal leaves its productions alone.
-/

import Mathlib.Logic.Relation
import Predictive.Grammar.Lowering

namespace Predictive

namespace PlainGrammar

/-- The cross references of a plain grammar fit together. -/
structure Consistent (grammar : PlainGrammar) : Prop where
  distinct : grammar.names.Nodup
  /-- A non-terminal lists exactly the productions that carry its name. -/
  listed : ∀ {id : Nat} {name : String}, grammar.nameOf? id = some name → ∀ number,
    number ∈ grammar.productionIds id ↔ ∃ rhs, grammar.productions[number]? = some ⟨name, rhs⟩
  owned : ∀ production ∈ grammar.productions, production.lhs ∈ grammar.names
  closed : ∀ production ∈ grammar.productions, ∀ name,
    .nonTerminal name ∈ production.rhs → name ∈ grammar.names

def ListsInOrder (grammar : PlainGrammar) : Prop :=
  ∀ id, (grammar.productionIds id).Pairwise (· < ·)

def bodiesOf (grammar : PlainGrammar) (name : String) : List (List Symbol) :=
  (grammar.productions.toList.filter fun production => production.lhs == name).map Production.rhs

variable {grammar : PlainGrammar}

theorem mem_bodiesOf {name : String} {rhs : List Symbol} :
    rhs ∈ grammar.bodiesOf name ↔ ⟨name, rhs⟩ ∈ grammar.productions := by
  simp only [bodiesOf, List.mem_map, List.mem_filter, Array.mem_toList_iff, beq_iff_eq]
  constructor
  · rintro ⟨production, ⟨member, rfl⟩, rfl⟩
    exact member
  · intro member
    exact ⟨⟨name, rhs⟩, ⟨member, rfl⟩, rfl⟩

theorem mem_names_iff {name : String} :
    name ∈ grammar.names ↔ ∃ id, grammar.nameOf? id = some name := by
  simp only [names, List.mem_map, Array.mem_toList_iff, Array.mem_iff_getElem?, nameOf?,
    Option.map_eq_some_iff]
  constructor
  · rintro ⟨nonTerminal, ⟨id, found⟩, rfl⟩
    exact ⟨id, nonTerminal, found, rfl⟩
  · rintro ⟨id, nonTerminal, found, rfl⟩
    exact ⟨nonTerminal, ⟨id, found⟩, rfl⟩

theorem names_getElem? (id : Nat) : grammar.names[id]? = grammar.nameOf? id := by
  simp only [names, nameOf?, List.getElem?_map, Array.getElem?_toList]

theorem lt_size_of_nameOf? {id : Nat} {name : String} (named : grammar.nameOf? id = some name) :
    id < grammar.nonTerminals.size := by
  obtain ⟨nonTerminal, found, -⟩ := Option.map_eq_some_iff.mp named
  exact (Array.getElem?_eq_some_iff.mp found).1

theorem nameOf?_of_lt (grammar : PlainGrammar) {id : Nat}
    (inRange : id < grammar.nonTerminals.size) :
    grammar.nameOf? id = some (grammar.nameOf id) := by
  simp only [nameOf, nameOf?, Array.getElem?_eq_getElem inRange, Option.map_some, Option.getD_some]

namespace Consistent

theorem nameOf?_inj (consistent : grammar.Consistent) {left right : Nat} {name : String}
    (leftNamed : grammar.nameOf? left = some name)
    (rightNamed : grammar.nameOf? right = some name) : left = right := by
  rw [← names_getElem?] at leftNamed rightNamed
  have inRange := (List.getElem?_eq_some_iff.mp leftNamed).1
  exact (List.getElem?_inj inRange consistent.distinct).mp (leftNamed.trans rightNamed.symm)

theorem idOf?_eq_some_iff (consistent : grammar.Consistent) {name : String} {id : Nat} :
    grammar.idOf? name = some id ↔ grammar.nameOf? id = some name := by
  constructor
  · intro found
    obtain ⟨inRange, same, -⟩ := Array.findIdx?_eq_some_iff_getElem.mp found
    rw [nameOf?, Array.getElem?_eq_getElem inRange, Option.map_some, eq_of_beq same]
  · intro named
    have known : ∃ nonTerminal, nonTerminal ∈ grammar.nonTerminals ∧
        (nonTerminal.name == name) = true := by
      obtain ⟨nonTerminal, found, rfl⟩ := Option.map_eq_some_iff.mp named
      exact ⟨nonTerminal, Array.mem_of_getElem? found, beq_self_eq_true _⟩
    have found := Array.findIdx?_eq_some_of_exists known
    obtain ⟨inRange, same, -⟩ := Array.findIdx?_eq_some_iff_getElem.mp found
    have firstNamed : grammar.nameOf?
        (grammar.nonTerminals.findIdx fun nonTerminal => nonTerminal.name == name) = some name := by
      rw [nameOf?, Array.getElem?_eq_getElem inRange, Option.map_some, eq_of_beq same]
    rw [idOf?, found, consistent.nameOf?_inj firstNamed named]

theorem exists_idOf? (consistent : grammar.Consistent) {name : String}
    (declared : name ∈ grammar.names) : ∃ id, grammar.idOf? name = some id := by
  obtain ⟨id, named⟩ := mem_names_iff.mp declared
  exact ⟨id, consistent.idOf?_eq_some_iff.mpr named⟩

theorem idOf?_eq_none (consistent : grammar.Consistent) {name : String}
    (undeclared : name ∉ grammar.names) : grammar.idOf? name = none := by
  apply Option.eq_none_iff_forall_ne_some.mpr
  intro id found
  exact undeclared (mem_names_iff.mpr ⟨id, consistent.idOf?_eq_some_iff.mp found⟩)

theorem production_of_mem_productionIds (consistent : grammar.Consistent) {id number : Nat}
    (member : number ∈ grammar.productionIds id) :
    ∃ rhs, grammar.nameOf? id = some (grammar.nameOf id) ∧
      grammar.productions[number]? = some ⟨grammar.nameOf id, rhs⟩ := by
  by_cases inRange : id < grammar.nonTerminals.size
  · have named := nameOf?_of_lt grammar inRange
    obtain ⟨rhs, found⟩ := (consistent.listed named number).mp member
    exact ⟨rhs, named, found⟩
  · have missing : grammar.nonTerminals[id]? = none :=
      Array.getElem?_eq_none (Nat.le_of_not_lt inRange)
    rw [productionIds, missing] at member
    cases member

end Consistent

end PlainGrammar

namespace Lowering

def grammar (lowering : Lowering) : PlainGrammar := ⟨0, lowering.nonTerminals, lowering.productions⟩

def names (lowering : Lowering) : List String := lowering.grammar.names

def Covers (lowering : Lowering) (symbols : List Symbol) : Prop :=
  ∀ name, .nonTerminal name ∈ symbols → name ∈ lowering.names

/-- One change, which adds productions only where it is allowed to. -/
inductive Step (allowed : Nat → Prop) : Lowering → Lowering → Prop where
  | declare {lowering : Lowering} {name : String} (synthetic : Bool) (suffix : Nat)
      (free : name ∉ lowering.names) :
      Step allowed lowering { lowering.declare name synthetic with suffix }
  | produce {lowering : Lowering} {id : Nat} {rhs : List Symbol} (may : allowed id)
      (inRange : id < lowering.nonTerminals.size) (covered : lowering.Covers rhs) :
      Step allowed lowering (lowering.addProduction id rhs)
  | restart {lowering : Lowering} (suffix : Nat) : Step allowed lowering { lowering with suffix }

def Grows (allowed : Nat → Prop) : Lowering → Lowering → Prop :=
  Relation.ReflTransGen (Step allowed)

variable {lowering before middle after : Lowering} {allowed : Nat → Prop}

/-! ### What one change does to names and productions -/

theorem names_declare (lowering : Lowering) (name : String) (synthetic : Bool) (suffix : Nat) :
    names { lowering.declare name synthetic with suffix } = lowering.names ++ [name] := by
  simp only [names, grammar, PlainGrammar.names, declare, Array.toList_push, List.map_append,
    List.map_cons, List.map_nil]

theorem productionIds_declare (name : String) (synthetic : Bool) (suffix id : Nat) :
    (grammar { lowering.declare name synthetic with suffix }).productionIds id =
      lowering.grammar.productionIds id := by
  simp only [grammar, PlainGrammar.productionIds, declare, Array.getElem?_push]
  by_cases last : id = lowering.nonTerminals.size
  · subst last
    rw [if_pos rfl, Array.getElem?_eq_none (Nat.le_refl _)]
  · rw [if_neg last]

theorem nameOf?_addProduction (id : Nat) (rhs : List Symbol) (other : Nat) :
    (lowering.addProduction id rhs).grammar.nameOf? other = lowering.grammar.nameOf? other := by
  simp only [grammar, PlainGrammar.nameOf?, addProduction, Array.getElem?_modify]
  split
  · rw [Option.map_map]
    rfl
  · rfl

theorem names_addProduction (id : Nat) (rhs : List Symbol) :
    (lowering.addProduction id rhs).names = lowering.names := by
  apply List.ext_getElem?
  intro other
  rw [names, names, PlainGrammar.names_getElem?, PlainGrammar.names_getElem?,
    nameOf?_addProduction]

theorem size_addProduction (lowering : Lowering) (id : Nat) (rhs : List Symbol) :
    (lowering.addProduction id rhs).nonTerminals.size = lowering.nonTerminals.size := by
  simp only [addProduction, Array.size_modify]

theorem productions_addProduction {id : Nat} {name : String} (rhs : List Symbol)
    (named : lowering.grammar.nameOf? id = some name) :
    (lowering.addProduction id rhs).productions = lowering.productions.push ⟨name, rhs⟩ := by
  have lhs : (lowering.nonTerminals[id]?.map NonTerminal.name).getD "" = name := by
    rw [show lowering.nonTerminals[id]?.map NonTerminal.name = some name from named,
      Option.getD_some]
  simp only [addProduction, lhs]

theorem mem_productionIds_addProduction {id other number : Nat} (rhs : List Symbol)
    (inRange : id < lowering.nonTerminals.size) :
    number ∈ (lowering.addProduction id rhs).grammar.productionIds other ↔
      number ∈ lowering.grammar.productionIds other ∨
        other = id ∧ number = lowering.productions.size := by
  simp only [grammar, PlainGrammar.productionIds, addProduction, Array.getElem?_modify]
  by_cases same : other = id
  · subst same
    simp only [Array.getElem?_eq_getElem inRange, if_true, Option.map_some, List.mem_append,
      List.mem_singleton, true_and]
  · have different : id ≠ other := fun equal => same equal.symm
    simp only [if_neg different, same, false_and, or_false]

/-! ### Consistency of what has been built -/

theorem consistent_declare {name : String} (synthetic : Bool) (suffix : Nat)
    (consistent : lowering.grammar.Consistent) (free : name ∉ lowering.names) :
    (grammar { lowering.declare name synthetic with suffix }).Consistent := by
  have names := names_declare lowering name synthetic suffix
  refine ⟨?_, ?_, ?_, ?_⟩
  · change (Lowering.names _).Nodup
    rw [names, List.nodup_append]
    refine ⟨consistent.distinct, List.pairwise_singleton _ _, ?_⟩
    rintro old member other last rfl
    exact free (List.mem_singleton.mp last ▸ member)
  · intro id other named number
    rw [productionIds_declare]
    rw [← PlainGrammar.names_getElem?] at named
    change (Lowering.names _)[id]? = some other at named
    rw [names, List.getElem?_append] at named
    split at named
    · rw [Lowering.names, PlainGrammar.names_getElem?] at named
      exact consistent.listed named number
    · -- The new name has no productions yet, since every production has an old one.
      rename_i beyond
      have missing : lowering.nonTerminals.size ≤ id := by
        simpa [Lowering.names, PlainGrammar.names, grammar] using beyond
      have equal : other = name := List.mem_singleton.mp (List.mem_of_getElem? named)
      constructor
      · intro member
        simp only [PlainGrammar.productionIds, grammar, Array.getElem?_eq_none missing] at member
        cases member
      · rintro ⟨rhs, found⟩
        have old := consistent.owned _ (Array.mem_of_getElem? found)
        exact absurd (equal ▸ old) free
  · intro production member
    change production.lhs ∈ Lowering.names _
    rw [names]
    exact List.mem_append_left _ (consistent.owned production member)
  · intro production member other inside
    change other ∈ Lowering.names _
    rw [names]
    exact List.mem_append_left _ (consistent.closed production member other inside)

theorem listed_addProduction {id : Nat} {rhs : List Symbol}
    (consistent : lowering.grammar.Consistent) (inRange : id < lowering.nonTerminals.size)
    {other : Nat} {name : String} (otherNamed : lowering.grammar.nameOf? other = some name)
    (number : Nat) :
    number ∈ (lowering.addProduction id rhs).grammar.productionIds other ↔
      ∃ body, (lowering.addProduction id rhs).productions[number]? = some ⟨name, body⟩ := by
  have named := PlainGrammar.nameOf?_of_lt lowering.grammar inRange
  rw [mem_productionIds_addProduction rhs inRange, consistent.listed otherNamed,
    productions_addProduction rhs named, Array.getElem?_push]
  by_cases last : number = lowering.productions.size
  · subst last
    rw [if_pos rfl, show lowering.grammar.productions[lowering.productions.size]? = none from
      Array.getElem?_eq_none (Nat.le_refl _)]
    constructor
    · rintro (⟨body, impossible⟩ | ⟨rfl, -⟩)
      · cases impossible
      · exact ⟨rhs, by rw [Option.some.inj (named.symm.trans otherNamed)]⟩
    · rintro ⟨body, same⟩
      have nameSame : lowering.grammar.nameOf id = name :=
        congrArg Production.lhs (Option.some.inj same)
      rw [nameSame] at named
      exact Or.inr ⟨consistent.nameOf?_inj otherNamed named, rfl⟩
  · rw [if_neg last]
    constructor
    · exact fun either => either.resolve_right fun both => last both.2
    · exact Or.inl

theorem consistent_addProduction {id : Nat} {rhs : List Symbol}
    (consistent : lowering.grammar.Consistent) (inRange : id < lowering.nonTerminals.size)
    (covered : lowering.Covers rhs) : (lowering.addProduction id rhs).grammar.Consistent := by
  have named := PlainGrammar.nameOf?_of_lt lowering.grammar inRange
  have productions := productions_addProduction rhs named
  refine ⟨?_, ?_, ?_, ?_⟩
  · change (Lowering.names _).Nodup
    rw [names_addProduction]
    exact consistent.distinct
  · intro other name otherNamed number
    rw [nameOf?_addProduction] at otherNamed
    exact listed_addProduction consistent inRange otherNamed number
  · intro production member
    change production.lhs ∈ Lowering.names _
    change production ∈ (lowering.addProduction id rhs).productions at member
    rw [names_addProduction]
    rw [productions, Array.mem_push] at member
    rcases member with old | rfl
    · exact consistent.owned production old
    · exact PlainGrammar.mem_names_iff.mpr ⟨id, named⟩
  · intro production member other inside
    change other ∈ Lowering.names _
    change production ∈ (lowering.addProduction id rhs).productions at member
    rw [names_addProduction]
    rw [productions, Array.mem_push] at member
    rcases member with old | rfl
    · exact consistent.closed production old other inside
    · exact covered other inside

theorem Step.consistent (step : Step allowed before after)
    (consistent : before.grammar.Consistent) : after.grammar.Consistent := by
  cases step with
  | declare synthetic suffix free => exact consistent_declare synthetic suffix consistent free
  | produce may inRange covered => exact consistent_addProduction consistent inRange covered
  | restart suffix =>
      exact ⟨consistent.distinct, consistent.listed, consistent.owned, consistent.closed⟩

theorem Grows.consistent (grows : Grows allowed before after)
    (consistent : before.grammar.Consistent) : after.grammar.Consistent := by
  induction grows with
  | refl => exact consistent
  | tail others step ih => exact step.consistent ih

/-! ### The order of productions -/

theorem lt_size_of_mem_productionIds (consistent : lowering.grammar.Consistent) {id number : Nat}
    (member : number ∈ lowering.grammar.productionIds id) :
    number < lowering.productions.size := by
  obtain ⟨rhs, _, found⟩ := consistent.production_of_mem_productionIds member
  exact (Array.getElem?_eq_some_iff.mp found).1

theorem productionIds_addProduction (lowering : Lowering) (id : Nat) (rhs : List Symbol)
    (other : Nat) :
    (lowering.addProduction id rhs).grammar.productionIds other =
        lowering.grammar.productionIds other ∨
      (lowering.addProduction id rhs).grammar.productionIds other =
        lowering.grammar.productionIds other ++ [lowering.productions.size] := by
  simp only [grammar, PlainGrammar.productionIds, addProduction, Array.getElem?_modify]
  by_cases same : id = other
  · cases lowering.nonTerminals[other]? with
    | none =>
        left
        rw [if_pos same]
        rfl
    | some nonTerminal =>
        right
        rw [if_pos same]
        rfl
  · left
    rw [if_neg same]

theorem Step.listsInOrder (step : Step allowed before after)
    (consistent : before.grammar.Consistent) (inOrder : before.grammar.ListsInOrder) :
    after.grammar.ListsInOrder := by
  intro id
  cases step with
  | declare synthetic suffix free =>
      rw [productionIds_declare]
      exact inOrder id
  | @produce target rhs may inRange covered =>
      rcases productionIds_addProduction before target rhs id with same | longer
      · rw [same]
        exact inOrder id
      · rw [longer, List.pairwise_append]
        refine ⟨inOrder id, List.pairwise_singleton _ _, ?_⟩
        intro old member last isLast
        rw [List.mem_singleton.mp isLast]
        exact lt_size_of_mem_productionIds consistent member
  | restart suffix => exact inOrder id

theorem Grows.listsInOrder (grows : Grows allowed before after)
    (consistent : before.grammar.Consistent) (inOrder : before.grammar.ListsInOrder) :
    after.grammar.ListsInOrder := by
  induction grows with
  | refl => exact inOrder
  | tail others step ih => exact step.listsInOrder (Grows.consistent others consistent) ih

/-! ### What stays -/

theorem Step.nameOf? (step : Step allowed before after) {id : Nat} {name : String}
    (named : before.grammar.nameOf? id = some name) : after.grammar.nameOf? id = some name := by
  cases step with
  | @declare other synthetic suffix free =>
      rw [← PlainGrammar.names_getElem?] at named ⊢
      change (Lowering.names _)[id]? = some name
      rw [names_declare]
      exact (List.getElem?_append_left (List.getElem?_eq_some_iff.mp named).1).trans named
  | produce => rw [nameOf?_addProduction, named]
  | restart => exact named

theorem Grows.nameOf? (grows : Grows allowed before after) {id : Nat} {name : String}
    (named : before.grammar.nameOf? id = some name) : after.grammar.nameOf? id = some name := by
  induction grows with
  | refl => exact named
  | tail others step ih => exact step.nameOf? ih

theorem Grows.mem_names (grows : Grows allowed before after) {name : String}
    (declared : name ∈ before.names) : name ∈ after.names := by
  obtain ⟨id, named⟩ := PlainGrammar.mem_names_iff.mp declared
  exact PlainGrammar.mem_names_iff.mpr ⟨id, grows.nameOf? named⟩

theorem Grows.covers (grows : Grows allowed before after) {symbols : List Symbol}
    (covered : before.Covers symbols) : after.Covers symbols :=
  fun name inside => grows.mem_names (covered name inside)

theorem Grows.size_le (grows : Grows allowed before after) :
    before.nonTerminals.size ≤ after.nonTerminals.size := by
  induction grows with
  | refl => exact Nat.le_refl _
  | tail others step ih =>
      apply Nat.le_trans ih
      cases step with
      | declare => simp only [declare, Array.size_push, Nat.le_add_right]
      | produce => exact Nat.le_of_eq (size_addProduction ..).symm
      | restart => exact Nat.le_refl _

theorem Grows.mono {wider : Nat → Prop} (grows : Grows allowed before after)
    (weaker : ∀ id, allowed id → wider id) : Grows wider before after := by
  refine Relation.ReflTransGen.mono ?_ before after grows
  intro left right step
  cases step with
  | declare synthetic suffix free => exact .declare synthetic suffix free
  | produce may inRange covered => exact .produce (weaker _ may) inRange covered
  | restart suffix => exact .restart suffix

theorem bodiesOf_addProduction {id : Nat} {name : String} (rhs : List Symbol)
    (named : lowering.grammar.nameOf? id = some name) (other : String) :
    (lowering.addProduction id rhs).grammar.bodiesOf other =
      lowering.grammar.bodiesOf other ++ if name = other then [rhs] else [] := by
  simp only [PlainGrammar.bodiesOf, grammar, productions_addProduction rhs named,
    Array.toList_push, List.filter_append, List.map_append]
  by_cases same : name = other
  · simp [same]
  · simp [same]

theorem bodiesOf_eq_nil (consistent : lowering.grammar.Consistent) {name : String}
    (free : name ∉ lowering.names) : lowering.grammar.bodiesOf name = [] := by
  rw [List.eq_nil_iff_forall_not_mem]
  intro rhs member
  exact free (consistent.owned _ (PlainGrammar.mem_bodiesOf.mp member))

theorem Step.bodiesOf (step : Step allowed before after)
    (consistent : before.grammar.Consistent) {id : Nat} {name : String}
    (named : before.grammar.nameOf? id = some name) (kept : ¬ allowed id) :
    after.grammar.bodiesOf name = before.grammar.bodiesOf name := by
  cases step with
  | declare => rfl
  | @produce other rhs may inRange covered =>
      have otherNamed := PlainGrammar.nameOf?_of_lt before.grammar inRange
      have different : before.grammar.nameOf other ≠ name := by
        intro same
        rw [same] at otherNamed
        exact kept (consistent.nameOf?_inj named otherNamed ▸ may)
      rw [bodiesOf_addProduction rhs otherNamed, if_neg different, List.append_nil]
  | restart => rfl

theorem Grows.bodiesOf (grows : Grows allowed before after)
    (consistent : before.grammar.Consistent) {id : Nat} {name : String}
    (named : before.grammar.nameOf? id = some name) (kept : ¬ allowed id) :
    after.grammar.bodiesOf name = before.grammar.bodiesOf name := by
  induction grows with
  | refl => rfl
  | tail others step ih =>
      rw [step.bodiesOf (Grows.consistent others consistent) (Grows.nameOf? others named) kept, ih]

/-! ### Fresh names -/

theorem syntheticName_inj {owner : String} {left right : Nat}
    (same : syntheticName owner left = syntheticName owner right) : left = right := by
  have digits := congrArg String.toList ((String.append_right_inj _).mp same)
  rw [Nat.toString_eq_ofList_toDigits, Nat.toString_eq_ofList_toDigits, String.toList_ofList,
    String.toList_ofList] at digits
  have values := congrArg (Nat.ofDigitChars 10 · 0) digits
  simpa only [Nat.ofDigitChars_ten_toDigits] using values

theorem isTaken_iff {name : String} : lowering.isTaken name = true ↔ name ∈ lowering.names := by
  simp only [isTaken, names, PlainGrammar.names, grammar, Array.any_eq_true', beq_iff_eq,
    List.mem_map, Array.mem_toList_iff]

theorem freeSuffix_free_or_taken (lowering : Lowering) (owner : String) (fuel suffix : Nat) :
    syntheticName owner (lowering.freeSuffix owner fuel suffix) ∉ lowering.names ∨
      lowering.freeSuffix owner fuel suffix = suffix + fuel ∧
        ∀ offset < fuel, syntheticName owner (suffix + offset) ∈ lowering.names := by
  induction fuel generalizing suffix with
  | zero => exact Or.inr ⟨rfl, fun offset impossible => absurd impossible (Nat.not_lt_zero _)⟩
  | succ fuel ih =>
      unfold freeSuffix
      split
      case isTrue taken =>
        rcases ih (suffix + 1) with free | ⟨last, all⟩
        · exact Or.inl free
        · refine Or.inr ⟨by omega, ?_⟩
          intro offset bound
          cases offset with
          | zero => exact isTaken_iff.mp taken
          | succ offset =>
              have earlier := all offset (by omega)
              rwa [show suffix + 1 + offset = suffix + (offset + 1) by omega] at earlier
      case isFalse free => exact Or.inl fun member => free (isTaken_iff.mpr member)

/-- There are fewer names than numbers tried, so some number is free. -/
theorem nextSuffix_free (lowering : Lowering) (owner : String) :
    syntheticName owner (lowering.nextSuffix owner) ∉ lowering.names := by
  rcases freeSuffix_free_or_taken lowering owner lowering.nonTerminals.size lowering.suffix with
    free | ⟨last, all⟩
  · exact free
  · intro taken
    have tried : (List.range (lowering.nonTerminals.size + 1)).map
        (fun offset => syntheticName owner (lowering.suffix + offset)) ⊆ lowering.names := by
      intro name member
      obtain ⟨offset, bound, rfl⟩ := List.mem_map.mp member
      by_cases inside : offset < lowering.nonTerminals.size
      · exact all offset inside
      · have equal : lowering.suffix + offset = lowering.nextSuffix owner := by
          rw [List.mem_range] at bound
          rw [nextSuffix, last]
          omega
        rw [equal]
        exact taken
    have different : ((List.range (lowering.nonTerminals.size + 1)).map
        fun offset => syntheticName owner (lowering.suffix + offset)).Nodup :=
      List.Pairwise.map _ (fun left right apart same => apart (by
        have := syntheticName_inj same
        omega)) List.nodup_range
    have fewer := different.length_le_of_subset tried
    simp only [List.length_map, List.length_range, names, PlainGrammar.names, grammar,
      Array.length_toList] at fewer
    omega

theorem fresh_step (allowed : Nat → Prop) (lowering : Lowering) (owner : String) :
    Step allowed lowering (lowering.fresh owner).2 :=
  .declare true _ (nextSuffix_free lowering owner)

theorem nameOf?_fresh (lowering : Lowering) (owner : String) :
    (lowering.fresh owner).2.grammar.nameOf? (lowering.fresh owner).1.1 =
      some (lowering.fresh owner).1.2 := by
  simp only [fresh, grammar, PlainGrammar.nameOf?, declare, Array.getElem?_push_size,
    Option.map_some]

/-! ### The operators, with the names that they get -/

section Operators

variable (owner : String) (before : Lowering) (inner : Rule)

theorem flatten_alternative (items : List Rule) :
    flatten owner before (.alternative items) =
      ([.nonTerminal (before.fresh owner).1.2],
        addBranches owner (before.fresh owner).1.1 (before.fresh owner).2 items) := rfl

theorem flatten_optional :
    flatten owner before (.optional inner) =
      ([.nonTerminal (before.fresh owner).1.2],
        ((flatten owner (before.fresh owner).2 inner).2.addProduction (before.fresh owner).1.1
          (flatten owner (before.fresh owner).2 inner).1).addProduction
            (before.fresh owner).1.1 []) := rfl

theorem flatten_zeroOrMore :
    flatten owner before (.zeroOrMore inner) =
      ([.nonTerminal (before.fresh owner).1.2],
        ((flatten owner (before.fresh owner).2 inner).2.addProduction (before.fresh owner).1.1
          ((flatten owner (before.fresh owner).2 inner).1 ++
            [.nonTerminal (before.fresh owner).1.2])).addProduction
            (before.fresh owner).1.1 []) := rfl

theorem flatten_oneOrMore :
    flatten owner before (.oneOrMore inner) =
      let head := before.fresh owner
      let tail := head.2.fresh owner
      let body := flatten owner tail.2 inner
      ([.nonTerminal head.1.2],
        ((body.2.addProduction head.1.1 (body.1 ++ [.nonTerminal tail.1.2])).addProduction
          tail.1.1 (body.1 ++ [.nonTerminal tail.1.2])).addProduction tail.1.1 []) := rfl

theorem addBranches_cons (id : Nat) (item : Rule) (rest : List Rule) :
    addBranches owner id before (item :: rest) =
      addBranches owner id
        ((flatten owner before item).2.addProduction id (flatten owner before item).1) rest := rfl

end Operators

end Lowering

end Predictive
