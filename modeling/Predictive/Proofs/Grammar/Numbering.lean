/-
The numbers and names that lowering gives. A synthetic name tells its rule and its
number apart, the search for one stops at the first that is free, and what lowering
adds for a rule depends only on which synthetic names of that rule are taken. So the
rules keep their order, everything after them is synthetic, and every production is
listed once, under the name it carries.
-/

import Mathlib.Logic.ExistsUnique
import Predictive.Proofs.Grammar.Realization

namespace Predictive

namespace PlainGrammar.Consistent

variable {grammar : PlainGrammar}

theorem existsUnique_productionIds (consistent : grammar.Consistent) {number : Nat}
    (inRange : number < grammar.productions.size) : ∃! id, number ∈ grammar.productionIds id := by
  have found := Array.getElem?_eq_getElem inRange
  obtain ⟨id, named⟩ := mem_names_iff.mp (consistent.owned _ (Array.mem_of_getElem? found))
  apply existsUnique_of_exists_of_unique
  · exact ⟨id, (consistent.listed named number).mpr ⟨_, found⟩⟩
  · intro first second inFirst inSecond
    obtain ⟨_, firstNamed, firstFound⟩ := consistent.production_of_mem_productionIds inFirst
    obtain ⟨_, secondNamed, secondFound⟩ := consistent.production_of_mem_productionIds inSecond
    have same := congrArg Production.lhs (Option.some.inj (firstFound.symm.trans secondFound))
    exact consistent.nameOf?_inj firstNamed (secondNamed.trans (congrArg some same.symm))

end PlainGrammar.Consistent

namespace Lowering

/-! ### Synthetic names -/

theorem eq_of_append_separator {left right leftDigits rightDigits : List Char} {separator : Char}
    (same : left ++ separator :: leftDigits = right ++ separator :: rightDigits)
    (leftLast : separator ∉ leftDigits) (rightLast : separator ∉ rightDigits) : left = right := by
  rcases List.append_eq_append_iff.mp same with ⟨between, longer, digits⟩ | ⟨between, longer, digits⟩
  · cases between with
    | nil => exact (longer.trans (List.append_nil _)).symm
    | cons head rest =>
        cases digits
        exact absurd (List.mem_append_right _ List.mem_cons_self) leftLast
  · cases between with
    | nil => exact longer.trans (List.append_nil _)
    | cons head rest =>
        cases digits
        exact absurd (List.mem_append_right _ List.mem_cons_self) rightLast

theorem not_mem_digits (number : Nat) : '#' ∉ (toString number).toList := by
  rw [Nat.toString_eq_ofList_toDigits, String.toList_ofList]
  intro member
  have digit := Nat.isDigit_of_mem_toDigits (by decide) (by decide) member
  revert digit
  decide

theorem owner_eq_of_syntheticName {owner other : String} {left right : Nat}
    (same : syntheticName owner left = syntheticName other right) : owner = other := by
  have texts := congrArg String.toList same
  simp only [syntheticName, String.toList_append, List.append_assoc] at texts
  exact String.toList_inj.mp
    (eq_of_append_separator texts (not_mem_digits left) (not_mem_digits right))

theorem le_freeSuffix (lowering : Lowering) (owner : String) (fuel suffix : Nat) :
    suffix ≤ lowering.freeSuffix owner fuel suffix := by
  induction fuel generalizing suffix with
  | zero => exact Nat.le_refl _
  | succ fuel ih =>
      unfold freeSuffix
      split
      · exact Nat.le_trans (Nat.le_succ suffix) (ih (suffix + 1))
      · exact Nat.le_refl _

theorem taken_of_lt_freeSuffix (lowering : Lowering) (owner : String) (fuel suffix : Nat) :
    ∀ number, suffix ≤ number → number < lowering.freeSuffix owner fuel suffix →
      syntheticName owner number ∈ lowering.names := by
  induction fuel generalizing suffix with
  | zero =>
      intro number above below
      exact absurd below (Nat.not_lt.mpr above)
  | succ fuel ih =>
      intro number above below
      unfold freeSuffix at below
      split at below
      case isTrue taken =>
        by_cases first : number = suffix
        · rw [first]
          exact isTaken_iff.mp taken
        · exact ih (suffix + 1) number (by omega) below
      case isFalse => exact absurd below (Nat.not_lt.mpr above)

/-- A number is the first from the next one on whose synthetic name is free. -/
structure FirstFree (lowering : Lowering) (owner : String) (number : Nat) : Prop where
  least : lowering.suffix ≤ number
  free : syntheticName owner number ∉ lowering.names
  taken : ∀ earlier, lowering.suffix ≤ earlier → earlier < number →
    syntheticName owner earlier ∈ lowering.names

theorem nextSuffix_firstFree (lowering : Lowering) (owner : String) :
    lowering.FirstFree owner (lowering.nextSuffix owner) where
  least := le_freeSuffix lowering owner _ _
  free := nextSuffix_free lowering owner
  taken := taken_of_lt_freeSuffix lowering owner _ _

/-! ### What lowering adds for a rule -/

/-- The names of the non-terminals, each with whether it is synthetic. -/
def labels (lowering : Lowering) : List (String × Bool) :=
  lowering.nonTerminals.toList.map fun nonTerminal => (nonTerminal.name, nonTerminal.synthetic)

theorem map_labels (lowering : Lowering) : lowering.labels.map Prod.fst = lowering.names := by
  simp only [labels, names, grammar, PlainGrammar.names, List.map_map, Function.comp_def]

theorem of_label {lowering : Lowering} {id : Nat} {name : String} {synthetic : Bool}
    (found : lowering.labels[id]? = some (name, synthetic)) :
    lowering.grammar.nameOf? id = some name ∧ lowering.grammar.isSynthetic id = synthetic := by
  rw [labels, List.getElem?_map, Array.getElem?_toList] at found
  obtain ⟨nonTerminal, present, same⟩ := Option.map_eq_some_iff.mp found
  cases same
  simp only [PlainGrammar.nameOf?, PlainGrammar.isSynthetic, grammar, present, Option.map_some,
    and_self]

theorem exists_label (lowering : Lowering) {id : Nat} (inRange : id < lowering.nonTerminals.size) :
    ∃ name synthetic, lowering.labels[id]? = some (name, synthetic) := by
  rw [labels, List.getElem?_map, Array.getElem?_toList, Array.getElem?_eq_getElem inRange]
  exact ⟨_, _, rfl⟩

theorem labels_declare (lowering : Lowering) (name : String) (synthetic : Bool) (suffix : Nat) :
    labels { lowering.declare name synthetic with suffix } =
      lowering.labels ++ [(name, synthetic)] := by
  simp only [labels, declare, Array.toList_push, List.map_append, List.map_cons, List.map_nil]

theorem labels_addProduction (lowering : Lowering) (id : Nat) (rhs : List Symbol) :
    (lowering.addProduction id rhs).labels = lowering.labels := by
  apply List.ext_getElem?
  intro other
  simp only [labels, addProduction, List.getElem?_map, Array.getElem?_toList,
    Array.getElem?_modify]
  split
  · rw [Option.map_map]
    rfl
  · rfl

/-- Synthetic non-terminals of a rule and productions have been added, in this order. -/
structure Adds (owner : String) (before : Lowering) (names : List String)
    (productions : List Production) (after : Lowering) : Prop where
  labels : after.labels = before.labels ++ names.map fun name => (name, true)
  productions : after.productions.toList = before.productions.toList ++ productions
  owned : ∀ name ∈ names, ∃ number, name = syntheticName owner number

/-- Two lowerings are at the same point for a rule: they try the same number next and
have the same synthetic names of the rule taken. -/
structure Alike (owner : String) (left right : Lowering) : Prop where
  suffix : left.suffix = right.suffix
  taken : ∀ number, syntheticName owner number ∈ left.names ↔
    syntheticName owner number ∈ right.names

structure InStep (owner : String) (left right leftAfter rightAfter : Lowering) : Prop where
  alike : Alike owner leftAfter rightAfter
  added : ∃ names productions, Adds owner left names productions leftAfter ∧
    Adds owner right names productions rightAfter

variable {owner : String} {before middle after : Lowering}
  {left right leftMiddle rightMiddle leftAfter rightAfter : Lowering}
  {names others : List String} {productions more : List Production}

theorem Adds.refl (owner : String) (lowering : Lowering) : Adds owner lowering [] [] lowering where
  labels := (List.append_nil _).symm
  productions := (List.append_nil _).symm
  owned := fun _ member => absurd member List.not_mem_nil

theorem Adds.trans (first : Adds owner before names productions middle)
    (second : Adds owner middle others more after) :
    Adds owner before (names ++ others) (productions ++ more) after where
  labels := by rw [second.labels, first.labels, List.map_append, List.append_assoc]
  productions := by rw [second.productions, first.productions, List.append_assoc]
  owned := by
    intro name member
    rcases List.mem_append.mp member with early | late
    · exact first.owned name early
    · exact second.owned name late

theorem Adds.names_eq (adds : Adds owner before names productions after) :
    after.names = before.names ++ names := by
  rw [← map_labels, ← map_labels, adds.labels, List.map_append, List.map_map]
  exact congrArg _ (List.map_id names)

theorem Adds.unique (adds : Adds owner before names productions after)
    (again : Adds owner before others more after) :
    (names, productions) = (others, more) := by
  have sameNames := adds.names_eq.symm.trans again.names_eq
  have sameProductions := adds.productions.symm.trans again.productions
  rw [List.append_cancel_left sameNames, List.append_cancel_left sameProductions]

theorem Adds.nameOf? (adds : Adds owner before names productions after) {id : Nat} {name : String}
    (named : before.grammar.nameOf? id = some name) : after.grammar.nameOf? id = some name := by
  rw [← PlainGrammar.names_getElem?] at named ⊢
  change after.names[id]? = some name
  rw [adds.names_eq]
  exact (List.getElem?_append_left (List.getElem?_eq_some_iff.mp named).1).trans named

theorem adds_fresh (owner : String) (lowering : Lowering) :
    Adds owner lowering [(lowering.fresh owner).1.2] [] (lowering.fresh owner).2 where
  labels := labels_declare lowering _ true _
  productions := (List.append_nil _).symm
  owned := by
    intro name member
    exact ⟨_, List.mem_singleton.mp member⟩

theorem adds_addProduction (owner : String) {lowering : Lowering} {id : Nat} {name : String}
    (rhs : List Symbol) (named : lowering.grammar.nameOf? id = some name) :
    Adds owner lowering [] [⟨name, rhs⟩] (lowering.addProduction id rhs) where
  labels := (labels_addProduction lowering id rhs).trans (List.append_nil _).symm
  productions := by rw [productions_addProduction rhs named, Array.toList_push]
  owned := fun _ member => absurd member List.not_mem_nil

theorem Alike.nextSuffix_eq (alike : Alike owner left right) :
    left.nextSuffix owner = right.nextSuffix owner := by
  have inLeft := nextSuffix_firstFree left owner
  have inRight := nextSuffix_firstFree right owner
  -- Whichever search stopped earlier stopped at a name that the other one passed over.
  rcases Nat.lt_trichotomy (left.nextSuffix owner) (right.nextSuffix owner) with less | same | more
  · have passed := inRight.taken _ (alike.suffix ▸ inLeft.least) less
    exact absurd ((alike.taken _).mpr passed) inLeft.free
  · exact same
  · have passed := inLeft.taken _ (alike.suffix.symm ▸ inRight.least) more
    exact absurd ((alike.taken _).mp passed) inRight.free

theorem Alike.fresh_eq (alike : Alike owner left right) :
    (left.fresh owner).1.2 = (right.fresh owner).1.2 :=
  congrArg (syntheticName owner) alike.nextSuffix_eq

theorem Alike.taken_after (alike : Alike owner left right)
    (inLeft : Adds owner left names productions leftAfter)
    (inRight : Adds owner right names productions rightAfter) (number : Nat) :
    syntheticName owner number ∈ leftAfter.names ↔
      syntheticName owner number ∈ rightAfter.names := by
  rw [inLeft.names_eq, inRight.names_eq, List.mem_append, List.mem_append, alike.taken]

namespace InStep

theorem refl (alike : Alike owner left right) : InStep owner left right left right :=
  ⟨alike, [], [], .refl owner left, .refl owner right⟩

theorem trans (first : InStep owner left right leftMiddle rightMiddle)
    (second : InStep owner leftMiddle rightMiddle leftAfter rightAfter) :
    InStep owner left right leftAfter rightAfter := by
  obtain ⟨names, productions, inLeft, inRight⟩ := first.added
  obtain ⟨others, more, leftMore, rightMore⟩ := second.added
  exact ⟨second.alike, _, _, inLeft.trans leftMore, inRight.trans rightMore⟩

theorem nameOf? (inStep : InStep owner left right leftAfter rightAfter) {leftId rightId : Nat}
    {name : String} (leftNamed : left.grammar.nameOf? leftId = some name)
    (rightNamed : right.grammar.nameOf? rightId = some name) :
    leftAfter.grammar.nameOf? leftId = some name ∧
      rightAfter.grammar.nameOf? rightId = some name := by
  obtain ⟨names, productions, inLeft, inRight⟩ := inStep.added
  exact ⟨inLeft.nameOf? leftNamed, inRight.nameOf? rightNamed⟩

theorem fresh (alike : Alike owner left right) :
    InStep owner left right (left.fresh owner).2 (right.fresh owner).2 := by
  have inRight := adds_fresh owner right
  rw [← alike.fresh_eq] at inRight
  refine ⟨⟨?_, alike.taken_after (adds_fresh owner left) inRight⟩, _, _, adds_fresh owner left,
    inRight⟩
  exact congrArg (· + 1) alike.nextSuffix_eq

theorem addProduction (alike : Alike owner left right) {leftId rightId : Nat} {name : String}
    (leftNamed : left.grammar.nameOf? leftId = some name)
    (rightNamed : right.grammar.nameOf? rightId = some name) (rhs : List Symbol) :
    InStep owner left right (left.addProduction leftId rhs) (right.addProduction rightId rhs) := by
  have inLeft := adds_addProduction owner rhs leftNamed
  have inRight := adds_addProduction owner rhs rightNamed
  exact ⟨⟨alike.suffix, alike.taken_after inLeft inRight⟩, _, _, inLeft, inRight⟩

theorem operator (inStep : InStep owner left right leftAfter rightAfter) {leftId rightId : Nat}
    {name : String} (leftNamed : leftAfter.grammar.nameOf? leftId = some name)
    (rightNamed : rightAfter.grammar.nameOf? rightId = some name) (rhs : List Symbol) :
    InStep owner left right ((leftAfter.addProduction leftId rhs).addProduction leftId [])
      ((rightAfter.addProduction rightId rhs).addProduction rightId []) := by
  have once := addProduction inStep.alike leftNamed rightNamed rhs
  have named := once.nameOf? leftNamed rightNamed
  exact inStep.trans (once.trans (addProduction once.alike named.1 named.2 []))

end InStep

mutual

/-- Two lowerings that are alike flatten a rule body to the same string. -/
theorem flatten_inStep (owner : String) (left right : Lowering) (rule : Rule)
    (alike : Alike owner left right) :
    (flatten owner left rule).1 = (flatten owner right rule).1 ∧
      InStep owner left right (flatten owner left rule).2 (flatten owner right rule).2 := by
  have declared := InStep.fresh alike
  have same := alike.fresh_eq
  have leftNamed := nameOf?_fresh left owner
  have rightNamed := nameOf?_fresh right owner
  rw [← same] at rightNamed
  have single : [Symbol.nonTerminal (left.fresh owner).1.2] =
      [Symbol.nonTerminal (right.fresh owner).1.2] := by rw [same]
  cases rule with
  | terminal name => exact ⟨rfl, .refl alike⟩
  | nonTerminal name => exact ⟨rfl, .refl alike⟩
  | sequence items => exact flattenAll_inStep owner left right items alike
  | alternative items =>
      rw [flatten_alternative, flatten_alternative]
      have branches := addBranches_inStep owner _ _ items declared.alike leftNamed rightNamed
      exact ⟨single, declared.trans branches⟩
  | optional inner =>
      rw [flatten_optional, flatten_optional]
      have body := flatten_inStep owner _ _ inner declared.alike
      have named := body.2.nameOf? leftNamed rightNamed
      rw [← body.1]
      exact ⟨single, (declared.trans body.2).operator named.1 named.2 _⟩
  | zeroOrMore inner =>
      rw [flatten_zeroOrMore, flatten_zeroOrMore]
      have body := flatten_inStep owner _ _ inner declared.alike
      have named := body.2.nameOf? leftNamed rightNamed
      rw [← body.1, ← same]
      exact ⟨rfl, (declared.trans body.2).operator named.1 named.2 _⟩
  | oneOrMore inner =>
      rw [flatten_oneOrMore, flatten_oneOrMore]
      have tails := InStep.fresh declared.alike
      have tailSame := declared.alike.fresh_eq
      have leftTail := nameOf?_fresh (left.fresh owner).2 owner
      have rightTail := nameOf?_fresh (right.fresh owner).2 owner
      rw [← tailSame] at rightTail
      have body := flatten_inStep owner _ _ inner tails.alike
      have named := (tails.trans body.2).nameOf? leftNamed rightNamed
      have tailNamed := body.2.nameOf? leftTail rightTail
      simp only [← body.1, ← same, ← tailSame]
      have head := InStep.addProduction body.2.alike named.1 named.2
        ((flatten owner ((left.fresh owner).2.fresh owner).2 inner).1 ++
          [.nonTerminal ((left.fresh owner).2.fresh owner).1.2])
      have headed := declared.trans (tails.trans (body.2.trans head))
      have later := head.nameOf? tailNamed.1 tailNamed.2
      exact ⟨trivial, headed.operator later.1 later.2 _⟩

theorem flattenAll_inStep (owner : String) (left right : Lowering) (items : List Rule)
    (alike : Alike owner left right) :
    (flattenAll owner left items).1 = (flattenAll owner right items).1 ∧
      InStep owner left right (flattenAll owner left items).2 (flattenAll owner right items).2 := by
  cases items with
  | nil => exact ⟨rfl, .refl alike⟩
  | cons item rest =>
      have first := flatten_inStep owner left right item alike
      have others := flattenAll_inStep owner _ _ rest first.2.alike
      exact ⟨congrArg₂ _ first.1 others.1, first.2.trans others.2⟩

theorem addBranches_inStep (owner : String) (left right : Lowering) (items : List Rule)
    (alike : Alike owner left right) {leftId rightId : Nat} {name : String}
    (leftNamed : left.grammar.nameOf? leftId = some name)
    (rightNamed : right.grammar.nameOf? rightId = some name) :
    InStep owner left right (addBranches owner leftId left items)
      (addBranches owner rightId right items) := by
  cases items with
  | nil => exact .refl alike
  | cons item rest =>
      have body := flatten_inStep owner left right item alike
      have named := body.2.nameOf? leftNamed rightNamed
      have produced := InStep.addProduction body.2.alike named.1 named.2 (flatten owner left item).1
      have later := produced.nameOf? named.1 named.2
      have branches := addBranches_inStep owner _ _ rest produced.alike later.1 later.2
      rw [addBranches_cons, addBranches_cons, ← body.1]
      exact body.2.trans (produced.trans branches)

end

/-! ### Whole grammars -/

/-- What one rule adds to a lowering: its synthetic names and its productions. -/
def block (reference : Lowering) (entry : String × Rule) : List String × List Production :=
  let after := addBranches entry.1 ((reference.grammar.idOf? entry.1).getD 0) reference
    (topBranches entry.2)
  (after.names.drop reference.names.length, after.productions.toList.drop reference.productions.size)

variable {reference : Lowering}

theorem adds_block (consistent : reference.grammar.Consistent) {entry : String × Rule} {id : Nat}
    (known : entry.1 ∈ reference.names) (alike : Alike entry.1 before reference)
    (named : before.grammar.nameOf? id = some entry.1) :
    Adds entry.1 before (block reference entry).1 (block reference entry).2
      (addBranches entry.1 id before (topBranches entry.2)) := by
  obtain ⟨place, found⟩ := consistent.exists_idOf? known
  have placed := consistent.idOf?_eq_some_iff.mp found
  obtain ⟨names, productions, here, there⟩ :=
    (addBranches_inStep entry.1 before reference (topBranches entry.2) alike named placed).added
  have sameNames : (block reference entry).1 = names := by
    simp only [block, found, Option.getD_some, there.names_eq, List.drop_left]
  have sameProductions : (block reference entry).2 = productions := by
    simp only [block, found, Option.getD_some, there.productions, ← Array.length_toList,
      List.drop_left]
  rw [sameNames, sameProductions]
  exact here

/-- The rules that are left find their names in their places and the synthetic names of
each as free as in the reference. -/
structure Unstarted (reference : Lowering) (id : Nat) (rules : List (String × Rule))
    (before : Lowering) : Prop where
  known : ∀ entry ∈ rules, entry.1 ∈ reference.names
  distinct : (rules.map Prod.fst).Nodup
  alike : ∀ entry ∈ rules, Alike entry.1 { before with suffix := 1 } reference
  named : ∀ offset entry, rules[offset]? = some entry →
    before.grammar.nameOf? (id + offset) = some entry.1

theorem Unstarted.advance {id : Nat} {entry : String × Rule} {rest : List (String × Rule)}
    (unstarted : Unstarted reference id (entry :: rest) before)
    (adds : Adds entry.1 { before with suffix := 1 } names productions after) :
    Unstarted reference (id + 1) rest after where
  known := fun other member => unstarted.known other (List.mem_cons_of_mem _ member)
  distinct := (List.nodup_cons.mp unstarted.distinct).2
  alike := by
    intro other member
    have old := unstarted.alike other (List.mem_cons_of_mem _ member)
    refine ⟨old.suffix, fun number => ?_⟩
    have foreign : syntheticName other.1 number ∉ names := by
      intro added
      obtain ⟨place, same⟩ := adds.owned _ added
      have equal := owner_eq_of_syntheticName same
      apply (List.nodup_cons.mp unstarted.distinct).1
      exact equal ▸ List.mem_map_of_mem member
    rw [← old.taken]
    change _ ∈ after.names ↔ _ ∈ before.names
    rw [adds.names_eq, List.mem_append, or_iff_left foreign]
    exact Iff.rfl
  named := by
    intro offset other found
    rw [Nat.add_assoc, Nat.add_comm 1 offset]
    exact adds.nameOf? (unstarted.named (offset + 1) other found)

theorem addRules_blocks (consistent : reference.grammar.Consistent) (id : Nat) (before : Lowering)
    (rules : List (String × Rule)) (unstarted : Unstarted reference id rules before) :
    (addRules id before rules).labels = before.labels ++
        (rules.flatMap fun entry => (block reference entry).1).map (fun name => (name, true)) ∧
      (addRules id before rules).productions.toList = before.productions.toList ++
        rules.flatMap fun entry => (block reference entry).2 := by
  induction rules generalizing id before with
  | nil => exact ⟨(List.append_nil _).symm, (List.append_nil _).symm⟩
  | cons entry rest ih =>
      have adds := adds_block consistent (unstarted.known entry List.mem_cons_self)
        (unstarted.alike entry List.mem_cons_self) (unstarted.named 0 entry rfl)
      have later := ih (id + 1) _ (unstarted.advance adds)
      rw [List.flatMap_cons, List.flatMap_cons, List.map_append, ← List.append_assoc,
        ← List.append_assoc]
      exact ⟨later.1.trans (congrArg (· ++ _) adds.labels),
        later.2.trans (congrArg (· ++ _) adds.productions)⟩

theorem labels_declareAll (names : List String) (before : Lowering) :
    (before.declareAll names).labels = before.labels ++ names.map fun name => (name, false) := by
  induction names generalizing before with
  | nil => exact (List.append_nil _).symm
  | cons name rest ih =>
      have first := labels_declare before name false before.suffix
      calc (before.declareAll (name :: rest)).labels
          = (before.declare name false).labels ++ rest.map fun name => (name, false) := ih _
        _ = before.labels ++ [(name, false)] ++ rest.map fun name => (name, false) :=
            congrArg (· ++ _) first
        _ = before.labels ++ (name :: rest).map fun name => (name, false) :=
            List.append_assoc _ _ _

end Lowering

namespace Grammar

variable (source : Grammar)

def reference : Lowering := { source.declared with suffix := 1 }

/-- The synthetic names and the productions of one rule. -/
def block (entry : String × Rule) : List String × List Production :=
  Lowering.block source.reference entry

theorem consistent_reference : source.reference.grammar.Consistent :=
  (Lowering.Step.restart 1 : Lowering.Step (fun _ => False) _ _).consistent source.declared_spec.1

theorem names_reference : source.reference.names = source.names := source.declared_spec.2.1

theorem unstarted_declared :
    Lowering.Unstarted source.reference 0 source.rules source.declared where
  known := fun entry member => by
    rw [names_reference]
    exact List.mem_map_of_mem member
  distinct := source.distinct
  alike := fun _ _ => ⟨rfl, fun _ => Iff.rfl⟩
  named := fun offset entry found =>
    source.pending_declared.named offset entry.1 entry.2 found

/-- The rules come first and in their order; the synthetic names follow, rule by rule. -/
theorem labels_lowered :
    source.lowered.labels = source.names.map (fun name => (name, false)) ++
      (source.rules.flatMap fun entry => (source.block entry).1).map fun name => (name, true) := by
  have blocks := Lowering.addRules_blocks source.consistent_reference 0 source.declared source.rules
    source.unstarted_declared
  exact blocks.1.trans (congrArg (· ++ _) (Lowering.labels_declareAll source.names Lowering.empty))

theorem productions_lower :
    source.lower.productions.toList = source.rules.flatMap fun entry => (source.block entry).2 := by
  have blocks := Lowering.addRules_blocks source.consistent_reference 0 source.declared source.rules
    source.unstarted_declared
  have none : source.declared.productions.toList = [] := by rw [source.declared_spec.2.2]
  exact blocks.2.trans (congrArg (· ++ _) none)

theorem names_lower :
    source.lower.names =
      source.names ++ source.rules.flatMap fun entry => (source.block entry).1 := by
  have names := source.lowered.map_labels
  rw [source.labels_lowered, List.map_append, List.map_map, List.map_map] at names
  exact names.symm.trans (congrArg₂ _ (List.map_id _) (List.map_id _))

theorem exists_adds_block {entry : String × Rule} (member : entry ∈ source.rules) :
    ∃ place, source.reference.grammar.nameOf? place = some entry.1 ∧
      Lowering.Adds entry.1 source.reference (source.block entry).1 (source.block entry).2
        (Lowering.addBranches entry.1 place source.reference (Lowering.topBranches entry.2)) := by
  have known := source.unstarted_declared.known entry member
  obtain ⟨place, found⟩ := source.consistent_reference.exists_idOf? known
  have placed := source.consistent_reference.idOf?_eq_some_iff.mp found
  exact ⟨place, placed,
    Lowering.adds_block source.consistent_reference known ⟨rfl, fun _ => Iff.rfl⟩ placed⟩

theorem owned_block {entry : String × Rule} (member : entry ∈ source.rules) {name : String}
    (inside : name ∈ (source.block entry).1) :
    ∃ number, name = Lowering.syntheticName entry.1 number := by
  obtain ⟨place, _, adds⟩ := source.exists_adds_block member
  exact adds.owned name inside

/-- The numbers of a plain form fit its grammar: the rules are the first non-terminals and
the others are synthetic, each production is listed by the non-terminal that it
belongs to and by no other, and every name in use has a number. -/
structure Numbers (plain : PlainGrammar) : Prop where
  distinct : plain.names.Nodup
  indexed : ∀ id < plain.nonTerminals.size, plain.idOf? (plain.nameOf id) = some id
  declared : ∀ id name, source.names[id]? = some name →
    plain.nameOf? id = some name ∧ plain.isSynthetic id = false
  invented : ∀ id < plain.nonTerminals.size, source.names.length ≤ id →
    plain.isSynthetic id = true ∧
      ∃ owner ∈ source.names, ∃ number, plain.nameOf id = Lowering.syntheticName owner number
  listed : ∀ number < plain.productions.size, ∃! id, number ∈ plain.productionIds id
  carried : ∀ id, ∀ number ∈ plain.productionIds id, number < plain.productions.size ∧
    plain.nameOf? id = some (plain.production number).lhs
  ascending : ∀ id, (plain.productionIds id).Pairwise (· < ·)
  closed : ∀ production ∈ plain.productions, ∀ name, .nonTerminal name ∈ production.rhs →
    ∃ id, plain.idOf? name = some id
  started : plain.idOf? source.start = some plain.start

theorem invented_lower {id : Nat} (inRange : id < source.lower.nonTerminals.size)
    (above : source.names.length ≤ id) :
    source.lower.isSynthetic id = true ∧ ∃ owner ∈ source.names, ∃ number,
      source.lower.nameOf id = Lowering.syntheticName owner number := by
  obtain ⟨name, synthetic, found⟩ := source.lowered.exists_label inRange
  have parts := Lowering.of_label found
  rw [source.labels_lowered, List.getElem?_append_right (by rwa [List.length_map])] at found
  obtain ⟨invented, member, label⟩ := List.mem_map.mp (List.mem_of_getElem? found)
  cases label
  obtain ⟨entry, inRules, inside⟩ := List.mem_flatMap.mp member
  obtain ⟨number, same⟩ := source.owned_block inRules inside
  have named : source.lower.nameOf id = name := by
    rw [PlainGrammar.nameOf, show source.lower.nameOf? id = some name from parts.1,
      Option.getD_some]
  exact ⟨parts.2, entry.1, List.mem_map_of_mem inRules, number, named.trans same⟩

theorem declared_lower {id : Nat} {name : String} (found : source.names[id]? = some name) :
    source.lower.nameOf? id = some name ∧ source.lower.isSynthetic id = false := by
  have label : source.lowered.labels[id]? = some (name, false) := by
    have inRange := (List.getElem?_eq_some_iff.mp found).1
    rw [source.labels_lowered, List.getElem?_append_left (by rwa [List.length_map]),
      List.getElem?_map, found]
    rfl
  exact Lowering.of_label label

/-- The search for a synthetic name stops at the first one that is free, and the numbers
of the finished plain form fit the grammar. -/
theorem lower_numbers :
    source.Numbers source.lower ∧ ∀ (lowering : Lowering) (owner : String),
      lowering.FirstFree owner (lowering.nextSuffix owner) := by
  have consistent := source.lower_consistent
  refine ⟨?_, Lowering.nextSuffix_firstFree⟩
  constructor
  case distinct => exact consistent.distinct
  case indexed =>
    intro id inRange
    exact consistent.idOf?_eq_some_iff.mpr (PlainGrammar.nameOf?_of_lt source.lower inRange)
  case declared => exact fun _ _ => source.declared_lower
  case invented => exact fun _ => source.invented_lower
  case listed => exact fun _ => consistent.existsUnique_productionIds
  case carried =>
    intro id number member
    obtain ⟨rhs, named, found⟩ := consistent.production_of_mem_productionIds member
    have inRange := (Array.getElem?_eq_some_iff.mp found).1
    rw [PlainGrammar.production, Array.getD_eq_getD_getElem?, found]
    exact ⟨inRange, named⟩
  case ascending => exact source.lower_listsInOrder
  case closed =>
    intro production member name inside
    exact consistent.exists_idOf? (consistent.closed production member name inside)
  case started => exact consistent.idOf?_eq_some_iff.mpr source.nameOf?_lower_start

end Grammar

end Predictive
