/-
The FIRST set and the nullability of a rule body, read off the body itself, are those of
the string that stands for the body in the plain grammar. An option or a repetition
begins as its body does: what its synthetic non-terminal begins with is found by going
round the productions of that non-terminal any number of times.
-/

import Predictive.Proofs.Grammar.SententialForm

namespace Predictive

/-! ### Every rule body that is flattened -/

namespace Rule

mutual

/-- A rule body and every rule body inside it, from left to right. -/
def parts : Rule → List Rule
  | .terminal name => [.terminal name]
  | .nonTerminal name => [.nonTerminal name]
  | .sequence items => .sequence items :: partsOfAll items
  | .alternative items => .alternative items :: partsOfAll items
  | .optional inner => .optional inner :: parts inner
  | .zeroOrMore inner => .zeroOrMore inner :: parts inner
  | .oneOrMore inner => .oneOrMore inner :: parts inner

def partsOfAll : List Rule → List Rule
  | [] => []
  | item :: rest => parts item ++ partsOfAll rest

end

end Rule

namespace Lowering

mutual

/-- The rule bodies that are flattened along with a rule body, itself first, each with the
string that stands for it. -/
def flattenings (owner : String) (before : Lowering) : Rule → List (Rule × List Symbol)
  | .terminal name => [(.terminal name, (flatten owner before (.terminal name)).1)]
  | .nonTerminal name => [(.nonTerminal name, (flatten owner before (.nonTerminal name)).1)]
  | .sequence items =>
      (.sequence items, (flatten owner before (.sequence items)).1) ::
        flatteningsAll owner before items
  | .alternative items =>
      let ((id, _), declared) := before.fresh owner
      (.alternative items, (flatten owner before (.alternative items)).1) ::
        flatteningsEach owner id declared items
  | .optional inner =>
      (.optional inner, (flatten owner before (.optional inner)).1) ::
        flattenings owner (before.fresh owner).2 inner
  | .zeroOrMore inner =>
      (.zeroOrMore inner, (flatten owner before (.zeroOrMore inner)).1) ::
        flattenings owner (before.fresh owner).2 inner
  | .oneOrMore inner =>
      (.oneOrMore inner, (flatten owner before (.oneOrMore inner)).1) ::
        flattenings owner ((before.fresh owner).2.fresh owner).2 inner

def flatteningsAll (owner : String) (before : Lowering) : List Rule → List (Rule × List Symbol)
  | [] => []
  | item :: rest =>
      flattenings owner before item ++ flatteningsAll owner (flatten owner before item).2 rest

def flatteningsEach (owner : String) (id : Nat) (before : Lowering) :
    List Rule → List (Rule × List Symbol)
  | [] => []
  | item :: rest =>
      let (body, after) := flatten owner before item
      flattenings owner before item ++ flatteningsEach owner id (after.addProduction id body) rest

end

def flatteningsOfRules (id : Nat) (before : Lowering) :
    List (String × Rule) → List (Rule × List Symbol)
  | [] => []
  | (name, rule) :: rest =>
      flatteningsEach name id { before with suffix := 1 } (topBranches rule) ++
        flatteningsOfRules (id + 1)
          (addBranches name id { before with suffix := 1 } (topBranches rule)) rest

mutual

theorem map_flattenings (owner : String) (before : Lowering) (rule : Rule) :
    (flattenings owner before rule).map Prod.fst = rule.parts := by
  cases rule with
  | terminal name => rfl
  | nonTerminal name => rfl
  | sequence items => rw [flattenings, List.map_cons, map_flatteningsAll, Rule.parts]
  | alternative items => rw [flattenings, List.map_cons, map_flatteningsEach, Rule.parts]
  | optional inner => rw [flattenings, List.map_cons, map_flattenings, Rule.parts]
  | zeroOrMore inner => rw [flattenings, List.map_cons, map_flattenings, Rule.parts]
  | oneOrMore inner => rw [flattenings, List.map_cons, map_flattenings, Rule.parts]

theorem map_flatteningsAll (owner : String) (before : Lowering) (items : List Rule) :
    (flatteningsAll owner before items).map Prod.fst = Rule.partsOfAll items := by
  cases items with
  | nil => rfl
  | cons item rest =>
      rw [flatteningsAll, List.map_append, map_flattenings, map_flatteningsAll, Rule.partsOfAll]

theorem map_flatteningsEach (owner : String) (id : Nat) (before : Lowering) (items : List Rule) :
    (flatteningsEach owner id before items).map Prod.fst = Rule.partsOfAll items := by
  cases items with
  | nil => rfl
  | cons item rest =>
      rw [flatteningsEach, List.map_append, map_flattenings, map_flatteningsEach, Rule.partsOfAll]

end

theorem map_flatteningsOfRules (id : Nat) (before : Lowering) (rules : List (String × Rule)) :
    (flatteningsOfRules id before rules).map Prod.fst =
      rules.flatMap fun entry => Rule.partsOfAll (topBranches entry.2) := by
  induction rules generalizing id before with
  | nil => rfl
  | cons head rest ih =>
      rw [flatteningsOfRules, List.map_append, map_flatteningsEach, ih, List.flatMap_cons]

variable {source : Grammar} {plain : PlainGrammar} {start before middle after : Lowering}

structure Ready (source : Grammar) (before : Lowering) : Prop where
  consistent : before.grammar.Consistent
  declared : ∀ name ∈ source.names, name ∈ before.names

theorem Ready.grows {allowed : Nat → Prop} (ready : Ready source before)
    (grows : Grows allowed before after) : Ready source after where
  consistent := grows.consistent ready.consistent
  declared := fun name member => grows.mem_names (ready.declared name member)

theorem Ready.fresh (ready : Ready source before) (owner : String) :
    Ready source (before.fresh owner).2 :=
  ready.grows (.single (fresh_step (fun _ => False) before owner))

theorem Ready.flatten (ready : Ready source before) (owner : String) (rule : Rule)
    (closed : ∀ name, .nonTerminal name ∈ rule.symbols → name ∈ source.names) :
    Ready source (flatten owner before rule).2 :=
  ready.grows (flatten_flattened owner before rule ready.consistent ready.declared closed).grows

theorem Settled.of_addProduction {id : Nat} {rhs : List Symbol}
    (settled : Settled start (middle.addProduction id rhs) plain) (distinct : middle.names.Nodup)
    (old : id < start.nonTerminals.size) (inRange : id < middle.nonTerminals.size) :
    Settled start middle plain := by
  intro other name above named
  have idNamed := PlainGrammar.nameOf?_of_lt middle.grammar inRange
  have different : middle.grammar.nameOf id ≠ name := by
    intro same
    rw [same, ← named, ← PlainGrammar.names_getElem?, ← PlainGrammar.names_getElem?] at idNamed
    have bound := (List.getElem?_eq_some_iff.mp
      ((PlainGrammar.names_getElem? other).trans named)).1
    have equal := (List.getElem?_inj bound distinct).mp idNamed.symm
    omega
  have kept := settled other name above ((nameOf?_addProduction id rhs other).trans named)
  rw [kept, bodiesOf_addProduction rhs idNamed, if_neg different, List.append_nil]

theorem Settled.of_operator {id : Nat} {rhs : List Symbol}
    (settled : Settled start ((middle.addProduction id rhs).addProduction id []) plain)
    (distinct : middle.names.Nodup) (old : id < start.nonTerminals.size)
    (inRange : id < middle.nonTerminals.size) : Settled start middle plain := by
  have once : Settled start (middle.addProduction id rhs) plain := by
    apply settled.of_addProduction _ old
    · rw [size_addProduction]
      exact inRange
    · rw [names_addProduction]
      exact distinct
  exact once.of_addProduction distinct old inRange

theorem Settled.inner {owner : String} {inner : Rule} {rhs : List Symbol}
    (settled : Settled before
      (((flatten owner (before.fresh owner).2 inner).2.addProduction (before.fresh owner).1.1
        rhs).addProduction (before.fresh owner).1.1 []) plain)
    (ready : Ready source before)
    (closed : ∀ name, .nonTerminal name ∈ inner.symbols → name ∈ source.names) :
    Settled (before.fresh owner).2 (flatten owner (before.fresh owner).2 inner).2 plain := by
  have declares := fresh_declares ready.consistent owner
  have position := declares.position
  have size := declares.size
  have after := (ready.fresh owner).flatten owner inner closed
  have later := (flatten_flattened owner _ inner declares.consistent (ready.fresh owner).declared
    closed).grows.size_le
  have since : Settled (before.fresh owner).2 _ plain := settled.later (by omega)
  exact since.of_operator after.consistent.distinct (by omega) (by omega)

mutual

theorem flattenings_realized (owner : String) (before : Lowering) (rule : Rule)
    (ready : Ready source before)
    (closed : ∀ name, .nonTerminal name ∈ rule.symbols → name ∈ source.names)
    (settled : Settled before (flatten owner before rule).2 plain) :
    ∀ entry ∈ flattenings owner before rule, Realizes source plain entry.1 entry.2 := by
  have whole := (flatten_flattened owner before rule ready.consistent ready.declared
    closed).realized plain settled
  have declares := fresh_declares ready.consistent owner
  have position := declares.position
  have size := declares.size
  cases rule with
  | terminal name => exact List.forall_mem_singleton.mpr whole
  | nonTerminal name => exact List.forall_mem_singleton.mpr whole
  | sequence items =>
      exact List.forall_mem_cons.mpr
        ⟨whole, flatteningsAll_realized owner before items ready closed settled⟩
  | alternative items =>
      have inner := flatteningsEach_realized owner _ _ items (ready.fresh owner) (by omega) closed
        (settled.later (by omega))
      exact List.forall_mem_cons.mpr ⟨whole, inner⟩
  | optional inner =>
      rw [flatten_optional] at settled
      have within := settled.inner ready closed
      exact List.forall_mem_cons.mpr
        ⟨whole, flattenings_realized owner _ inner (ready.fresh owner) closed within⟩
  | zeroOrMore inner =>
      rw [flatten_zeroOrMore] at settled
      have within := settled.inner ready closed
      exact List.forall_mem_cons.mpr
        ⟨whole, flattenings_realized owner _ inner (ready.fresh owner) closed within⟩
  | oneOrMore inner =>
      rw [flatten_oneOrMore] at settled
      have after := (ready.fresh owner).fresh owner
      have tails := fresh_declares declares.consistent owner
      have tailPosition := tails.position
      have tailSize := tails.size
      have body := flatten_flattened owner _ inner after.consistent after.declared closed
      have later := body.grows.size_le
      have distinct := (body.grows.consistent after.consistent).distinct
      have since : Settled ((before.fresh owner).2.fresh owner).2 _ plain :=
        settled.later (by omega)
      have headed := since.of_operator
        (by rwa [names_addProduction]) (by omega) (by rw [size_addProduction]; omega)
      have within := headed.of_addProduction distinct (by omega) (by omega)
      exact List.forall_mem_cons.mpr
        ⟨whole, flattenings_realized owner _ inner after closed within⟩

theorem flatteningsAll_realized (owner : String) (before : Lowering) (items : List Rule)
    (ready : Ready source before)
    (closed : ∀ name, .nonTerminal name ∈ Rule.symbolsOfAll items → name ∈ source.names)
    (settled : Settled before (flattenAll owner before items).2 plain) :
    ∀ entry ∈ flatteningsAll owner before items, Realizes source plain entry.1 entry.2 := by
  match items with
  | [] => exact List.forall_mem_nil _
  | item :: rest =>
      have inItem : ∀ name, .nonTerminal name ∈ item.symbols → name ∈ source.names :=
        fun name inside => closed name (List.mem_append_left _ inside)
      have inRest : ∀ name, .nonTerminal name ∈ Rule.symbolsOfAll rest → name ∈ source.names :=
        fun name inside => closed name (List.mem_append_right _ inside)
      have after := ready.flatten owner item inItem
      have others := flattenAll_flattened owner _ rest after.consistent after.declared inRest
      have later := (flatten_flattened owner before item ready.consistent ready.declared
        inItem).grows.size_le
      have here : Settled before (flatten owner before item).2 plain :=
        settled.restrict (Nat.le_refl _) others.grows after.consistent
          fun _ _ below above => Nat.not_lt.mpr above below
      exact List.forall_mem_append.mpr
        ⟨flattenings_realized owner before item ready inItem here,
          flatteningsAll_realized owner _ rest after inRest (settled.later later)⟩

theorem flatteningsEach_realized (owner : String) (id : Nat) (before : Lowering)
    (items : List Rule) (ready : Ready source before) (inRange : id < before.nonTerminals.size)
    (closed : ∀ name, .nonTerminal name ∈ Rule.symbolsOfAll items → name ∈ source.names)
    (settled : Settled before (addBranches owner id before items) plain) :
    ∀ entry ∈ flatteningsEach owner id before items, Realizes source plain entry.1 entry.2 := by
  match items with
  | [] => exact List.forall_mem_nil _
  | item :: rest =>
      have inItem : ∀ name, .nonTerminal name ∈ item.symbols → name ∈ source.names :=
        fun name inside => closed name (List.mem_append_left _ inside)
      have inRest : ∀ name, .nonTerminal name ∈ Rule.symbolsOfAll rest → name ∈ source.names :=
        fun name inside => closed name (List.mem_append_right _ inside)
      have body := flatten_flattened owner before item ready.consistent ready.declared inItem
      have later := body.grows.size_le
      have distinct := (body.grows.consistent ready.consistent).distinct
      have after : Ready source
          ((flatten owner before item).2.addProduction id (flatten owner before item).1) :=
        (ready.flatten owner item inItem).grows
          (.single (.produce rfl (by omega) body.covered) : Grows (· = id) _ _)
      have size := size_addProduction (flatten owner before item).2 id (flatten owner before item).1
      have others := addBranches_branched owner id _ rest after.consistent (by omega)
        after.declared inRest
      have produced : Settled before
          ((flatten owner before item).2.addProduction id (flatten owner before item).1) plain := by
        apply settled.restrict (Nat.le_refl _) others.grows after.consistent
        intro other above below either
        rcases either with same | beyond
        · omega
        · omega
      have here := produced.of_addProduction distinct inRange (by omega)
      exact List.forall_mem_append.mpr
        ⟨flattenings_realized owner before item ready inItem here,
          flatteningsEach_realized owner id _ rest after (by omega) inRest
            (settled.later (by omega))⟩

end

theorem flatteningsOfRules_realized (id : Nat) (before : Lowering) (rules : List (String × Rule))
    (ready : Ready source before) (pending : Pending id rules before)
    (closed : ∀ entry ∈ rules, ∀ name, .nonTerminal name ∈ entry.2.symbols → name ∈ source.names)
    (final : ∀ name, plain.bodiesOf name = (addRules id before rules).grammar.bodiesOf name) :
    ∀ entry ∈ flatteningsOfRules id before rules, Realizes source plain entry.1 entry.2 := by
  induction rules generalizing id before with
  | nil => exact List.forall_mem_nil _
  | cons head rest ih =>
      obtain ⟨name, rule⟩ := head
      have inRange := pending.inRange
      rw [List.length_cons] at inRange
      have inRule := closed (name, rule) List.mem_cons_self
      have inRest := fun entry member => closed entry (List.mem_cons_of_mem _ member)
      have branches := restart_branched name id rule ready.consistent (by omega) ready.declared
        inRule
      have after := ready.grows branches.grows
      have afterPending := pending.advance ready.consistent branches
      have grows := addRules_grows (id + 1) _ rest after.consistent afterPending after.declared
        inRest
      have settled : Settled { before with suffix := 1 }
          (addBranches name id { before with suffix := 1 } (topBranches rule)) plain := by
        intro other otherName above named
        have below : other < Array.size _ := PlainGrammar.lt_size_of_nameOf? named
        change before.nonTerminals.size ≤ other at above
        apply (final otherName).trans (grows.bodiesOf after.consistent named ?_)
        intro touched
        rcases touched with within | beyond
        · omega
        · exact absurd below (Nat.not_lt.mpr beyond)
      have restarted : Ready source { before with suffix := 1 } :=
        ready.grows (.single (.restart 1) : Grows (fun _ => False) _ _)
      have here := flatteningsEach_realized name id { before with suffix := 1 } (topBranches rule)
        restarted (show id < before.nonTerminals.size by omega)
        (by rw [symbolsOfAll_topBranches]; exact inRule) settled
      exact List.forall_mem_append.mpr ⟨here, ih (id + 1) _ after afterPending inRest final⟩

end Lowering

namespace Grammar

/-- Every rule body that lowering flattens, with the string that it makes of it. -/
def flattenings (source : Grammar) : List (Rule × List Symbol) :=
  Lowering.flatteningsOfRules 0 source.declared source.rules

theorem flattenings_realized (source : Grammar) :
    ∀ entry ∈ source.flattenings, Realizes source source.lower entry.1 entry.2 :=
  Lowering.flatteningsOfRules_realized 0 source.declared source.rules
    ⟨source.declared_spec.1, fun _ => source.mem_declared⟩ source.pending_declared
    source.symbols_closed fun _ => rfl

end Grammar

/-! ### What begins a rule body -/

namespace PlainGrammar

variable {plain : PlainGrammar} {kind name : String} {body : List Symbol}

theorem vanishes_single_iff :
    plain.Vanishes [.nonTerminal name] ↔ ∃ rhs ∈ plain.bodiesOf name, plain.Vanishes rhs := by
  constructor
  · intro vanishes
    obtain ⟨rhs, member, inner⟩ := vanishes.production
    exact ⟨rhs, mem_bodiesOf.mpr member, inner⟩
  · intro some
    obtain ⟨rhs, member, inner⟩ := some
    exact .cons (mem_bodiesOf.mp member) inner .nil

theorem not_begins_nil : ¬plain.Begins kind [] := nofun

theorem begins_single_iff :
    plain.Begins kind [.nonTerminal name] ↔ ∃ rhs ∈ plain.bodiesOf name, plain.Begins kind rhs := by
  constructor
  · intro begins
    cases begins with
    | inside _ member inner => exact ⟨_, mem_bodiesOf.mpr member, inner⟩
    | behind _ later => exact absurd later not_begins_nil
  · intro some
    obtain ⟨rhs, member, inner⟩ := some
    exact .inside [] (mem_bodiesOf.mp member) inner

/-- Whatever begins a string that ends in a loop begins the string before the loop, or
else the body of the loop: going round the loop adds nothing. -/
theorem Begins.of_loop {symbols front : List Symbol} (begins : plain.Begins kind symbols)
    (loop : plain.bodiesOf name = [body ++ [.nonTerminal name], []])
    (ends : symbols = front ++ [.nonTerminal name]) :
    plain.Begins kind front ∨ plain.Begins kind body := by
  induction begins generalizing front with
  | here rest =>
      cases front with
      | nil => cases ends
      | cons head others =>
          cases ends
          exact Or.inl (.here others)
  | @inside other rhs rest member inner ih =>
      cases front with
      | nil =>
          cases ends
          have inBodies := mem_bodiesOf.mpr member
          rw [loop, List.mem_cons, List.mem_singleton] at inBodies
          rcases inBodies with again | ended
          · exact Or.inr ((ih again).elim id id)
          · rw [ended] at inner
            exact absurd inner not_begins_nil
      | cons head others =>
          cases ends
          exact Or.inl (.inside others member inner)
  | behind empty later ih =>
      cases front with
      | nil =>
          cases ends
          exact absurd later not_begins_nil
      | cons head others =>
          cases ends
          rcases ih rfl with inFront | inBody
          · exact Or.inl (.behind empty inFront)
          · exact Or.inr inBody

theorem begins_loop_iff (loop : plain.bodiesOf name = [body ++ [.nonTerminal name], []]) :
    plain.Begins kind [.nonTerminal name] ↔ plain.Begins kind body := by
  constructor
  · intro begins
    have ends : [Symbol.nonTerminal name] = [] ++ [.nonTerminal name] := rfl
    rcases begins.of_loop loop ends with inNothing | inBody
    · exact absurd inNothing not_begins_nil
    · exact inBody
  · intro begins
    have member : body ++ [.nonTerminal name] ∈ plain.bodiesOf name := loop ▸ List.mem_cons_self
    exact begins_single_iff.mpr ⟨_, member, begins.append _⟩

theorem vanishes_loop (loop : plain.bodiesOf name = [body, []]) :
    plain.Vanishes [.nonTerminal name] := by
  apply vanishes_single_iff.mpr
  exact ⟨[], loop ▸ List.mem_cons_of_mem _ (List.mem_singleton_self _), .nil⟩

end PlainGrammar

namespace FirstSets

variable {source : Grammar} {plain : PlainGrammar}

mutual

theorem vanishes_iff_isNullableRule (consistent : plain.Consistent) (rule : Rule)
    {symbols : List Symbol} (realizes : Realizes source plain rule symbols) :
    plain.Vanishes symbols ↔ (compute plain).isNullableRule rule = true := by
  match rule with
  | .terminal name =>
      cases realizes
      exact ⟨nofun, nofun⟩
  | .nonTerminal name =>
      cases realizes
      rw [← compute_ofSymbols_nullable_iff consistent, ofSymbols_nonTerminal, isNullableRule]
  | .sequence items =>
      cases realizes with
      | sequence each => exact vanishes_flatten_iff consistent items each
  | .alternative items =>
      cases realizes with
      | alternative each =>
          rw [PlainGrammar.vanishes_single_iff, isNullableRule]
          exact exists_vanishes_iff consistent items each
  | .optional inner =>
      cases realizes with
      | optional branches once =>
          exact iff_of_true (PlainGrammar.vanishes_loop branches) rfl
  | .zeroOrMore inner =>
      cases realizes with
      | zeroOrMore branches once =>
          exact iff_of_true (PlainGrammar.vanishes_loop branches) rfl
  | .oneOrMore inner =>
      cases realizes with
      | oneOrMore branches tailBranches once =>
          have tail := PlainGrammar.vanishes_loop tailBranches
          rw [PlainGrammar.vanishes_single_iff, branches, isNullableRule,
            ← vanishes_iff_isNullableRule consistent inner once]
          simp only [List.mem_singleton, exists_eq_left, PlainGrammar.vanishes_append_iff, tail,
            and_true]

theorem vanishes_flatten_iff (consistent : plain.Consistent) (items : List Rule)
    {bodies : List (List Symbol)} (each : RealizesEach source plain items bodies) :
    plain.Vanishes bodies.flatten ↔ (compute plain).isNullableAll items = true := by
  match items with
  | [] =>
      cases each
      exact iff_of_true .nil rfl
  | item :: rest =>
      cases each with
      | cons first others =>
          rw [List.flatten_cons, PlainGrammar.vanishes_append_iff,
            vanishes_iff_isNullableRule consistent item first,
            vanishes_flatten_iff consistent rest others, isNullableAll, Bool.and_eq_true]

theorem exists_vanishes_iff (consistent : plain.Consistent) (items : List Rule)
    {bodies : List (List Symbol)} (each : RealizesEach source plain items bodies) :
    (∃ body ∈ bodies, plain.Vanishes body) ↔ (compute plain).isNullableAny items = true := by
  match items with
  | [] =>
      cases each
      exact ⟨nofun, nofun⟩
  | item :: rest =>
      cases each with
      | cons first others =>
          simp only [List.mem_cons, exists_eq_or_imp]
          rw [vanishes_iff_isNullableRule consistent item first,
            exists_vanishes_iff consistent rest others, isNullableAny, Bool.or_eq_true]

end

mutual

theorem begins_iff_mem_ofRule (consistent : plain.Consistent) (rule : Rule) (kind : String)
    {symbols : List Symbol} (realizes : Realizes source plain rule symbols) :
    plain.Begins kind symbols ↔ kind ∈ (compute plain).ofRule rule := by
  match rule with
  | .terminal name =>
      cases realizes
      rw [← mem_compute_ofSymbols_iff consistent]
      exact Iff.rfl
  | .nonTerminal name =>
      cases realizes
      rw [← mem_compute_ofSymbols_iff consistent, ofSymbols_nonTerminal, ofRule]
  | .sequence items =>
      cases realizes with
      | sequence each => exact begins_flatten_iff consistent items kind each
  | .alternative items =>
      cases realizes with
      | alternative each =>
          rw [PlainGrammar.begins_single_iff, ofRule]
          exact exists_begins_iff consistent items kind each
  | .optional inner =>
      cases realizes with
      | optional branches once =>
          rw [PlainGrammar.begins_single_iff, branches, ofRule,
            ← begins_iff_mem_ofRule consistent inner kind once]
          simp only [List.mem_cons, List.not_mem_nil, or_false, exists_eq_or_imp, exists_eq_left,
            PlainGrammar.not_begins_nil]
  | .zeroOrMore inner =>
      cases realizes with
      | zeroOrMore branches once =>
          rw [PlainGrammar.begins_loop_iff branches, ofRule,
            begins_iff_mem_ofRule consistent inner kind once]
  | .oneOrMore inner =>
      cases realizes with
      | oneOrMore branches tailBranches once =>
          rw [PlainGrammar.begins_single_iff, branches, ofRule,
            ← begins_iff_mem_ofRule consistent inner kind once]
          simp only [List.mem_singleton, exists_eq_left, PlainGrammar.begins_append_iff,
            PlainGrammar.begins_loop_iff tailBranches, or_iff_left_iff_imp, and_imp, imp_self,
            implies_true]

theorem begins_flatten_iff (consistent : plain.Consistent) (items : List Rule) (kind : String)
    {bodies : List (List Symbol)} (each : RealizesEach source plain items bodies) :
    plain.Begins kind bodies.flatten ↔ kind ∈ (compute plain).ofSequence items := by
  match items with
  | [] =>
      cases each
      exact ⟨nofun, nofun⟩
  | item :: rest =>
      cases each with
      | cons first others =>
          rw [List.flatten_cons, PlainGrammar.begins_append_iff,
            begins_iff_mem_ofRule consistent item kind first,
            begins_flatten_iff consistent rest kind others,
            vanishes_iff_isNullableRule consistent item first, ofSequence]
          split
          case isTrue nullable => simp only [nullable, true_and, OrderedSet.mem_insertAll]
          case isFalse solid => simp only [solid, false_and, or_false, Bool.false_eq_true]

theorem exists_begins_iff (consistent : plain.Consistent) (items : List Rule) (kind : String)
    {bodies : List (List Symbol)} (each : RealizesEach source plain items bodies) :
    (∃ body ∈ bodies, plain.Begins kind body) ↔ kind ∈ (compute plain).ofAlternative items := by
  match items with
  | [] =>
      cases each
      exact ⟨nofun, nofun⟩
  | item :: rest =>
      cases each with
      | cons first others =>
          simp only [List.mem_cons, exists_eq_or_imp]
          rw [begins_iff_mem_ofRule consistent item kind first,
            exists_begins_iff consistent rest kind others, ofAlternative, OrderedSet.mem_insertAll]

end

/-! ### The sets of a rule body and of its string -/

mutual

theorem Sound.ascending_ofRule {first : FirstSets} (sound : first.Sound plain) (rule : Rule) :
    OrderedSet.Ascending (first.ofRule rule) := by
  cases rule with
  | terminal name => exact List.pairwise_singleton _ _
  | nonTerminal name => exact sound.ascending_ofName name
  | sequence items => exact ascending_ofSequence sound items
  | alternative items => exact ascending_ofAlternative sound items
  | optional inner => exact ascending_ofRule sound inner
  | zeroOrMore inner => exact ascending_ofRule sound inner
  | oneOrMore inner => exact ascending_ofRule sound inner

theorem Sound.ascending_ofSequence {first : FirstSets} (sound : first.Sound plain)
    (items : List Rule) : OrderedSet.Ascending (first.ofSequence items) := by
  cases items with
  | nil => exact List.Pairwise.nil
  | cons item rest =>
      have here := ascending_ofRule sound item
      rw [ofSequence]
      split
      · exact OrderedSet.ascending_insertAll here
      · exact here

theorem Sound.ascending_ofAlternative {first : FirstSets} (sound : first.Sound plain)
    (items : List Rule) : OrderedSet.Ascending (first.ofAlternative items) := by
  cases items with
  | nil => exact List.Pairwise.nil
  | cons item rest => exact OrderedSet.ascending_insertAll (ascending_ofRule sound item)

end

theorem ofRule_eq_ofSymbols (consistent : plain.Consistent) {rule : Rule} {symbols : List Symbol}
    (begins : ∀ kind, plain.Begins kind symbols ↔ kind ∈ (compute plain).ofRule rule)
    (vanishes : plain.Vanishes symbols ↔ (compute plain).isNullableRule rule = true) :
    ((compute plain).ofRule rule, (compute plain).isNullableRule rule) =
      (compute plain).ofSymbols symbols := by
  have sound := (compute_spec consistent).1
  apply Prod.ext
  · apply OrderedSet.eq_of_mem_iff (sound.ascending_ofRule rule) (sound.ascending_ofSymbols symbols)
    intro kind
    rw [mem_compute_ofSymbols_iff consistent, begins]
  · apply Bool.eq_iff_iff.mpr
    rw [compute_ofSymbols_nullable_iff consistent, vanishes]

theorem ofRule_eq_of_realizes (consistent : plain.Consistent) {rule : Rule} {symbols : List Symbol}
    (realizes : Realizes source plain rule symbols) :
    ((compute plain).ofRule rule, (compute plain).isNullableRule rule) =
      (compute plain).ofSymbols symbols :=
  ofRule_eq_ofSymbols consistent
    (fun kind => begins_iff_mem_ofRule consistent rule kind realizes)
    (vanishes_iff_isNullableRule consistent rule realizes)

theorem ofAlternative_topBranches (first : FirstSets) (rule : Rule) :
    first.ofAlternative (Lowering.topBranches rule) = first.ofRule rule := by
  cases rule <;> rfl

theorem isNullableAny_topBranches (first : FirstSets) (rule : Rule) :
    first.isNullableAny (Lowering.topBranches rule) = first.isNullableRule rule := by
  cases rule with
  | alternative items => rfl
  | _ => exact Bool.or_false _

theorem ofRule_eq_ofName (consistent : plain.Consistent) {name : String} {rule : Rule}
    (each : RealizesEach source plain (Lowering.topBranches rule) (plain.bodiesOf name)) :
    ((compute plain).ofRule rule, (compute plain).isNullableRule rule) =
      ((compute plain).ofName name, (compute plain).isNullable name) := by
  rw [← ofSymbols_nonTerminal]
  apply ofRule_eq_ofSymbols consistent
  · intro kind
    rw [PlainGrammar.begins_single_iff, exists_begins_iff consistent _ kind each,
      ofAlternative_topBranches]
  · rw [PlainGrammar.vanishes_single_iff, exists_vanishes_iff consistent _ each,
      isNullableAny_topBranches]

/-- Lowering flattens the branches of every rule and what stands inside them. For each of
these bodies the two ways to compute its FIRST set and nullability, from the body and
from the string that lowering puts in its place, agree; so do those for each rule. -/
theorem ofRule_eq_ofSymbols_flattened (source : Grammar) :
    (source.flattenings.map Prod.fst = source.rules.flatMap fun entry =>
        Rule.partsOfAll (Lowering.topBranches entry.2)) ∧
      (∀ entry ∈ source.flattenings,
        ((compute source.lower).ofRule entry.1, (compute source.lower).isNullableRule entry.1) =
          (compute source.lower).ofSymbols entry.2) ∧
      ∀ entry ∈ source.rules,
        (compute source.lower).ofRule entry.2 = (compute source.lower).ofName entry.1 ∧
          (compute source.lower).isNullableRule entry.2 =
            (compute source.lower).isNullable entry.1 := by
  have consistent := source.lower_consistent
  refine ⟨Lowering.map_flatteningsOfRules 0 source.declared source.rules, ?_, ?_⟩
  · intro entry member
    exact ofRule_eq_of_realizes consistent (source.flattenings_realized entry member)
  · intro entry member
    exact Prod.mk.inj (ofRule_eq_ofName consistent (source.lower_realizes entry member))

end FirstSets

end Predictive
