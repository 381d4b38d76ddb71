/-
Which drafts become grammars. An inner rule is found by a path of places, and one rule
stands to the left of another when its path is smaller. A draft is built exactly when
its names are distinct, its start symbol is one of them and every reference, however
deep, is to one of them; what is wrong first is reported otherwise.
-/

import Predictive.Proofs.Grammar.RuleOrder

namespace Predictive

/-! ### The places of symbols -/

namespace Rule

def ofSymbol : Symbol → Rule
  | .terminal name => .terminal name
  | .nonTerminal name => .nonTerminal name

/-- The rules right inside a rule, from left to right. -/
def items : Rule → List Rule
  | .terminal _ | .nonTerminal _ => []
  | .sequence items | .alternative items => items
  | .optional inner | .zeroOrMore inner | .oneOrMore inner => [inner]

/-- A path leads from a rule to one inside. Each of its places counts among the items
of the rule that has been reached. -/
inductive At : Rule → List Nat → Rule → Prop where
  | here (rule : Rule) : At rule [] rule
  | inside {rule item inner : Rule} {place : Nat} {path : List Nat}
      (listed : rule.items[place]? = some item) (deeper : At item path inner) :
      At rule (place :: path) inner

def lead (place : Nat) (entries : List (List Nat × Symbol)) : List (List Nat × Symbol) :=
  entries.map fun entry => (place :: entry.1, entry.2)

mutual

/-- The symbols of a rule with their paths. -/
def places : Rule → List (List Nat × Symbol)
  | .terminal name => [([], .terminal name)]
  | .nonTerminal name => [([], .nonTerminal name)]
  | .sequence items => placesFrom 0 items
  | .alternative items => placesFrom 0 items
  | .optional inner => lead 0 (places inner)
  | .zeroOrMore inner => lead 0 (places inner)
  | .oneOrMore inner => lead 0 (places inner)

/-- The symbols of items that stand in the places from `place` on. -/
def placesFrom (place : Nat) : List Rule → List (List Nat × Symbol)
  | [] => []
  | item :: rest => lead place (places item) ++ placesFrom (place + 1) rest

end

theorem symbol_or_operator (rule : Rule) :
    (∃ symbol, rule = ofSymbol symbol ∧ rule.places = [([], symbol)]) ∨
      (∀ symbol, rule ≠ ofSymbol symbol) ∧ rule.places = placesFrom 0 rule.items := by
  have single : ∀ inner : Rule, lead 0 inner.places = placesFrom 0 [inner] := by
    intro inner
    rw [placesFrom, placesFrom, List.append_nil]
  cases rule with
  | terminal name => exact Or.inl ⟨.terminal name, rfl, rfl⟩
  | nonTerminal name => exact Or.inl ⟨.nonTerminal name, rfl, rfl⟩
  | sequence items => exact Or.inr ⟨fun symbol => by cases symbol <;> nofun, rfl⟩
  | alternative items => exact Or.inr ⟨fun symbol => by cases symbol <;> nofun, rfl⟩
  | optional inner => exact Or.inr ⟨fun symbol => by cases symbol <;> nofun, single inner⟩
  | zeroOrMore inner => exact Or.inr ⟨fun symbol => by cases symbol <;> nofun, single inner⟩
  | oneOrMore inner => exact Or.inr ⟨fun symbol => by cases symbol <;> nofun, single inner⟩

mutual

theorem of_items {motive : Rule → Prop}
    (step : ∀ rule : Rule, (∀ item ∈ rule.items, motive item) → motive rule) :
    ∀ rule : Rule, motive rule
  | .terminal name => step (.terminal name) nofun
  | .nonTerminal name => step (.nonTerminal name) nofun
  | .sequence items => step (.sequence items) (of_items_all step items)
  | .alternative items => step (.alternative items) (of_items_all step items)
  | .optional inner => step (.optional inner) fun _ member =>
      List.mem_singleton.mp member ▸ of_items step inner
  | .zeroOrMore inner => step (.zeroOrMore inner) fun _ member =>
      List.mem_singleton.mp member ▸ of_items step inner
  | .oneOrMore inner => step (.oneOrMore inner) fun _ member =>
      List.mem_singleton.mp member ▸ of_items step inner

theorem of_items_all {motive : Rule → Prop}
    (step : ∀ rule : Rule, (∀ item ∈ rule.items, motive item) → motive rule) :
    ∀ items : List Rule, ∀ item ∈ items, motive item
  | [] => nofun
  | head :: rest => by
      intro item member
      rcases List.mem_cons.mp member with same | inRest
      · rw [same]
        exact of_items step head
      · exact of_items_all step rest item inRest

end

theorem ofSymbol_injective {left right : Symbol} (same : ofSymbol left = ofSymbol right) :
    left = right := by
  cases left <;> cases right <;> cases same <;> rfl

theorem items_ofSymbol (symbol : Symbol) : (ofSymbol symbol).items = [] := by
  cases symbol <;> rfl

theorem at_nil_iff {rule inner : Rule} : rule.At [] inner ↔ rule = inner := by
  constructor
  · intro stands
    cases stands
    rfl
  · intro same
    exact same ▸ .here rule

theorem at_cons_iff {rule inner : Rule} {place : Nat} {path : List Nat} :
    rule.At (place :: path) inner ↔
      ∃ item, rule.items[place]? = some item ∧ item.At path inner := by
  constructor
  · intro stands
    cases stands with
    | inside listed deeper => exact ⟨_, listed, deeper⟩
  · intro stands
    obtain ⟨item, listed, deeper⟩ := stands
    exact .inside listed deeper

theorem mem_lead {place : Nat} {entries : List (List Nat × Symbol)} {path : List Nat}
    {symbol : Symbol} :
    (path, symbol) ∈ lead place entries ↔
      ∃ rest, path = place :: rest ∧ (rest, symbol) ∈ entries := by
  simp only [lead, List.mem_map, Prod.mk.injEq, Prod.exists]
  constructor
  · intro listed
    obtain ⟨rest, _, member, rfl, rfl⟩ := listed
    exact ⟨rest, rfl, member⟩
  · intro listed
    obtain ⟨rest, rfl, member⟩ := listed
    exact ⟨rest, symbol, member, rfl, rfl⟩

theorem mem_placesFrom {place : Nat} {items : List Rule} {path : List Nat} {symbol : Symbol} :
    (path, symbol) ∈ placesFrom place items ↔
      ∃ skipped rest item, path = (place + skipped) :: rest ∧ items[skipped]? = some item ∧
        (rest, symbol) ∈ item.places := by
  induction items generalizing place with
  | nil => simp [placesFrom]
  | cons head others ih =>
      rw [placesFrom, List.mem_append, mem_lead, ih]
      constructor
      · rintro (⟨rest, rfl, member⟩ | ⟨skipped, rest, item, rfl, listed, member⟩)
        · exact ⟨0, rest, head, rfl, rfl, member⟩
        · rw [Nat.add_right_comm, Nat.add_assoc]
          exact ⟨skipped + 1, rest, item, rfl, listed, member⟩
      · rintro ⟨skipped, rest, item, rfl, listed, member⟩
        cases skipped with
        | zero =>
            cases listed
            exact Or.inl ⟨rest, rfl, member⟩
        | succ skipped =>
            rw [← Nat.add_assoc, Nat.add_right_comm]
            exact Or.inr ⟨skipped, rest, item, rfl, listed, member⟩

theorem mem_places (rule : Rule) :
    ∀ {path : List Nat} {symbol : Symbol},
      (path, symbol) ∈ rule.places ↔ rule.At path (ofSymbol symbol) := by
  induction rule using of_items with
  | step rule ih =>
      intro path symbol
      rcases rule.symbol_or_operator with ⟨own, rfl, places⟩ | ⟨operator, places⟩
      · rw [places, List.mem_singleton, Prod.mk.injEq]
        constructor
        · intro same
          obtain ⟨rfl, rfl⟩ := same
          exact .here _
        · intro stands
          cases path with
          | nil => exact ⟨rfl, (ofSymbol_injective (at_nil_iff.mp stands)).symm⟩
          | cons place path =>
              obtain ⟨item, listed, -⟩ := at_cons_iff.mp stands
              rw [items_ofSymbol] at listed
              cases listed
      · rw [places, mem_placesFrom]
        constructor
        · intro listed
          obtain ⟨place, rest, item, rfl, listed, member⟩ := listed
          rw [Nat.zero_add]
          exact .inside listed ((ih item (List.mem_of_getElem? listed)).mp member)
        · intro stands
          cases path with
          | nil => exact (operator symbol (at_nil_iff.mp stands)).elim
          | cons place path =>
              obtain ⟨item, listed, deeper⟩ := at_cons_iff.mp stands
              refine ⟨place, path, item, by rw [Nat.zero_add], listed, ?_⟩
              exact (ih item (List.mem_of_getElem? listed)).mpr deeper

theorem ascending_lead {place : Nat} {entries : List (List Nat × Symbol)}
    (ascending : entries.Pairwise fun left right => left.1 < right.1) :
    (lead place entries).Pairwise fun left right => left.1 < right.1 := by
  apply List.pairwise_map.mpr
  apply ascending.imp
  intro left right smaller
  exact List.cons_lt_cons_iff.mpr (Or.inr ⟨rfl, smaller⟩)

theorem ascending_placesFrom {place : Nat} {items : List Rule}
    (each : ∀ item ∈ items, item.places.Pairwise fun left right => left.1 < right.1) :
    (placesFrom place items).Pairwise fun left right => left.1 < right.1 := by
  induction items generalizing place with
  | nil => exact List.Pairwise.nil
  | cons head rest ih =>
      apply List.pairwise_append.mpr
      refine ⟨ascending_lead (each head List.mem_cons_self), ?_, ?_⟩
      · exact ih fun item member => each item (List.mem_cons_of_mem _ member)
      · intro left inHead right inRest
        obtain ⟨front, leftPath, -⟩ := mem_lead.mp inHead
        obtain ⟨skipped, back, item, rightPath, -⟩ := mem_placesFrom.mp inRest
        rw [leftPath, rightPath]
        exact List.cons_lt_cons_iff.mpr (Or.inl (by omega))

theorem ascending_places (rule : Rule) :
    rule.places.Pairwise fun left right => left.1 < right.1 := by
  induction rule using of_items with
  | step rule ih =>
      rcases rule.symbol_or_operator with ⟨symbol, -, places⟩ | ⟨-, places⟩
      · rw [places]
        exact List.pairwise_singleton _ _
      · rw [places]
        exact ascending_placesFrom ih

theorem symbols_placesFrom {place : Nat} {items : List Rule}
    (each : ∀ item ∈ items, item.places.map Prod.snd = item.symbols) :
    (placesFrom place items).map Prod.snd = symbolsOfAll items := by
  induction items generalizing place with
  | nil => rfl
  | cons head rest ih =>
      rw [placesFrom, symbolsOfAll, List.map_append,
        ih fun item member => each item (List.mem_cons_of_mem _ member),
        ← each head List.mem_cons_self, lead, List.map_map]
      rfl

theorem symbols_places (rule : Rule) : rule.places.map Prod.snd = rule.symbols := by
  induction rule using of_items with
  | step rule ih =>
      rcases rule.symbol_or_operator with ⟨symbol, rfl, places⟩ | ⟨operator, places⟩
      · rw [places]
        cases symbol <;> rfl
      · rw [places, symbols_placesFrom ih]
        cases rule with
        | terminal name => exact (operator (.terminal name) rfl).elim
        | nonTerminal name => exact (operator (.nonTerminal name) rfl).elim
        | sequence items => rfl
        | alternative items => rfl
        | optional inner => exact List.append_nil _
        | zeroOrMore inner => exact List.append_nil _
        | oneOrMore inner => exact List.append_nil _

theorem find?_ascending {entries : List (List Nat × Symbol)}
    (ascending : entries.Pairwise fun left right => left.1 < right.1)
    {wanted : List Nat × Symbol → Bool} {entry : List Nat × Symbol} :
    entries.find? wanted = some entry ↔ entry ∈ entries ∧ wanted entry = true ∧
      ∀ other ∈ entries, other.1 < entry.1 → wanted other = false := by
  rw [List.find?_eq_some_iff_append]
  constructor
  · intro found
    obtain ⟨isWanted, before, after, rfl, unwanted⟩ := found
    refine ⟨List.mem_append_cons_self, isWanted, ?_⟩
    intro other member smaller
    obtain ⟨-, following, -⟩ := List.pairwise_append.mp ascending
    rcases List.mem_append.mp member with earlier | here
    · simpa using unwanted other earlier
    · rcases List.mem_cons.mp here with rfl | later
      · exact (List.lt_irrefl _ smaller).elim
      · exact (List.lt_asymm smaller ((List.pairwise_cons.mp following).1 other later)).elim
  · intro least
    obtain ⟨member, isWanted, unwanted⟩ := least
    obtain ⟨before, after, rfl⟩ := List.append_of_mem member
    refine ⟨isWanted, before, after, rfl, ?_⟩
    intro other earlier
    have smaller := (List.pairwise_append.mp ascending).2.2 other earlier entry List.mem_cons_self
    rw [unwanted other (List.mem_append_left _ earlier) smaller]
    rfl

/-- A reference to a name outside of a list, with none such to its left. -/
structure LeftmostOutside (declared : List String) (rule : Rule) (name : String) : Prop where
  outside : name ∉ declared
  leftmost : ∃ path, rule.At path (.nonTerminal name) ∧
    ∀ left other, left < path → rule.At left (.nonTerminal other) → other ∈ declared

theorem find?_references_eq_some_iff {declared : List String} {rule : Rule} {name : String} :
    (rule.references.find? fun name => !declared.contains name) = some name ↔
      rule.LeftmostOutside declared name := by
  rw [references, List.find?_filterMap, ← symbols_places, List.find?_map, Option.bind_eq_some_iff]
  simp only [Option.map_eq_some_iff, find?_ascending rule.ascending_places]
  constructor
  · intro found
    obtain ⟨symbol, ⟨entry, ⟨member, wanted, unwanted⟩, rfl⟩, named⟩ := found
    obtain ⟨path, symbol⟩ := entry
    cases symbol with
    | terminal kind => cases named
    | nonTerminal other =>
        cases named
        refine ⟨by simpa using wanted, path, rule.mem_places.mp member, ?_⟩
        intro left other smaller stands
        simpa using unwanted (left, .nonTerminal other) (rule.mem_places.mpr stands) smaller
  · intro leftmost
    obtain ⟨outside, path, stands, declaredBefore⟩ := leftmost
    refine ⟨.nonTerminal name, ⟨(path, .nonTerminal name), ⟨?_, ?_, ?_⟩, rfl⟩, rfl⟩
    · exact rule.mem_places.mpr stands
    · simpa using outside
    · intro other member smaller
      obtain ⟨left, symbol⟩ := other
      cases symbol with
      | terminal kind => rfl
      | nonTerminal target =>
          simpa using declaredBefore left target smaller (rule.mem_places.mp member)

theorem mem_references_iff {rule : Rule} {name : String} :
    name ∈ rule.references ↔ ∃ path, rule.At path (.nonTerminal name) := by
  rw [references, List.mem_filterMap, ← symbols_places]
  constructor
  · intro listed
    obtain ⟨symbol, member, named⟩ := listed
    obtain ⟨⟨path, symbol⟩, inPlaces, rfl⟩ := List.mem_map.mp member
    cases symbol with
    | terminal kind => cases named
    | nonTerminal other =>
        cases named
        exact ⟨path, rule.mem_places.mp inPlaces⟩
  · intro stands
    obtain ⟨path, stands⟩ := stands
    exact ⟨.nonTerminal name, List.mem_map_of_mem (rule.mem_places.mpr stands), rfl⟩

end Rule

/-! ### The first failure of a draft -/

namespace Draft

variable {draft : Draft}

theorem firstRepeat_append {seen before : List String} (new : firstRepeat seen before = none)
    (rest : List String) :
    firstRepeat seen (before ++ rest) = firstRepeat (before.reverse ++ seen) rest := by
  induction before generalizing seen with
  | nil => rfl
  | cons head others ih =>
      rw [firstRepeat] at new
      rw [List.cons_append, firstRepeat, List.reverse_cons, List.append_assoc]
      split at new
      case isTrue => cases new
      case isFalse fresh =>
        rw [if_neg fresh]
        exact ih new

theorem exists_before_repeat {seen names : List String} {name : String}
    (found : firstRepeat seen names = some name) :
    ∃ before after, names = before ++ name :: after ∧ firstRepeat seen before = none ∧
      name ∈ before.reverse ++ seen := by
  induction names generalizing seen with
  | nil => cases found
  | cons head rest ih =>
      rw [firstRepeat] at found
      split at found
      case isTrue old =>
        cases found
        exact ⟨[], rest, rfl, rfl, old⟩
      case isFalse fresh =>
        obtain ⟨before, after, rfl, new, repeated⟩ := ih found
        refine ⟨head :: before, after, rfl, ?_, ?_⟩
        · rw [firstRepeat, if_neg fresh]
          exact new
        · rw [List.reverse_cons, List.append_assoc]
          exact repeated

theorem firstRepeat_eq_some_iff {names : List String} {name : String} :
    firstRepeat [] names = some name ↔
      ∃ before after, names = before ++ name :: after ∧ before.Nodup ∧ name ∈ before := by
  constructor
  · intro found
    obtain ⟨before, after, whole, new, repeated⟩ := exists_before_repeat found
    refine ⟨before, after, whole, (nodup_of_firstRepeat new).1, ?_⟩
    simpa using repeated
  · intro split
    obtain ⟨before, after, rfl, distinct, repeated⟩ := split
    have new : firstRepeat [] before = none :=
      firstRepeat_eq_none distinct fun _ _ => List.not_mem_nil
    rw [firstRepeat_append new, firstRepeat, if_pos (by simpa using repeated)]

theorem firstUndefined_eq_some_iff {declared : List String} {rules : List (String × Rule)}
    {owner name : String} :
    firstUndefined declared rules = some (owner, name) ↔
      ∃ before body after, rules = before ++ (owner, body) :: after ∧
        (∀ entry ∈ before, ∀ target ∈ entry.2.references, target ∈ declared) ∧
          body.LeftmostOutside declared name := by
  rw [firstUndefined, List.findSome?_eq_some_iff]
  constructor
  · intro found
    obtain ⟨before, ⟨rule, body⟩, after, whole, inBody, others⟩ := found
    obtain ⟨target, missing, same⟩ := Option.map_eq_some_iff.mp inBody
    cases same
    refine ⟨before, body, after, whole, ?_, Rule.find?_references_eq_some_iff.mp missing⟩
    exact closed_of_firstUndefined (List.findSome?_eq_none_iff.mpr others)
  · intro split
    obtain ⟨before, body, after, whole, closed, leftmost⟩ := split
    refine ⟨before, (owner, body), after, whole, ?_, ?_⟩
    · exact Option.map_eq_some_iff.mpr
        ⟨name, Rule.find?_references_eq_some_iff.mpr leftmost, rfl⟩
    · exact List.findSome?_eq_none_iff.mp (firstUndefined_eq_none closed)

def start? (draft : Draft) : Option String := draft.start.or draft.names.head?

theorem startName_eq (draft : Draft) : draft.startName = draft.start?.getD "" := by
  unfold startName start?
  cases draft.start <;> rfl

def Started (draft : Draft) : Prop := ∃ start ∈ draft.names, draft.start? = some start

def Closed (draft : Draft) (rules : List (String × Rule)) : Prop :=
  ∀ entry ∈ rules, ∀ path name, entry.2.At path (.nonTerminal name) → name ∈ draft.names

structure Admissible (draft : Draft) : Prop where
  distinct : draft.names.Nodup
  started : draft.Started
  closed : draft.Closed draft.rules

/-- What is wrong first: a name that was declared before, then a start symbol without
a rule, then a reference to nothing, in the first rule that has one and leftmost there. -/
inductive FirstFailure (draft : Draft) : GrammarError → Prop where
  | duplicate {before after : List String} {name : String}
      (names : draft.names = before ++ name :: after) (distinct : before.Nodup)
      (repeated : name ∈ before) : FirstFailure draft (.duplicateRule name)
  | missing (distinct : draft.names.Nodup) (unstarted : ¬draft.Started) :
      FirstFailure draft (.missingStart (draft.start?.getD ""))
  | undefined {before after : List (String × Rule)} {owner name : String} {body : Rule}
      (distinct : draft.names.Nodup) (started : draft.Started)
      (rules : draft.rules = before ++ (owner, body) :: after) (closed : draft.Closed before)
      (leftmost : body.LeftmostOutside draft.names name) :
      FirstFailure draft (.undefinedNonTerminal owner name)

theorem closed_iff {rules : List (String × Rule)} :
    draft.Closed rules ↔
      ∀ entry ∈ rules, ∀ name ∈ entry.2.references, name ∈ draft.names := by
  simp only [Closed, Rule.mem_references_iff]
  constructor
  · intro closed entry member name stands
    obtain ⟨path, stands⟩ := stands
    exact closed entry member path name stands
  · intro closed entry member path name stands
    exact closed entry member name ⟨path, stands⟩

theorem started_iff : draft.Started ↔ draft.startName ∈ draft.names := by
  rw [startName_eq]
  constructor
  · intro started
    obtain ⟨start, member, asked⟩ := started
    rwa [asked]
  · intro member
    cases asked : draft.start? with
    | some start =>
        rw [asked] at member
        exact ⟨start, member, asked⟩
    | none =>
        have noRules := List.head?_eq_none_iff.mp (Option.or_eq_none_iff.mp asked).2
        rw [noRules] at member
        cases member

theorem firstRepeat_eq_none_of_nodup (distinct : draft.names.Nodup) :
    firstRepeat [] draft.names = none :=
  firstRepeat_eq_none distinct fun _ _ => List.not_mem_nil

theorem Admissible.exists_build (admissible : draft.Admissible) :
    ∃ grammar, draft.build = .ok grammar := by
  have free := firstRepeat_eq_none_of_nodup admissible.distinct
  have started := started_iff.mp admissible.started
  have closed := firstUndefined_eq_none (closed_iff.mp admissible.closed)
  unfold build
  split
  case h_1 name repeated => cases free.symm.trans repeated
  case h_2 =>
    rw [dif_pos started]
    split
    case h_1 owner name undefined => cases closed.symm.trans undefined
    case h_2 => exact ⟨_, rfl⟩

theorem FirstFailure.build_eq {error : GrammarError} (failure : draft.FirstFailure error) :
    draft.build = .error error := by
  unfold build
  cases failure with
  | @duplicate before after name names distinct repeated =>
      have found := firstRepeat_eq_some_iff.mpr ⟨before, after, names, distinct, repeated⟩
      split
      case h_1 other again => rw [Option.some.inj (found.symm.trans again)]
      case h_2 free => cases found.symm.trans free
  | missing distinct unstarted =>
      have free := firstRepeat_eq_none_of_nodup distinct
      split
      case h_1 name repeated => cases free.symm.trans repeated
      case h_2 => rw [dif_neg (mt started_iff.mpr unstarted), startName_eq]
  | @undefined before after owner name body distinct started rules closed leftmost =>
      have free := firstRepeat_eq_none_of_nodup distinct
      have found := firstUndefined_eq_some_iff.mpr
        ⟨before, body, after, rules, closed_iff.mp closed, leftmost⟩
      split
      case h_1 name repeated => cases free.symm.trans repeated
      case h_2 =>
        rw [dif_pos (started_iff.mp started)]
        split
        case h_1 owner name undefined =>
          cases found.symm.trans undefined
          rfl
        case h_2 closed => cases found.symm.trans closed

theorem admissible_or_fails (draft : Draft) :
    draft.Admissible ∨ ∃ error, draft.FirstFailure error := by
  cases repeats : firstRepeat [] draft.names with
  | some name =>
      obtain ⟨before, after, names, distinct, repeated⟩ := firstRepeat_eq_some_iff.mp repeats
      exact Or.inr ⟨_, .duplicate names distinct repeated⟩
  | none =>
      have distinct := (nodup_of_firstRepeat repeats).1
      by_cases started : draft.Started
      · cases undefineds : firstUndefined draft.names draft.rules with
        | some found =>
            obtain ⟨owner, name⟩ := found
            obtain ⟨before, body, after, rules, closed, leftmost⟩ :=
              firstUndefined_eq_some_iff.mp undefineds
            exact Or.inr ⟨_, .undefined distinct started rules (closed_iff.mpr closed) leftmost⟩
        | none =>
            have closed := closed_iff.mpr (closed_of_firstUndefined undefineds)
            exact Or.inl ⟨distinct, started, closed⟩
      · exact Or.inr ⟨_, .missing distinct started⟩

/-- A draft is built, with its own start symbol and rules, exactly when nothing is wrong
with it, and otherwise the answer is what is wrong first. -/
theorem build_decides (draft : Draft) :
    ((∃ grammar, draft.build = .ok grammar) ↔ draft.Admissible) ∧
      (∀ grammar, draft.build = .ok grammar →
        draft.start? = some grammar.start ∧ grammar.rules = draft.rules) ∧
      ∀ error, draft.build = .error error ↔ draft.FirstFailure error := by
  refine ⟨⟨?_, Admissible.exists_build⟩, ?_, fun error => ⟨?_, FirstFailure.build_eq⟩⟩
  · intro built
    obtain ⟨grammar, built⟩ := built
    rcases draft.admissible_or_fails with admissible | ⟨error, failure⟩
    · exact admissible
    · cases built.symm.trans failure.build_eq
  · intro grammar built
    obtain ⟨start, rules⟩ := of_build built
    refine ⟨?_, rules⟩
    have member : draft.startName ∈ draft.names := by
      rw [← start, names, ← rules]
      exact grammar.startDefined
    obtain ⟨asked, -, same⟩ := started_iff.mpr member
    rw [start, startName_eq, same, Option.getD_some]
  · intro failed
    rcases draft.admissible_or_fails with admissible | ⟨other, failure⟩
    · obtain ⟨grammar, built⟩ := admissible.exists_build
      cases failed.symm.trans built
    · cases failed.symm.trans failure.build_eq
      exact failure

/-- The undefined reference that counts is the leftmost, not the one nearest to the top. -/
example : build ⟨none, [("S", .sequence
    [.optional (.sequence [.nonTerminal "S", .nonTerminal "A"]), .nonTerminal "B"])]⟩ =
      .error (.undefinedNonTerminal "S" "A") := by
  decide

end Draft

end Predictive
