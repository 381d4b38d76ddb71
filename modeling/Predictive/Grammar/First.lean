/-
FIRST sets and nullability. The terminals that can begin a string derived from a
non-terminal, and whether it derives the empty string, are found by passes over
the productions that are repeated until one of them changes nothing.
-/

import Predictive.Grammar.Plain
import Predictive.Grammar.Rule
import Predictive.OrderedSet

namespace Predictive

/-- Repeats a pass until it changes nothing, for at most `fuel` passes, and counts
the passes; the one that changes nothing counts too. -/
def settle {σ : Type} [DecidableEq σ] (pass : σ → σ) : Nat → Nat → σ → σ × Nat
  | 0, passes, state => (state, passes)
  | fuel + 1, passes, state =>
      let next := pass state
      if next = state then (state, passes + 1) else settle pass fuel (passes + 1) next

/-- What is known about one non-terminal. -/
structure FirstSet where
  name : String
  terminals : List String
  nullable : Bool
  deriving DecidableEq, Repr

/-- What is known about every non-terminal, in the order of their numbers. -/
structure FirstSets where
  sets : Array FirstSet
  deriving DecidableEq, Repr

namespace FirstSets

def find? (first : FirstSets) (name : String) : Option FirstSet :=
  first.sets.find? fun set => set.name == name

/-- The FIRST set of a non-terminal; an unknown name has an empty one. -/
def ofName (first : FirstSets) (name : String) : List String :=
  match first.find? name with
  | some set => set.terminals
  | none => []

def isNullable (first : FirstSets) (name : String) : Bool :=
  match first.find? name with
  | some set => set.nullable
  | none => false

def ofId (first : FirstSets) (id : Nat) : List String :=
  match first.sets[id]? with
  | some set => set.terminals
  | none => []

def isNullableId (first : FirstSets) (id : Nat) : Bool :=
  match first.sets[id]? with
  | some set => set.nullable
  | none => false

def ofSymbol (first : FirstSets) : Symbol → List String
  | .terminal name => [name]
  | .nonTerminal name => first.ofName name

/-- The terminals that can begin a string of symbols, and whether all of it can
vanish. Symbols behind one that cannot vanish do not count. -/
def ofSymbols (first : FirstSets) : List Symbol → List String × Bool
  | [] => ([], true)
  | .terminal name :: _ => ([name], false)
  | .nonTerminal name :: rest =>
      if first.isNullable name then
        let (others, nullable) := first.ofSymbols rest
        (OrderedSet.insertAll (first.ofName name) others, nullable)
      else (first.ofName name, false)

/-- Adds what one production says about its non-terminal. -/
def absorb (first : FirstSets) (id : Nat) (rhs : List Symbol) : FirstSets :=
  let (terminals, nullable) := first.ofSymbols rhs
  ⟨first.sets.modify id fun set =>
    { set with
      terminals := OrderedSet.insertAll set.terminals terminals
      nullable := set.nullable || nullable }⟩

/-- Each production of each non-terminal, in the order of their numbers. -/
def visits (grammar : PlainGrammar) : List (Nat × List Symbol) :=
  (List.range grammar.nonTerminals.size).flatMap fun id =>
    (grammar.productionIds id).map fun production => (id, (grammar.production production).rhs)

/-- One pass over the productions; what it adds is used at once. -/
def pass (grammar : PlainGrammar) (first : FirstSets) : FirstSets :=
  (visits grammar).foldl (fun first (id, rhs) => first.absorb id rhs) first

/-- Nothing is known yet. -/
def initial (grammar : PlainGrammar) : FirstSets :=
  ⟨grammar.nonTerminals.map fun nonTerminal => ⟨nonTerminal.name, [], false⟩⟩

/-- Every pass but the last adds a terminal to a set or finds a non-terminal
nullable, so this many suffice. -/
def passLimit (grammar : PlainGrammar) : Nat :=
  grammar.nonTerminals.size * (grammar.terminals.length + 1) + 1

/-- The FIRST sets of a grammar and the number of passes that they took. -/
def solve (grammar : PlainGrammar) : FirstSets × Nat :=
  settle (pass grammar) (passLimit grammar) 0 (initial grammar)

/-- The FIRST sets of a grammar. -/
def compute (grammar : PlainGrammar) : FirstSets := (solve grammar).1

mutual

/-- Whether a rule body can derive the empty string. -/
def isNullableRule (first : FirstSets) : Rule → Bool
  | .terminal _ => false
  | .nonTerminal name => first.isNullable name
  | .sequence items => isNullableAll first items
  | .alternative items => isNullableAny first items
  | .optional _ => true
  | .zeroOrMore _ => true
  | .oneOrMore inner => isNullableRule first inner

def isNullableAll (first : FirstSets) : List Rule → Bool
  | [] => true
  | item :: rest => isNullableRule first item && isNullableAll first rest

def isNullableAny (first : FirstSets) : List Rule → Bool
  | [] => false
  | item :: rest => isNullableRule first item || isNullableAny first rest

end

mutual

/-- The terminals that can begin a string derived from a rule body. -/
def ofRule (first : FirstSets) : Rule → List String
  | .terminal name => [name]
  | .nonTerminal name => first.ofName name
  | .sequence items => ofSequence first items
  | .alternative items => ofAlternative first items
  | .optional inner => ofRule first inner
  | .zeroOrMore inner => ofRule first inner
  | .oneOrMore inner => ofRule first inner

def ofSequence (first : FirstSets) : List Rule → List String
  | [] => []
  | item :: rest =>
      if first.isNullableRule item then
        OrderedSet.insertAll (ofRule first item) (ofSequence first rest)
      else ofRule first item

def ofAlternative (first : FirstSets) : List Rule → List String
  | [] => []
  | item :: rest => OrderedSet.insertAll (ofRule first item) (ofAlternative first rest)

end

end FirstSets

end Predictive
