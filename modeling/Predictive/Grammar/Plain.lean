/-
Grammars of plain productions. Non-terminals and productions are numbered; a
non-terminal lists the numbers of its productions in the order in which they were
added.
-/

import Predictive.Grammar.Symbol

namespace Predictive

structure NonTerminal where
  name : String
  /-- Whether the non-terminal was introduced for an operator inside a rule. -/
  synthetic : Bool
  productions : List Nat
  deriving DecidableEq, Repr

structure PlainGrammar where
  start : Nat
  nonTerminals : Array NonTerminal
  productions : Array Production
  deriving DecidableEq, Repr

namespace PlainGrammar

def idOf? (grammar : PlainGrammar) (name : String) : Option Nat :=
  grammar.nonTerminals.findIdx? fun nonTerminal => nonTerminal.name == name

def nameOf? (grammar : PlainGrammar) (id : Nat) : Option String :=
  grammar.nonTerminals[id]?.map NonTerminal.name

/-- The name of a non-terminal; a number without one gives the empty name. -/
def nameOf (grammar : PlainGrammar) (id : Nat) : String := (grammar.nameOf? id).getD ""

def startName (grammar : PlainGrammar) : String := grammar.nameOf grammar.start

/-- The numbers of the productions of a non-terminal. -/
def productionIds (grammar : PlainGrammar) (id : Nat) : List Nat :=
  match grammar.nonTerminals[id]? with
  | some nonTerminal => nonTerminal.productions
  | none => []

def isSynthetic (grammar : PlainGrammar) (id : Nat) : Bool :=
  match grammar.nonTerminals[id]? with
  | some nonTerminal => nonTerminal.synthetic
  | none => false

/-- The production with a number; a number without one gives the empty production
of no non-terminal. -/
def production (grammar : PlainGrammar) (id : Nat) : Production :=
  grammar.productions.getD id ⟨"", []⟩

/-- The productions of a named non-terminal. -/
def productionsOf (grammar : PlainGrammar) (name : String) : List Production :=
  match grammar.idOf? name with
  | some id => (grammar.productionIds id).map grammar.production
  | none => []

/-- The names of the non-terminals in the order of their numbers. -/
def names (grammar : PlainGrammar) : List String :=
  grammar.nonTerminals.toList.map NonTerminal.name

/-- Every terminal in a production, from the first production on, as often as it
occurs. -/
def terminals (grammar : PlainGrammar) : List String :=
  (grammar.productions.toList.flatMap Production.rhs).filterMap fun
    | .terminal name => some name
    | .nonTerminal _ => none

end PlainGrammar

end Predictive
