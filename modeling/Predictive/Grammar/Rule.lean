/-
Rule bodies with operators: sequences, alternatives, options and repetitions over
terminals and non-terminals. The empty sequence stands for the empty string.
-/

import Predictive.Grammar.Symbol

namespace Predictive

inductive Rule where
  | terminal (name : String)
  | nonTerminal (name : String)
  /-- All items in order. -/
  | sequence (items : List Rule)
  /-- One of the items. -/
  | alternative (items : List Rule)
  | optional (inner : Rule)
  | zeroOrMore (inner : Rule)
  | oneOrMore (inner : Rule)

namespace Rule

def epsilon : Rule := .sequence []

/-- The items in order; a single item stands for itself. -/
def seq : List Rule → Rule
  | [item] => item
  | items => .sequence items

/-- One of the items; a single item stands for itself. -/
def alt : List Rule → Rule
  | [item] => item
  | items => .alternative items

def isEpsilon : Rule → Bool
  | .sequence [] => true
  | _ => false

mutual

/-- Every reference to a terminal or a non-terminal, from left to right. -/
def symbols : Rule → List Symbol
  | .terminal name => [.terminal name]
  | .nonTerminal name => [.nonTerminal name]
  | .sequence items => symbolsOfAll items
  | .alternative items => symbolsOfAll items
  | .optional inner => symbols inner
  | .zeroOrMore inner => symbols inner
  | .oneOrMore inner => symbols inner

def symbolsOfAll : List Rule → List Symbol
  | [] => []
  | item :: rest => symbols item ++ symbolsOfAll rest

end

/-- Whether a rule is put in parentheses as an item of a sequence. -/
def groupsInSequence : Rule → Bool
  | .alternative _ => true
  | _ => false

/-- Whether a rule is put in parentheses before an operator: alternatives are, and
sequences of more than one item. -/
def groupsBeforeOperator : Rule → Bool
  | .sequence (_ :: _ :: _) => true
  | .alternative _ => true
  | _ => false

def parenthesize (group : Bool) (text : String) : String :=
  if group then "(" ++ text ++ ")" else text

mutual

/-- The text of a rule. -/
def render : Rule → String
  | .terminal name => "\"" ++ name ++ "\""
  | .nonTerminal name => name
  | .sequence [] => "ε"
  | .sequence (item :: rest) => " ".intercalate (renderItems (item :: rest))
  | .alternative items => " | ".intercalate (renderBranches items)
  | .optional inner => parenthesize inner.groupsBeforeOperator (render inner) ++ "?"
  | .zeroOrMore inner => parenthesize inner.groupsBeforeOperator (render inner) ++ "*"
  | .oneOrMore inner => parenthesize inner.groupsBeforeOperator (render inner) ++ "+"

/-- The texts of the items of a sequence. -/
def renderItems : List Rule → List String
  | [] => []
  | item :: rest => parenthesize item.groupsInSequence (render item) :: renderItems rest

/-- The texts of the items of an alternative. -/
def renderBranches : List Rule → List String
  | [] => []
  | item :: rest => render item :: renderBranches rest

end

mutual

/-- Whether two rules are the same, item by item. -/
def same : Rule → Rule → Bool
  | .terminal left, .terminal right => left == right
  | .nonTerminal left, .nonTerminal right => left == right
  | .sequence left, .sequence right => sameAll left right
  | .alternative left, .alternative right => sameAll left right
  | .optional left, .optional right => same left right
  | .zeroOrMore left, .zeroOrMore right => same left right
  | .oneOrMore left, .oneOrMore right => same left right
  | _, _ => false

def sameAll : List Rule → List Rule → Bool
  | [], [] => true
  | left :: lefts, right :: rights => same left right && sameAll lefts rights
  | _, _ => false

end

mutual

theorem same_iff (left right : Rule) : same left right = true ↔ left = right := by
  cases left <;> cases right <;> simp [same, same_iff, sameAll_iff]

theorem sameAll_iff (left right : List Rule) : sameAll left right = true ↔ left = right := by
  cases left <;> cases right <;> simp [sameAll, same_iff, sameAll_iff]

end

instance : DecidableEq Rule := fun left right => decidable_of_iff _ (same_iff left right)

end Rule

end Predictive
