/-
What rule bodies mean, with non-terminals as symbols of their own, and what their texts
show of it. A rule is grouped when every operator in it stands behind one item of the
text. The reading of a rule is the rule that its text shows: there an operator behind
several items belongs to the last of them.
-/

import Mathlib.Computability.Language
import Predictive.Grammar.Rule

namespace Predictive

inductive RuleText.Operator where
  | optional
  | zeroOrMore
  | oneOrMore
  deriving DecidableEq, Repr

def RuleText.Operator.rule : RuleText.Operator → Rule → Rule
  | .optional => .optional
  | .zeroOrMore => .zeroOrMore
  | .oneOrMore => .oneOrMore

namespace Rule

open RuleText

mutual

/-- The strings of symbols of a rule; non-terminals stand for themselves. -/
def language : Rule → Language Symbol
  | .terminal name => {[.terminal name]}
  | .nonTerminal name => {[.nonTerminal name]}
  | .sequence items => languageOfSequence items
  | .alternative items => languageOfChoice items
  | .optional inner => 1 + language inner
  | .zeroOrMore inner => KStar.kstar (language inner)
  | .oneOrMore inner => language inner * KStar.kstar (language inner)

def languageOfSequence : List Rule → Language Symbol
  | [] => 1
  | item :: rest => language item * languageOfSequence rest

def languageOfChoice : List Rule → Language Symbol
  | [] => 0
  | item :: rest => language item + languageOfChoice rest

end

/-- The names of all symbols are words of letters and digits. -/
def Worded (rule : Rule) : Prop :=
  ∀ symbol ∈ rule.symbols, symbol.name.toList ≠ [] ∧ ∀ char ∈ symbol.name.toList, char.isAlphanum

instance (rule : Rule) : Decidable rule.Worded :=
  decidable_of_iff (rule.symbols.all fun symbol =>
      !symbol.name.toList.isEmpty && symbol.name.toList.all Char.isAlphanum)
    (by simp only [Worded, List.all_eq_true, Bool.and_eq_true, Bool.not_eq_true',
      List.isEmpty_eq_false_iff])

/-- Whether several items of the rule are shown side by side. -/
def showsSeveral : Rule → Bool
  | .sequence [item] => item.showsSeveral
  | .sequence (_ :: _ :: _) => true
  | _ => false

/-- Whether what an operator belongs to is shown as one item. -/
def isOneOperand (rule : Rule) : Bool := rule.groupsBeforeOperator || !rule.showsSeveral

mutual

/-- Whether every operator in a rule belongs to what is shown as one item. -/
def isGrouped : Rule → Bool
  | .terminal _ => true
  | .nonTerminal _ => true
  | .sequence items => areGrouped items
  | .alternative items => areGrouped items
  | .optional inner => inner.isOneOperand && isGrouped inner
  | .zeroOrMore inner => inner.isOneOperand && isGrouped inner
  | .oneOrMore inner => inner.isOneOperand && isGrouped inner

def areGrouped : List Rule → Bool
  | [] => true
  | item :: rest => isGrouped item && areGrouped rest

end

mutual

/-- An operator behind the last item that a rule shows. -/
def onLast (operator : Operator) : Rule → Rule
  | .sequence [] => operator.rule (.sequence [])
  | .sequence (item :: rest) => .sequence (onLastOf operator (item :: rest))
  | rule => operator.rule rule

def onLastOf (operator : Operator) : List Rule → List Rule
  | [] => []
  | [item] => [onLast operator item]
  | item :: next :: rest => item :: onLastOf operator (next :: rest)

end

/-- An operator behind the text of a rule, in parentheses or not. -/
def attach (operator : Operator) (inParentheses : Bool) (rule : Rule) : Rule :=
  if inParentheses then operator.rule rule else rule.onLast operator

mutual

/-- The rule that a reader finds in the text of a rule. -/
def reading : Rule → Rule
  | .terminal name => .terminal name
  | .nonTerminal name => .nonTerminal name
  | .sequence items => .sequence (readings items)
  | .alternative items => .alternative (readings items)
  | .optional inner => attach .optional inner.groupsBeforeOperator (reading inner)
  | .zeroOrMore inner => attach .zeroOrMore inner.groupsBeforeOperator (reading inner)
  | .oneOrMore inner => attach .oneOrMore inner.groupsBeforeOperator (reading inner)

def readings : List Rule → List Rule
  | [] => []
  | item :: rest => reading item :: readings rest

end

end Rule

end Predictive
