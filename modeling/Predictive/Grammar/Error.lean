/-
Reasons why a grammar cannot be used: it is malformed, or two productions claim
one cell of its parse table. Each reason is a value; the wording is given once.
-/

import Predictive.Grammar.Symbol

namespace Predictive

/-- How the productions of a cell collide. -/
inductive ConflictKind where
  /-- The lookahead begins both productions. -/
  | firstFirst
  /-- One production claims the cell because the lookahead may follow it. -/
  | firstFollow
  deriving DecidableEq, Repr

/-- A cell of a parse table that several productions claim. -/
structure Conflict where
  nonTerminal : String
  lookahead : Lookahead
  /-- The claimants in the order in which they reached the cell. -/
  productions : List Production
  kind : ConflictKind
  deriving DecidableEq, Repr

inductive GrammarError where
  | missingStart (start : String)
  | undefinedNonTerminal (rule name : String)
  | duplicateRule (name : String)
  | unknownTerminal (rule name : String)
  | notLl1 (conflicts : List Conflict)
  deriving DecidableEq, Repr

namespace ConflictKind

def render : ConflictKind → String
  | .firstFirst => "FIRST/FIRST"
  | .firstFollow => "FIRST/FOLLOW"

end ConflictKind

namespace Conflict

def render (conflict : Conflict) : String :=
  conflict.kind.render ++ " conflict at [" ++ conflict.nonTerminal ++ ", " ++
    conflict.lookahead.render ++ "] between " ++
    " and ".intercalate (conflict.productions.map fun production =>
      "`" ++ production.render ++ "`")

end Conflict

namespace GrammarError

def message : GrammarError → String
  | .missingStart start => "start symbol `" ++ start ++ "` has no rule"
  | .undefinedNonTerminal rule name =>
      "rule `" ++ rule ++ "` refers to undefined non-terminal `" ++ name ++ "`"
  | .duplicateRule name => "rule `" ++ name ++ "` is defined more than once"
  | .unknownTerminal rule name =>
      "rule `" ++ rule ++ "` uses terminal `" ++ name ++ "` that no token definition produces"
  | .notLl1 conflicts =>
      "grammar is not LL(1): " ++ toString conflicts.length ++ " conflict(s)" ++
        String.join (conflicts.map fun conflict => "\n  " ++ conflict.render)

def code : GrammarError → String
  | .missingStart _ => "grammar::missing_start_symbol"
  | .undefinedNonTerminal _ _ => "grammar::undefined_non_terminal"
  | .duplicateRule _ => "grammar::duplicate_rule"
  | .unknownTerminal _ _ => "grammar::unknown_terminal"
  | .notLl1 _ => "grammar::not_ll1"

/-- The conflicts of a grammar that is not LL(1). -/
def conflicts : GrammarError → List Conflict
  | .notLl1 conflicts => conflicts
  | _ => []

end GrammarError

end Predictive
