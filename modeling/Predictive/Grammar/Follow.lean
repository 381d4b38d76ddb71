/-
FOLLOW sets: the lookaheads that can stand right after a non-terminal. The end of
input follows the start symbol; what begins the rest of a production follows a
non-terminal in it, and so does what follows the production's own non-terminal
when the rest can vanish.
-/

import Predictive.Grammar.First

namespace Predictive

/-- The FOLLOW set of every non-terminal, in the order of their numbers. -/
structure FollowSets where
  names : List String
  sets : Array (List Lookahead)
  deriving DecidableEq, Repr

namespace FollowSets

/-- The FOLLOW set of a non-terminal; a number without one has an empty set. -/
def ofId (follow : FollowSets) (id : Nat) : List Lookahead := follow.sets.getD id []

def ofName (follow : FollowSets) (name : String) : List Lookahead :=
  match follow.names.findIdx? fun other => other == name with
  | some id => follow.ofId id
  | none => []

/-- Adds lookaheads to the set of a non-terminal. -/
def extend (follow : FollowSets) (id : Nat) (lookaheads : List Lookahead) : FollowSets :=
  { follow with
    sets := follow.sets.modify id fun set => OrderedSet.insertAll set lookaheads }

/-- Adds what an occurrence of a non-terminal says about it: `rest` stands behind
it in a production of the non-terminal `lhs`. -/
def absorb (first : FirstSets) (follow : FollowSets) (lhs target : Nat) (rest : List Symbol) :
    FollowSets :=
  let (terminals, nullable) := first.ofSymbols rest
  let extended := follow.extend target (terminals.map .token)
  if nullable && lhs != target then extended.extend target (extended.ofId lhs) else extended

/-- Adds what a production says about the non-terminals in it, from left to right. -/
def absorbString (grammar : PlainGrammar) (first : FirstSets) (lhs : Nat) (follow : FollowSets) :
    List Symbol → FollowSets
  | [] => follow
  | .terminal _ :: rest => absorbString grammar first lhs follow rest
  | .nonTerminal name :: rest =>
      match grammar.idOf? name with
      | some target =>
          absorbString grammar first lhs (absorb first follow lhs target rest) rest
      | none => absorbString grammar first lhs follow rest

/-- One pass over the productions; what it adds is used at once. -/
def pass (grammar : PlainGrammar) (first : FirstSets) (follow : FollowSets) : FollowSets :=
  grammar.productions.toList.foldl (fun follow production =>
    match grammar.idOf? production.lhs with
    | some lhs => absorbString grammar first lhs follow production.rhs
    | none => follow) follow

/-- Only the start symbol is followed, by the end of input. -/
def initial (grammar : PlainGrammar) : FollowSets :=
  extend
    { names := grammar.names
      sets := grammar.nonTerminals.map fun _ => [] }
    grammar.start [.endOfInput]

/-- Every lookahead that a FIRST set or the grammar can contribute, with
repetitions. -/
def candidates (grammar : PlainGrammar) (first : FirstSets) : List String :=
  grammar.terminals ++ first.sets.toList.flatMap FirstSet.terminals

/-- Every pass but the last adds a lookahead to a set, so this many suffice. -/
def passLimit (grammar : PlainGrammar) (first : FirstSets) : Nat :=
  grammar.nonTerminals.size * ((candidates grammar first).length + 1) + 1

/-- The FOLLOW sets of a grammar and the number of passes that they took. -/
def solve (grammar : PlainGrammar) (first : FirstSets) : FollowSets × Nat :=
  settle (pass grammar first) (passLimit grammar first) 0 (initial grammar)

/-- The FOLLOW sets of a grammar, by given FIRST sets. -/
def compute (grammar : PlainGrammar) (first : FirstSets) : FollowSets := (solve grammar first).1

end FollowSets

end Predictive
