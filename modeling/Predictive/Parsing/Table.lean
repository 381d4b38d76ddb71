/-
Parse tables. A production claims a cell, its non-terminal under a lookahead, when
the lookahead can begin it, and also when it can vanish and the lookahead can
follow the non-terminal. The first claim fills the cell; a later claim by a
different production is a conflict, and a grammar with conflicts has no table.
-/

import Predictive.Grammar.Error
import Predictive.Grammar.Follow
import Predictive.Grammar.Lowering

namespace Predictive

/-- One production's claim to the cell of its non-terminal under a lookahead. -/
structure Claim where
  production : Nat
  lookahead : Lookahead
  /-- Whether the claim comes from what can follow the non-terminal. -/
  viaFollow : Bool
  deriving DecidableEq, Repr

/-- A grammar with the production to expand in each filled cell. The row of a
non-terminal is in ascending order of lookaheads. -/
structure ParseTable where
  grammar : PlainGrammar
  rows : Array (List (Lookahead × Nat))
  deriving DecidableEq, Repr

/-- The claims of one production of a non-terminal, those by FIRST before those by
FOLLOW. -/
def productionClaims (grammar : PlainGrammar) (first : FirstSets) (follow : FollowSets)
    (id production : Nat) : List Claim :=
  let (terminals, nullable) := first.ofSymbols (grammar.production production).rhs
  let byFirst := terminals.map fun terminal => ⟨production, .token terminal, false⟩
  if nullable then
    byFirst ++ (follow.ofId id).map fun lookahead => ⟨production, lookahead, true⟩
  else byFirst

/-- The claims of the productions of a non-terminal, in their order. -/
def claims (grammar : PlainGrammar) (first : FirstSets) (follow : FollowSets) (id : Nat) :
    List Claim :=
  (grammar.productionIds id).flatMap (productionClaims grammar first follow id)

namespace Claim

/-- The lookaheads that are claimed, in ascending order. -/
def lookaheads (claims : List Claim) : List Lookahead :=
  OrderedSet.ofList (claims.map Claim.lookahead)

/-- The first claim to a cell, which fills it. -/
def occupant? (claims : List Claim) (lookahead : Lookahead) : Option Claim :=
  claims.find? fun claim => claim.lookahead = lookahead

/-- The cells of a non-terminal. -/
def row (claims : List Claim) : List (Lookahead × Nat) :=
  (lookaheads claims).filterMap fun lookahead =>
    (occupant? claims lookahead).map fun occupant => (lookahead, occupant.production)

/-- Whether two claims come from different productions. Productions of the same
shape are the same. -/
def clashes (grammar : PlainGrammar) (left right : Claim) : Bool :=
  grammar.production left.production ≠ grammar.production right.production

/-- The claims that find their cell taken by a different production, with the
occupant of the cell, in the order of the claims. -/
def collisions (grammar : PlainGrammar) (claims : List Claim) : List (Claim × Claim) :=
  claims.filterMap fun claim =>
    match occupant? claims claim.lookahead with
    | some occupant => if clashes grammar occupant claim then some (occupant, claim) else none
    | none => none

/-- The conflict in a cell, if different productions claim it. It is between FIRST
and FOLLOW when some collision in the cell involves a claim by FOLLOW. -/
def conflict? (grammar : PlainGrammar) (id : Nat) (claims : List Claim) (lookahead : Lookahead) :
    Option Conflict :=
  match (collisions grammar claims).filter fun pair => pair.2.lookahead = lookahead with
  | [] => none
  | (occupant, claim) :: rest =>
      let inCell := (occupant, claim) :: rest
      some
        { nonTerminal := grammar.nameOf id
          lookahead
          productions :=
            (grammar.production occupant.production ::
              inCell.map fun pair => grammar.production pair.2.production).eraseDups
          kind :=
            if inCell.any fun pair => pair.1.viaFollow || pair.2.viaFollow then .firstFollow
            else .firstFirst }

end Claim

namespace ParseTable

/-- The conflicts of a grammar, by the number of the non-terminal and then by
lookahead. -/
def conflicts (grammar : PlainGrammar) (first : FirstSets) (follow : FollowSets) :
    List Conflict :=
  (List.range grammar.nonTerminals.size).flatMap fun id =>
    let claims := claims grammar first follow id
    (Claim.lookaheads claims).filterMap (Claim.conflict? grammar id claims)

/-- The cells of a grammar, each with the first claim to it. -/
def fill (grammar : PlainGrammar) (first : FirstSets) (follow : FollowSets) : ParseTable :=
  { grammar
    rows := ((List.range grammar.nonTerminals.size).map fun id =>
      Claim.row (claims grammar first follow id)).toArray }

/-- The table of a grammar by given FIRST and FOLLOW sets. -/
def ofSets (grammar : PlainGrammar) (first : FirstSets) (follow : FollowSets) :
    Except GrammarError ParseTable :=
  match conflicts grammar first follow with
  | [] => .ok (fill grammar first follow)
  | found => .error (.notLl1 found)

/-- The table of a grammar in plain form. -/
def ofPlain (grammar : PlainGrammar) : Except GrammarError ParseTable :=
  let first := FirstSets.compute grammar
  ofSets grammar first (FollowSets.compute grammar first)

/-- The table of a grammar. -/
def build (grammar : Grammar) : Except GrammarError ParseTable := ofPlain grammar.lower

def row (table : ParseTable) (id : Nat) : List (Lookahead × Nat) := table.rows.getD id []

/-- The number of the production to expand. -/
def productionId? (table : ParseTable) (id : Nat) (lookahead : Lookahead) : Option Nat :=
  (table.row id).lookup lookahead

/-- The production to expand for a named non-terminal. -/
def get? (table : ParseTable) (name : String) (lookahead : Lookahead) : Option Production :=
  (table.grammar.idOf? name).bind fun id =>
    (table.productionId? id lookahead).map table.grammar.production

/-- The lookaheads under which a non-terminal has a production, in ascending order. -/
def expected (table : ParseTable) (id : Nat) : List Lookahead := (table.row id).map Prod.fst

def expectedOf (table : ParseTable) (name : String) : List Lookahead :=
  match table.grammar.idOf? name with
  | some id => table.expected id
  | none => []

/-- The number of filled cells. -/
def size (table : ParseTable) : Nat := table.rows.toList.flatten.length

/-- Every filled cell, by the number of the non-terminal and then by lookahead. -/
def entries (table : ParseTable) : List (String × Lookahead × Production) :=
  (List.range table.rows.size).flatMap fun id =>
    (table.row id).map fun (lookahead, production) =>
      (table.grammar.nameOf id, lookahead, table.grammar.production production)

end ParseTable

end Predictive
