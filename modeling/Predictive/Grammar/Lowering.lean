/-
Grammars with operators brought into plain form. The alternatives of a rule
become its productions and nested sequences are spliced into the string that
holds them. Every operator inside a rule gets a synthetic non-terminal, named
after the rule and numbered from one, in which names already taken are skipped:
an option `x?` becomes `S → x | ε`, a repetition `x*` becomes `S → x S | ε`, and
`x+` becomes `S → x T` with `T → x T | ε`.
-/

import Predictive.Grammar.Basic
import Predictive.Grammar.Plain

namespace Predictive

/-- A plain grammar in the making, with the next number to try for a synthetic
name of the current rule. -/
structure Lowering where
  nonTerminals : Array NonTerminal
  productions : Array Production
  suffix : Nat
  deriving DecidableEq, Repr

namespace Lowering

def empty : Lowering := ⟨#[], #[], 1⟩

def declare (lowering : Lowering) (name : String) (synthetic : Bool) : Lowering :=
  { lowering with nonTerminals := lowering.nonTerminals.push ⟨name, synthetic, []⟩ }

def addProduction (lowering : Lowering) (id : Nat) (rhs : List Symbol) : Lowering :=
  let lhs := (lowering.nonTerminals[id]?.map NonTerminal.name).getD ""
  { lowering with
    nonTerminals := lowering.nonTerminals.modify id fun nonTerminal =>
      { nonTerminal with
        productions := nonTerminal.productions ++ [lowering.productions.size] }
    productions := lowering.productions.push ⟨lhs, rhs⟩ }

def isTaken (lowering : Lowering) (name : String) : Bool :=
  lowering.nonTerminals.any fun nonTerminal => nonTerminal.name == name

def syntheticName (owner : String) (suffix : Nat) : String := owner ++ "#" ++ toString suffix

/-- The first number from `suffix` on whose synthetic name is free, among the next
`fuel` numbers; the one after them if none of these is. -/
def freeSuffix (lowering : Lowering) (owner : String) : Nat → Nat → Nat
  | 0, suffix => suffix
  | fuel + 1, suffix =>
      if lowering.isTaken (syntheticName owner suffix) then
        freeSuffix lowering owner fuel (suffix + 1)
      else suffix

/-- The next synthetic name of a rule. At most as many names are taken as there are
non-terminals, so the search among that many numbers ends at a free one. -/
def nextSuffix (lowering : Lowering) (owner : String) : Nat :=
  lowering.freeSuffix owner lowering.nonTerminals.size lowering.suffix

/-- Declares the next synthetic non-terminal of a rule. -/
def fresh (lowering : Lowering) (owner : String) : (Nat × String) × Lowering :=
  let suffix := lowering.nextSuffix owner
  let name := syntheticName owner suffix
  ((lowering.nonTerminals.size, name), { lowering.declare name true with suffix := suffix + 1 })

mutual

/-- The string of symbols that stands for a rule body, after the productions of the
synthetic non-terminals in it have been added. -/
def flatten (owner : String) (lowering : Lowering) : Rule → List Symbol × Lowering
  | .terminal name => ([.terminal name], lowering)
  | .nonTerminal name => ([.nonTerminal name], lowering)
  | .sequence items => flattenAll owner lowering items
  | .alternative items =>
      let ((id, name), lowering) := lowering.fresh owner
      ([.nonTerminal name], addBranches owner id lowering items)
  | .optional inner =>
      let ((id, name), lowering) := lowering.fresh owner
      let (body, lowering) := flatten owner lowering inner
      ([.nonTerminal name], (lowering.addProduction id body).addProduction id [])
  | .zeroOrMore inner =>
      let ((id, name), lowering) := lowering.fresh owner
      let (body, lowering) := flatten owner lowering inner
      ([.nonTerminal name],
        (lowering.addProduction id (body ++ [.nonTerminal name])).addProduction id [])
  | .oneOrMore inner =>
      let ((id, name), lowering) := lowering.fresh owner
      let ((tailId, tailName), lowering) := lowering.fresh owner
      let (body, lowering) := flatten owner lowering inner
      let step := body ++ [.nonTerminal tailName]
      ([.nonTerminal name],
        ((lowering.addProduction id step).addProduction tailId step).addProduction tailId [])

/-- The strings of several rule bodies, one after another. -/
def flattenAll (owner : String) (lowering : Lowering) : List Rule → List Symbol × Lowering
  | [] => ([], lowering)
  | item :: rest =>
      let (first, lowering) := flatten owner lowering item
      let (others, lowering) := flattenAll owner lowering rest
      (first ++ others, lowering)

/-- Adds a production of a non-terminal for each rule body. -/
def addBranches (owner : String) (id : Nat) (lowering : Lowering) : List Rule → Lowering
  | [] => lowering
  | item :: rest =>
      let (body, lowering) := flatten owner lowering item
      addBranches owner id (lowering.addProduction id body) rest

end

/-- The bodies that become productions of a rule. -/
def topBranches : Rule → List Rule
  | .alternative items => items
  | rule => [rule]

/-- Adds the productions of rules whose non-terminals are numbered from `id`. -/
def addRules (id : Nat) (lowering : Lowering) : List (String × Rule) → Lowering
  | [] => lowering
  | (name, rule) :: rest =>
      addRules (id + 1) (addBranches name id { lowering with suffix := 1 } (topBranches rule)) rest

/-- Declares named rules, which are not synthetic. -/
def declareAll (lowering : Lowering) (names : List String) : Lowering :=
  names.foldl (fun lowering name => lowering.declare name false) lowering

end Lowering

namespace Grammar

/-- The plain form of a grammar. Its rules keep their order and come first. -/
def lower (grammar : Grammar) : PlainGrammar :=
  let declared := Lowering.empty.declareAll grammar.names
  let full := Lowering.addRules 0 declared grammar.rules
  { start := (grammar.position? grammar.start).getD 0
    nonTerminals := full.nonTerminals
    productions := full.productions }

end Grammar

end Predictive
