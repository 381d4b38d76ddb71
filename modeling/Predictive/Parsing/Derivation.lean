/-
Derivation trees of a plain grammar: a leaf stands for the terminal that is its
token's kind, an inner node for a production with symbols, and an empty leaf for
a production without.
-/

import Predictive.Grammar.Plain
import Predictive.Parsing.Tree

namespace Predictive

mutual

/-- The tree derives a string of terminals from the symbol. -/
inductive Tree.Derives (grammar : PlainGrammar) : Symbol → Tree → Prop where
  | leaf (token : Token) : Tree.Derives grammar (.terminal token.kind) (.leaf token)
  | node {name : String} {symbol : Symbol} {rhs : List Symbol} {children : List Tree}
      (member : ⟨name, symbol :: rhs⟩ ∈ grammar.productions)
      (derived : Tree.DerivesAll grammar (symbol :: rhs) children) :
      Tree.Derives grammar (.nonTerminal name) (.node name children)
  | empty {name : String} (member : ⟨name, []⟩ ∈ grammar.productions) :
      Tree.Derives grammar (.nonTerminal name) (.empty name)

/-- Each tree derives from the symbol in its place. -/
inductive Tree.DerivesAll (grammar : PlainGrammar) : List Symbol → List Tree → Prop where
  | nil : Tree.DerivesAll grammar [] []
  | cons {symbol : Symbol} {symbols : List Symbol} {tree : Tree} {trees : List Tree}
      (first : Tree.Derives grammar symbol tree)
      (others : Tree.DerivesAll grammar symbols trees) :
      Tree.DerivesAll grammar (symbol :: symbols) (tree :: trees)

end

end Predictive
