/-
What grammars generate. A plain grammar replaces a non-terminal in a string of
symbols by one of its productions; a grammar with operators gives each rule body
its own set of terminal strings. Neither mentions lowering, sets or tables.
-/

import Predictive.Grammar.Basic
import Predictive.Grammar.Plain

namespace Predictive

namespace PlainGrammar

/-- One non-terminal in a string of symbols is replaced by a production. -/
inductive Produces (grammar : PlainGrammar) : List Symbol → List Symbol → Prop where
  | replace {production : Production} (left right : List Symbol)
      (member : production ∈ grammar.productions) :
      Produces grammar (left ++ .nonTerminal production.lhs :: right)
        (left ++ production.rhs ++ right)

/-- Any number of replacements. -/
inductive Derives (grammar : PlainGrammar) : List Symbol → List Symbol → Prop where
  | refl (form : List Symbol) : Derives grammar form form
  | step {first second third : List Symbol} (once : Produces grammar first second)
      (others : Derives grammar second third) : Derives grammar first third

/-- The terminal strings of a non-terminal. -/
def Generates (grammar : PlainGrammar) (name : String) (word : List String) : Prop :=
  grammar.Derives [.nonTerminal name] (word.map .terminal)

end PlainGrammar

namespace Grammar

/-- The terminal strings of a rule body. A non-terminal stands for the body of its
rule; an alternative without items has no strings. -/
inductive Denotes (grammar : Grammar) : Rule → List String → Prop where
  | terminal (name : String) : Denotes grammar (.terminal name) [name]
  | nonTerminal {name : String} {body : Rule} {word : List String}
      (member : (name, body) ∈ grammar.rules) (inner : Denotes grammar body word) :
      Denotes grammar (.nonTerminal name) word
  | sequenceNil : Denotes grammar (.sequence []) []
  | sequenceCons {item : Rule} {rest : List Rule} {left right : List String}
      (first : Denotes grammar item left) (others : Denotes grammar (.sequence rest) right) :
      Denotes grammar (.sequence (item :: rest)) (left ++ right)
  | alternative {items : List Rule} {item : Rule} {word : List String}
      (member : item ∈ items) (chosen : Denotes grammar item word) :
      Denotes grammar (.alternative items) word
  | optionalNone {inner : Rule} : Denotes grammar (.optional inner) []
  | optionalSome {inner : Rule} {word : List String} (once : Denotes grammar inner word) :
      Denotes grammar (.optional inner) word
  | zeroOrMoreNil {inner : Rule} : Denotes grammar (.zeroOrMore inner) []
  | zeroOrMoreCons {inner : Rule} {left right : List String}
      (first : Denotes grammar inner left) (others : Denotes grammar (.zeroOrMore inner) right) :
      Denotes grammar (.zeroOrMore inner) (left ++ right)
  | oneOrMore {inner : Rule} {left right : List String}
      (first : Denotes grammar inner left) (others : Denotes grammar (.zeroOrMore inner) right) :
      Denotes grammar (.oneOrMore inner) (left ++ right)

/-- The sentences of a grammar are the terminal strings of its start symbol. -/
def Sentence (grammar : Grammar) (word : List String) : Prop :=
  grammar.Denotes (.nonTerminal grammar.start) word

end Grammar

end Predictive
