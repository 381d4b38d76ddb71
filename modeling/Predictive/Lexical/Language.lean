/-
The language of a pattern: which texts it matches, said by the rules of regular
expressions and without any automaton.
-/

import Predictive.Lexical.Pattern

namespace Predictive.Pattern

/-- The pattern matches the whole text. A reversed range, an empty set and an
alternative without items match nothing. -/
inductive Matches : Pattern → List Char → Prop where
  | literal {text : String} : Matches (.literal text) text.toList
  | range {lo hi char : Char} (inside : lo ≤ char ∧ char ≤ hi) :
      Matches (.range lo hi) [char]
  | set {chars : CharSet} {char : Char} (member : chars.contains char = true) :
      Matches (.set chars) [char]
  | any {domain : CharDomain} {char : Char} (inside : domain.contains char = true) :
      Matches (.any domain) [char]
  | anyExcept {excluded : CharSet} {domain : CharDomain} {char : Char}
      (inside : domain.contains char = true) (outside : excluded.contains char = false) :
      Matches (.anyExcept excluded domain) [char]
  | sequenceNil : Matches (.sequence []) []
  | sequenceCons {item : Pattern} {rest : List Pattern} {left right : List Char}
      (first : Matches item left) (others : Matches (.sequence rest) right) :
      Matches (.sequence (item :: rest)) (left ++ right)
  | alternative {items : List Pattern} {item : Pattern} {text : List Char}
      (member : item ∈ items) (chosen : Matches item text) :
      Matches (.alternative items) text
  | optionalNone {inner : Pattern} : Matches (.optional inner) []
  | optionalSome {inner : Pattern} {text : List Char} (once : Matches inner text) :
      Matches (.optional inner) text
  | zeroOrMoreNil {inner : Pattern} : Matches (.zeroOrMore inner) []
  | zeroOrMoreCons {inner : Pattern} {left right : List Char}
      (first : Matches inner left) (others : Matches (.zeroOrMore inner) right) :
      Matches (.zeroOrMore inner) (left ++ right)
  | oneOrMore {inner : Pattern} {left right : List Char}
      (first : Matches inner left) (others : Matches (.zeroOrMore inner) right) :
      Matches (.oneOrMore inner) (left ++ right)

end Predictive.Pattern
