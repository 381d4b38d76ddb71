/-
Patterns for tokens: an algebra of literals, character classes, sequences,
alternatives and repetitions. A pattern is plain data; it is shown as text here
and turned into an automaton elsewhere.
-/

import Predictive.Lexical.CharSet
import Predictive.Text.Escape

namespace Predictive

inductive Pattern where
  /-- The characters of a text, one after another. -/
  | literal (text : String)
  /-- One character from `lo` to `hi`; nothing when the bounds are reversed. -/
  | range (lo hi : Char)
  /-- One character of a set. -/
  | set (chars : CharSet)
  /-- One character of a domain. -/
  | any (domain : CharDomain)
  /-- One character of a domain that is not excluded. -/
  | anyExcept (excluded : CharSet) (domain : CharDomain)
  /-- All items in order. -/
  | sequence (items : List Pattern)
  /-- One of the items. -/
  | alternative (items : List Pattern)
  | optional (inner : Pattern)
  | zeroOrMore (inner : Pattern)
  | oneOrMore (inner : Pattern)

namespace Pattern

/-- One character between two bounds in either order. -/
def between (left right : Char) : Pattern :=
  let bounds := CharRange.between left right
  .range bounds.lo bounds.hi

/-- One of the given characters. -/
def oneOf (chars : List Char) : Pattern := .set (.ofChars chars)

/-- One character of a domain that is none of the given ones. -/
def noneOf (chars : List Char) (domain : CharDomain) : Pattern :=
  .anyExcept (.ofChars chars) domain

/-- The items in order; a single item stands for itself. -/
def seq : List Pattern → Pattern
  | [item] => item
  | items => .sequence items

/-- One of the items; a single item stands for itself. -/
def alt : List Pattern → Pattern
  | [item] => item
  | items => .alternative items

/-- Ranges side by side; a range of one character is shown as the character. -/
def renderRanges (ranges : List CharRange) : String :=
  String.join <| ranges.map fun range =>
    if range.lo = range.hi then Text.escapeChar .bound range.lo
    else Text.escapeChar .bound range.lo ++ "-" ++ Text.escapeChar .bound range.hi

mutual

/-- The text of a pattern. The domain of a class is not part of it. -/
def render : Pattern → String
  | .literal text => Text.quoteText text
  | .range lo hi => "[" ++ Text.escapeChar .bound lo ++ "-" ++ Text.escapeChar .bound hi ++ "]"
  | .set chars => "[" ++ renderRanges chars.ranges ++ "]"
  | .any _ => "."
  | .anyExcept excluded _ => "[^" ++ renderRanges excluded.ranges ++ "]"
  | .sequence items => "(" ++ " ".intercalate (renderEach items) ++ ")"
  | .alternative items => "(" ++ " | ".intercalate (renderEach items) ++ ")"
  | .optional inner => render inner ++ "?"
  | .zeroOrMore inner => render inner ++ "*"
  | .oneOrMore inner => render inner ++ "+"

def renderEach : List Pattern → List String
  | [] => []
  | item :: rest => render item :: renderEach rest

end

end Pattern

/-- A named pattern. Among tokens that match the same text the highest priority
wins. -/
structure TokenRule where
  name : String
  pattern : Pattern
  priority : Nat

/-- Token rules in the order of their declaration. -/
structure LexicalGrammar where
  tokens : List TokenRule

namespace LexicalGrammar

def empty : LexicalGrammar := ⟨[]⟩

def add (grammar : LexicalGrammar) (token : TokenRule) : LexicalGrammar :=
  ⟨grammar.tokens ++ [token]⟩

def defines (grammar : LexicalGrammar) (name : String) : Bool :=
  grammar.tokens.any fun token => token.name == name

end LexicalGrammar

end Predictive
