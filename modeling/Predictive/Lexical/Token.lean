/-
Tokens: a kind, the text that was matched, and where it stands. Reports of what
went wrong carry a code and a labelled span.
-/

import Predictive.Text.Escape
import Predictive.Text.Position

namespace Predictive

structure Token where
  kind : String
  text : String
  span : Span
  line : Nat
  column : Nat
  deriving DecidableEq, Repr, Inhabited

namespace Token

/-- The place of the first character. -/
def position (token : Token) : Position := ⟨token.span.start, token.line, token.column⟩

/-- The place just after the last character, counted from the text. -/
def endPosition (token : Token) : Position := token.position.advanceOver token.text.toList

def isKind (token : Token) (kind : String) : Bool := token.kind == kind

def render (token : Token) : String :=
  token.kind ++ "(" ++ Text.quoteText token.text ++ ")@" ++ toString token.line ++ ":" ++
    toString token.column

end Token

/-- A remark on a stretch of the source. -/
structure Label where
  text : String
  offset : Nat
  length : Nat
  deriving DecidableEq, Repr

namespace Label

def ofSpan (text : String) (span : Span) : Label := ⟨text, span.start, span.length⟩

end Label

end Predictive
