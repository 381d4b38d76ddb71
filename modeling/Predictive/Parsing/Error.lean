/-
Reasons why tokens have no parse tree, each with its place in the source and the
lookaheads that would have been accepted there.
-/

import Predictive.Grammar.Symbol
import Predictive.Lexical.Token

namespace Predictive

inductive ParseError where
  | unexpectedToken (expected : List Lookahead) (found : Token)
  | unexpectedEnd (expected : List Lookahead) (position : Position)
  | trailingInput (found : Token)
  deriving DecidableEq, Repr

namespace ParseError

/-- The token at which parsing stopped, unless it stopped at the end. -/
def found? : ParseError → Option Token
  | .unexpectedToken _ found => some found
  | .unexpectedEnd _ _ => none
  | .trailingInput found => some found

def span : ParseError → Span
  | .unexpectedToken _ found => found.span
  | .unexpectedEnd _ position => .emptyAt position.offset
  | .trailingInput found => found.span

def line : ParseError → Nat
  | .unexpectedToken _ found => found.line
  | .unexpectedEnd _ position => position.line
  | .trailingInput found => found.line

def column : ParseError → Nat
  | .unexpectedToken _ found => found.column
  | .unexpectedEnd _ position => position.column
  | .trailingInput found => found.column

/-- The lookaheads that would have been accepted. Behind a complete tree only the
end of input would be, and none is listed. -/
def expected : ParseError → List Lookahead
  | .unexpectedToken expected _ => expected
  | .unexpectedEnd expected _ => expected
  | .trailingInput _ => []

def reason : ParseError → String
  | .unexpectedToken expected found =>
      "unexpected " ++ found.kind ++ " " ++ Text.quoteText found.text ++ ", expected " ++
        Lookahead.renderList expected
  | .unexpectedEnd expected _ =>
      "unexpected end of input, expected " ++ Lookahead.renderList expected
  | .trailingInput found =>
      "expected end of input, found " ++ found.kind ++ " " ++ Text.quoteText found.text

def message (error : ParseError) : String :=
  toString error.line ++ ":" ++ toString error.column ++ ": " ++ error.reason

def code : ParseError → String
  | .unexpectedToken _ _ => "parser::unexpected_token"
  | .unexpectedEnd _ _ => "parser::unexpected_eof"
  | .trailingInput _ => "parser::trailing_input"

def label (error : ParseError) : Label :=
  match error with
  | .unexpectedToken _ _ => .ofSpan "unexpected token" error.span
  | .unexpectedEnd _ _ => .ofSpan "input ends here" error.span
  | .trailingInput _ => .ofSpan "trailing input starts here" error.span

end ParseError

end Predictive
