/-
Stored tokens, trees, places and lookaheads. A choice between forms is stored as
a record with one field, named for the form.
-/

import Predictive.Parsing.Tree
import Predictive.Grammar.Symbol
import Predictive.Storage.Value

namespace Predictive.Storage

def encodeSpan (span : Span) : Value :=
  .record [("start", .ofNat span.start), ("end", .ofNat span.stop)]

def decodeSpan (value : Value) : Option Span := do
  match ← value.fields? ["start", "end"] with
  | [start, stop] => pure ⟨← start.nat? wordLimit, ← stop.nat? wordLimit⟩
  | _ => none

def encodePosition (position : Position) : Value :=
  .record [("offset", .ofNat position.offset), ("line", .ofNat position.line),
    ("column", .ofNat position.column)]

def encodeToken (token : Token) : Value :=
  .record [("kind", .text token.kind), ("text", .text token.text),
    ("range", encodeSpan token.span), ("line", .ofNat token.line),
    ("column", .ofNat token.column)]

def decodeToken (value : Value) : Option Token := do
  match ← value.fields? ["kind", "text", "range", "line", "column"] with
  | [kind, text, span, line, column] =>
      pure
        { kind := ← kind.text?
          text := ← text.text?
          span := ← decodeSpan span
          line := ← line.nat? wordLimit
          column := ← column.nat? wordLimit }
  | _ => none

def encodeTokens (tokens : List Token) : Value := .ofList encodeToken tokens

def decodeTokens (value : Value) : Option (List Token) := value.list? decodeToken

def encodeLookahead : Lookahead → Value
  | .token kind => .record [("Token", .text kind)]
  | .endOfInput => .text "Eof"

mutual

def encodeTree : Tree → Value
  | .leaf token => .record [("Terminal", encodeToken token)]
  | .node symbol children =>
      .record [("NonTerminal",
        .record [("symbol", .text symbol), ("children", .list (encodeTrees children))])]
  | .empty symbol => .record [("Empty", .record [("symbol", .text symbol)])]

def encodeTrees : List Tree → List Value
  | [] => []
  | tree :: rest => encodeTree tree :: encodeTrees rest

end

/-- Reads a tree whose stored form is nested at most `fuel` deep. -/
def decodeTreeWithin : Nat → Value → Option Tree
  | 0, _ => none
  | fuel + 1, .record [(form, content)] => do
      match form with
      | "Terminal" => pure (.leaf (← decodeToken content))
      | "NonTerminal" =>
          match ← content.fields? ["symbol", "children"] with
          | [symbol, children] =>
              pure (.node (← symbol.text?) (← children.list? (decodeTreeWithin fuel)))
          | _ => none
      | "Empty" =>
          match ← content.fields? ["symbol"] with
          | [symbol] => pure (.empty (← symbol.text?))
          | _ => none
      | _ => none
  | _ + 1, _ => none

def decodeTree (value : Value) : Option Tree := decodeTreeWithin value.depth value

end Predictive.Storage
