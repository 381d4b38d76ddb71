/-
Tokens from a text by longest match. From each place the automaton is driven as
far as it goes, and the last accepting state that it passed decides the token.
The state it starts in never counts as a match. A place where nothing matches
ends the tokens with an error.
-/

import Predictive.Lexical.Dfa
import Predictive.Lexical.Token
import Predictive.Text.Encoding

namespace Predictive

/-- Why a text has no tokens. -/
inductive LexFault where
  /-- No token begins with this character here. -/
  | unexpectedChar (char : Char)
  /-- The bytes are not a text. -/
  | invalidEncoding
  deriving DecidableEq, Repr

structure LexError where
  fault : LexFault
  span : Span
  line : Nat
  column : Nat
  deriving DecidableEq, Repr

namespace LexFault

def message : LexFault → String
  | .unexpectedChar char => "unexpected character " ++ Text.quoteChar char
  | .invalidEncoding => "input is not valid UTF-8"

end LexFault

namespace LexError

/-- An error of `length` bytes from a place on. -/
def located (fault : LexFault) (position : Position) (length : Nat) : LexError :=
  ⟨fault, .sized position.offset (Offset.ofSize length), position.line, position.column⟩

def message (error : LexError) : String :=
  toString error.line ++ ":" ++ toString error.column ++ ": " ++ error.fault.message

def code : String := "lexer::error"

def label (error : LexError) : Label := .ofSpan "here" error.span

end LexError

/-- A text on the way to its tokens: what is still to be read, and where. -/
structure Scanner where
  rest : List Char
  cursor : Position
  ended : Bool
  deriving DecidableEq, Repr

namespace Scanner

def ofText (text : List Char) : Scanner := ⟨text, .origin, false⟩

/-- Drives the automaton from a state and keeps the last accepting state that is
entered, with the place after it. -/
def longestMatch (dfa : Dfa) (id : Nat) (position : Position)
    (best : Option (Position × AcceptTag)) : List Char → Option (Position × AcceptTag)
  | [] => best
  | char :: rest =>
      match dfa.next? id char with
      | none => best
      | some next =>
          let position := position.advance char
          longestMatch dfa next position
            (match dfa.acceptOf next with
            | some tag => some (position, tag)
            | none => best) rest

/-- The next token or the error that ends the tokens, if there is one. The text of
a token is what lies between the recorded offsets. Offsets stop at their limit, so the
end of a match beyond it may be recorded inside a character. To slice there is a fault,
for which there is no result: the token is given without text and nothing is left to
read. -/
def next (dfa : Dfa) (scanner : Scanner) : Option (Except LexError Token) × Scanner :=
  if scanner.ended then (none, scanner)
  else
    match scanner.rest with
    | [] => (none, { scanner with ended := true })
    | first :: _ =>
        match longestMatch dfa 0 scanner.cursor none scanner.rest with
        | some (stop, tag) =>
            let size := stop.offset - scanner.cursor.offset
            let (text, rest) := (Text.splitBytes? size scanner.rest).getD ([], [])
            (some (.ok
              { kind := tag.kind
                text := String.ofList text
                span := ⟨scanner.cursor.offset, stop.offset⟩
                line := scanner.cursor.line
                column := scanner.cursor.column }),
              { rest, cursor := stop, ended := false })
        | none =>
            (some (.error (.located (.unexpectedChar first) scanner.cursor first.utf8Size)),
              { scanner with ended := true })

/-- What a scanner yields, within a number of steps. -/
def items (dfa : Dfa) : Nat → Scanner → List (Except LexError Token)
  | 0, _ => []
  | fuel + 1, scanner =>
      match scanner.next dfa with
      | (some item, after) => item :: items dfa fuel after
      | (none, _) => []

/-- Everything that is still to come, and the scanner after it. Below the limit of
offsets a token takes at least one character, so a step for each and one to end
suffice. -/
def drain (dfa : Dfa) (scanner : Scanner) : List (Except LexError Token) × Scanner :=
  (scanner.items dfa (scanner.rest.length + 1), { scanner with ended := true })

end Scanner

/-- The first error of a list, or else all its values. -/
def firstError {ε α : Type} : List (Except ε α) → Except ε (List α)
  | [] => .ok []
  | .ok value :: rest => (firstError rest).map (value :: ·)
  | .error error :: _ => .error error

namespace Dfa

/-- The tokens of a text in order, with an error at the end if one occurs. -/
def lex (dfa : Dfa) (text : List Char) : List (Except LexError Token) :=
  ((Scanner.ofText text).drain dfa).1

/-- The tokens of a whole text, or the first place where none matches. -/
def tokenize (dfa : Dfa) (text : List Char) : Except LexError (List Token) :=
  firstError (dfa.lex text)

/-- The tokens of a text given by its bytes. Bytes that are no text are refused
before any token is looked for. -/
def tokenizeBytes (dfa : Dfa) (bytes : ByteArray) : Except LexError (List Token) :=
  match Text.decode bytes with
  | .ok text => dfa.tokenize text
  | .error fault =>
      .error (.located .invalidEncoding (Position.origin.advanceOver fault.readable) fault.length)

end Dfa

end Predictive
