/-
Places in a text: a byte offset with its line and column, both counted from
one. Columns count characters, so a character of several bytes moves the column
by one. A newline ends its line.
-/

import Predictive.Text.Span

namespace Predictive

structure Position where
  offset : Nat
  line : Nat
  column : Nat
  deriving DecidableEq, Repr, Inhabited

namespace Position

/-- The place of the first character of a text. -/
def origin : Position := ⟨0, 1, 1⟩

/-- Steps over one character. -/
def advance (position : Position) (char : Char) : Position :=
  let offset := Offset.add position.offset char.utf8Size
  if char = '\n' then
    { offset, line := Offset.add position.line 1, column := 1 }
  else
    { offset, line := position.line, column := Offset.add position.column 1 }

/-- Steps over every character of a text. -/
def advanceOver (position : Position) (text : List Char) : Position :=
  text.foldl advance position

@[simp]
theorem advanceOver_nil (position : Position) : position.advanceOver [] = position := rfl

@[simp]
theorem advanceOver_cons (position : Position) (char : Char) (rest : List Char) :
    position.advanceOver (char :: rest) = (position.advance char).advanceOver rest := rfl

theorem advanceOver_append (position : Position) (left right : List Char) :
    position.advanceOver (left ++ right) = (position.advanceOver left).advanceOver right :=
  List.foldl_append

/-- Steps over the characters that lie whole within the next `budget` bytes. -/
def advanceWithin (position : Position) (budget : Nat) : List Char → Position
  | [] => position
  | char :: rest =>
      if char.utf8Size ≤ budget then
        (position.advance char).advanceWithin (budget - char.utf8Size) rest
      else position

/-- The place of byte `offset` of a text. An offset beyond the text gives its
end, and an offset inside a character gives the place of that character. -/
def ofOffset (text : String) (offset : Nat) : Position :=
  origin.advanceWithin offset text.toList

end Position

end Predictive
