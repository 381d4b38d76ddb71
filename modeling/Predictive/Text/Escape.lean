/-
Quoted text. A character that cannot be shown as itself is written as an escape:
a few have short forms, the rest are written by code point in lowercase
hexadecimal. Which quote marks are escaped depends on where the text stands.
-/

import Predictive.Text.Printable
import Predictive.Text.GraphemeExtend

namespace Predictive.Text

/-- The quote marks that are escaped in one place of the output. -/
structure Quoting where
  apostrophe : Bool
  quotationMark : Bool
  deriving DecidableEq, Repr

namespace Quoting

/-- Inside quotation marks only the quotation mark is escaped. -/
def text : Quoting := ⟨false, true⟩

/-- Inside apostrophes only the apostrophe is escaped. -/
def char : Quoting := ⟨true, false⟩

/-- The bounds of a character range stand without marks and escape both. -/
def bound : Quoting := ⟨true, true⟩

end Quoting

/-- The code point in lowercase hexadecimal between braces. -/
def codePointEscape (char : Char) : String :=
  "\\u\x7b" ++ String.ofList (Nat.toDigits 16 char.toNat) ++ "\x7d"

/-- The halfwidth voiced and semi-voiced sound marks. They extend the character
before them, but in a cell of their own. -/
def isHalfwidthSoundMark (char : Char) : Bool := char == '\uff9e' || char == '\uff9f'

/-- A character is shown as itself when it is printable and does not merge with the
character before it. -/
def isShown (char : Char) : Bool :=
  isPrintable char && (!isGraphemeExtend char || isHalfwidthSoundMark char)

def escapeChar (quoting : Quoting) (char : Char) : String :=
  if char = '\x00' then "\\0"
  else if char = '\t' then "\\t"
  else if char = '\n' then "\\n"
  else if char = '\r' then "\\r"
  else if char = '\\' then "\\\\"
  else if char = '"' && quoting.quotationMark then "\\\""
  else if char = '\'' && quoting.apostrophe then "\\'"
  else if isShown char then String.singleton char
  else codePointEscape char

/-- A text between quotation marks. -/
def quoteText (text : String) : String :=
  "\"" ++ String.join (text.toList.map (escapeChar .text)) ++ "\""

/-- A character between apostrophes. -/
def quoteChar (char : Char) : String :=
  "'" ++ escapeChar .char char ++ "'"

end Predictive.Text
