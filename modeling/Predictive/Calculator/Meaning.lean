/-
The value of an expression given by its tokens alone: operators of one level apply
from left to right, products before sums, and a sign belongs to the factor behind
it. An arithmetic that is checked shows whether a value stands for no expression.
-/

import Predictive.Calculator

namespace Predictive.Calculator

mutual

/-- The tokens are a factor: a number, a sum in parentheses or a signed factor. -/
inductive FactorValue {α : Type} (arithmetic : Arithmetic α) : List Token → α → Prop where
  | number {token : Token} (kind : token.kind = "NUMBER") :
      FactorValue arithmetic [token] (arithmetic.number token.text)
  | parentheses {left right : Token} {inner : List Token} {value : α}
      (opening : left.kind = "LPAREN") (closing : right.kind = "RPAREN")
      (within : SumValue arithmetic inner value) :
      FactorValue arithmetic (left :: inner ++ [right]) value
  | negated {sign : Token} {operand : List Token} {value : α} (kind : sign.kind = "ADD")
      (minus : sign.text = "-") (signed : FactorValue arithmetic operand value) :
      FactorValue arithmetic (sign :: operand) (arithmetic.negate value)
  | kept {sign : Token} {operand : List Token} {value : α} (kind : sign.kind = "ADD")
      (plus : sign.text = "+") (signed : FactorValue arithmetic operand value) :
      FactorValue arithmetic (sign :: operand) value

/-- The tokens are factors joined by `*` and `/`. -/
inductive ProductValue {α : Type} (arithmetic : Arithmetic α) : List Token → α → Prop where
  | single {tokens : List Token} {value : α} (only : FactorValue arithmetic tokens value) :
      ProductValue arithmetic tokens value
  | times {left right : List Token} {operator : Token} {first second : α}
      (kind : operator.kind = "MUL") (star : operator.text = "*")
      (before : ProductValue arithmetic left first) (after : FactorValue arithmetic right second) :
      ProductValue arithmetic (left ++ operator :: right) (arithmetic.multiply first second)
  | divided {left right : List Token} {operator : Token} {first second : α}
      (kind : operator.kind = "MUL") (slash : operator.text = "/")
      (before : ProductValue arithmetic left first) (after : FactorValue arithmetic right second) :
      ProductValue arithmetic (left ++ operator :: right) (arithmetic.divide first second)

/-- The tokens are products joined by `+` and `-`. -/
inductive SumValue {α : Type} (arithmetic : Arithmetic α) : List Token → α → Prop where
  | single {tokens : List Token} {value : α} (only : ProductValue arithmetic tokens value) :
      SumValue arithmetic tokens value
  | plus {left right : List Token} {operator : Token} {first second : α}
      (kind : operator.kind = "ADD") (sign : operator.text = "+")
      (before : SumValue arithmetic left first) (after : ProductValue arithmetic right second) :
      SumValue arithmetic (left ++ operator :: right) (arithmetic.add first second)
  | minus {left right : List Token} {operator : Token} {first second : α}
      (kind : operator.kind = "ADD") (sign : operator.text = "-")
      (before : SumValue arithmetic left first) (after : ProductValue arithmetic right second) :
      SumValue arithmetic (left ++ operator :: right) (arithmetic.subtract first second)

end

namespace Arithmetic

/-- An operation on two values that are both there. -/
def both {α : Type} (operation : α → α → α) : Option α → Option α → Option α
  | some left, some right => some (operation left right)
  | _, _ => none

/-- The arithmetic in which what is not an expression has no value, and neither has
anything that is computed from it. -/
def checked {α : Type} (arithmetic : Arithmetic α) : Arithmetic (Option α) where
  number := fun text => some (arithmetic.number text)
  negate := Option.map arithmetic.negate
  add := both arithmetic.add
  subtract := both arithmetic.subtract
  multiply := both arithmetic.multiply
  divide := both arithmetic.divide
  invalid := none

end Arithmetic

end Predictive.Calculator
