/-
A calculator for `+ - * /` with parentheses and signs, as a small language built
on the library: its tokens, its grammar and the value of a parse tree. The value
is taken over any arithmetic, of which floating point is one.
-/

import Predictive.Pipeline

namespace Predictive.Calculator

def number : Pattern :=
  let digits := Pattern.oneOrMore (.set .digits)
  .seq [digits, .optional (.seq [.literal ".", digits])]

def lexical : LexicalGrammar :=
  ⟨[⟨"NUMBER", number, 0⟩,
    ⟨"ADD", .oneOf ['+', '-'], 0⟩,
    ⟨"MUL", .oneOf ['*', '/'], 0⟩,
    ⟨"LPAREN", .literal "(", 0⟩,
    ⟨"RPAREN", .literal ")", 0⟩,
    ⟨"WS", .oneOrMore (.set .blanks), 0⟩]⟩

/-- A sum of products of factors; a factor is a number, a parenthesised sum or a
signed factor. -/
def grammar : Grammar where
  start := "Expr"
  rules :=
    [("Expr", .seq [.nonTerminal "Term",
        .zeroOrMore (.seq [.terminal "ADD", .nonTerminal "Term"])]),
      ("Term", .seq [.nonTerminal "Factor",
        .zeroOrMore (.seq [.terminal "MUL", .nonTerminal "Factor"])]),
      ("Factor", .alt [.terminal "NUMBER",
        .seq [.terminal "LPAREN", .nonTerminal "Expr", .terminal "RPAREN"],
        .seq [.terminal "ADD", .nonTerminal "Factor"]])]
  distinct := by decide
  startDefined := by decide
  closed := by decide

/-- Blanks between tokens are left out. -/
def config : ParserConfig := ⟨["WS"]⟩

/-- The automaton and the table of the calculator. -/
def compile : Except GrammarError Compiled := do
  let table ← ParseTable.build grammar
  pure ⟨.ofGrammar lexical, table, config⟩

/-- The operations that a value is computed with. -/
structure Arithmetic (α : Type) where
  number : String → α
  negate : α → α
  add : α → α → α
  subtract : α → α → α
  multiply : α → α → α
  divide : α → α → α
  /-- The value of what is not an expression. -/
  invalid : α

namespace Arithmetic

/-- The value of an operator between two operands. -/
def apply {α : Type} (arithmetic : Arithmetic α) (operator : String) (left right : α) : α :=
  match operator with
  | "+" => arithmetic.add left right
  | "-" => arithmetic.subtract left right
  | "*" => arithmetic.multiply left right
  | "/" => arithmetic.divide left right
  | _ => arithmetic.invalid

end Arithmetic

mutual

/-- The value of a parse tree. -/
def eval {α : Type} (arithmetic : Arithmetic α) : Tree → α
  | .node "Expr" [head, tail] => fold arithmetic (eval arithmetic head) tail
  | .node "Term" [head, tail] => fold arithmetic (eval arithmetic head) tail
  | .node "Factor" [number] => arithmetic.number number.text
  | .node "Factor" [_, inner, _] => eval arithmetic inner
  | .node "Factor" [sign, operand] =>
      if sign.text = "-" then arithmetic.negate (eval arithmetic operand)
      else eval arithmetic operand
  | _ => arithmetic.invalid

/-- Applies the operators and operands of a tail to a value, from left to right. -/
def fold {α : Type} (arithmetic : Arithmetic α) (value : α) : Tree → α
  | .node _ [operator, operand, rest] =>
      fold arithmetic (arithmetic.apply operator.text value (eval arithmetic operand)) rest
  | _ => value

end

/-- The value of a run of decimal digits, if it is one. -/
def digitsValue? (digits : List Char) : Option Nat :=
  if !digits.isEmpty && digits.all Char.isDigit then
    some (digits.foldl (fun value digit => 10 * value + (digit.toNat - '0'.toNat)) 0)
  else none

/-- The nearest floating point number to digits with an optional fraction. -/
def decimal? (text : String) : Option Float :=
  let whole := text.toList.takeWhile (· != '.')
  match text.toList.dropWhile (· != '.') with
  | [] => (digitsValue? whole).map fun value => .ofScientific value false 0
  | _ :: fraction => do
      let _ ← digitsValue? whole
      let _ ← digitsValue? fraction
      let value ← digitsValue? (whole ++ fraction)
      pure (.ofScientific value true fraction.length)

def floatNaN : Float := 0.0 / 0.0

/-- Floating point arithmetic. -/
def floating : Arithmetic Float where
  number := fun text => (decimal? text).getD floatNaN
  negate := fun value => -value
  add := fun left right => left + right
  subtract := fun left right => left - right
  multiply := fun left right => left * right
  divide := fun left right => left / right
  invalid := floatNaN

end Predictive.Calculator
