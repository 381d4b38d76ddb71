/-
The alphabet of a grammar: terminals are kinds of tokens, non-terminals are names
of rules. A lookahead is what a parser sees next, a kind of token or the end of
the input. Plain productions are strings over this alphabet.
-/

namespace Predictive

inductive Symbol where
  | terminal (name : String)
  | nonTerminal (name : String)
  deriving DecidableEq, Repr

namespace Symbol

def name : Symbol → String
  | .terminal name => name
  | .nonTerminal name => name

def isTerminal : Symbol → Bool
  | .terminal _ => true
  | .nonTerminal _ => false

/-- Terminals stand between quotation marks. -/
def render : Symbol → String
  | .terminal name => "\"" ++ name ++ "\""
  | .nonTerminal name => name

end Symbol

/-- A rule `lhs → rhs` without operators. -/
structure Production where
  lhs : String
  rhs : List Symbol
  deriving DecidableEq, Repr

namespace Production

def isEpsilon (production : Production) : Bool := production.rhs.isEmpty

def render (production : Production) : String :=
  production.lhs ++ " →" ++
    if production.rhs.isEmpty then " ε"
    else String.join (production.rhs.map fun symbol => " " ++ symbol.render)

end Production

inductive Lookahead where
  | token (kind : String)
  | endOfInput
  deriving DecidableEq, Repr

namespace Lookahead

/-- Kinds of tokens are in the order of their names; the end of input is last. -/
protected def compare : Lookahead → Lookahead → Ordering
  | .token left, .token right => compare left right
  | .token _, .endOfInput => .lt
  | .endOfInput, .token _ => .gt
  | .endOfInput, .endOfInput => .eq

instance : Ord Lookahead := ⟨Lookahead.compare⟩

theorem compare_token (left right : String) :
    compare (token left) (token right) = compare left right := rfl

instance : Std.LawfulEqOrd Lookahead where
  compare_self := fun {lookahead} => by
    cases lookahead with
    | token kind =>
        rw [compare_token]
        exact Std.ReflCmp.compare_self
    | endOfInput => rfl
  eq_of_compare := fun {left right} same => by
    cases left with
    | token left =>
        cases right with
        | token right =>
            rw [compare_token] at same
            rw [Std.LawfulEqCmp.eq_of_compare same]
        | endOfInput => cases same
    | endOfInput =>
        cases right with
        | token right => cases same
        | endOfInput => rfl

instance : Std.TransOrd Lookahead where
  eq_swap := fun {left right} => by
    cases left with
    | token left =>
        cases right with
        | token right =>
            rw [compare_token, compare_token]
            exact Std.OrientedCmp.eq_swap
        | endOfInput => rfl
    | endOfInput => cases right <;> rfl
  isLE_trans := fun {left middle right} first second => by
    cases left with
    | token left =>
        cases right with
        | token right =>
            cases middle with
            | token middle =>
                rw [compare_token] at first second ⊢
                exact Std.TransCmp.isLE_trans first second
            | endOfInput => cases second
        | endOfInput => rfl
    | endOfInput =>
        cases middle with
        | token middle => cases first
        | endOfInput => exact second

def name? : Lookahead → Option String
  | .token kind => some kind
  | .endOfInput => none

def render : Lookahead → String
  | .token kind => kind
  | .endOfInput => "end of input"

/-- Lookaheads in their order; repeated ones stay. -/
def sort (lookaheads : List Lookahead) : List Lookahead :=
  lookaheads.mergeSort fun left right => (compare left right).isLE

/-- The lookaheads of an error message, as a list in words. -/
def renderList : List Lookahead → String
  | [] => "nothing"
  | [only] => only.render
  | [first, second] => first.render ++ " or " ++ second.render
  | first :: rest =>
      ", ".intercalate ((first :: rest).dropLast.map render) ++ ", or " ++
        ((first :: rest).getLast (List.cons_ne_nil _ _)).render

end Lookahead

end Predictive
