/-
A neutral form for stored data: numbers, texts, lists and records. A structure
is stored as a record of its fields and can also be read from the list of them
in order. Fields that a structure does not know are passed over.
-/

namespace Predictive.Storage

inductive Value where
  | null
  | boolean (value : Bool)
  /-- The number `mantissa` divided by ten `exponent` times. -/
  | number (mantissa : Int) (exponent : Nat)
  | text (value : String)
  | list (items : List Value)
  | record (fields : List (String × Value))
  deriving Inhabited

namespace Value

def ofNat (value : Nat) : Value := .number value 0

def ofOption {α : Type} (encode : α → Value) : Option α → Value
  | some value => encode value
  | none => .null

def ofList {α : Type} (encode : α → Value) (items : List α) : Value := .list (items.map encode)

/-- A whole number that is at most `limit`. -/
def nat? (limit : Nat) : Value → Option Nat
  | .number mantissa 0 =>
      if 0 ≤ mantissa ∧ mantissa.toNat ≤ limit then some mantissa.toNat else none
  | _ => none

def text? : Value → Option String
  | .text value => some value
  | _ => none

/-- A text of exactly one character. -/
def char? : Value → Option Char
  | .text value =>
      match value.toList with
      | [char] => some char
      | _ => none
  | _ => none

/-- An absent value, or a present one that can be read. -/
def option? {α : Type} (decode : Value → Option α) : Value → Option (Option α)
  | .null => some none
  | value => (decode value).map some

def list? {α : Type} (decode : Value → Option α) : Value → Option (List α)
  | .list items => items.mapM decode
  | _ => none

def pair? {α β : Type} (first : Value → Option α) (second : Value → Option β) :
    Value → Option (α × β)
  | .list [left, right] => do
      let left ← first left
      let right ← second right
      pure (left, right)
  | _ => none

/-- The field of a record. -/
def field? (fields : List (String × Value)) (name : String) : Option Value :=
  fields.lookup name

/-- The values of the named fields of a structure, in order. -/
def fields? (names : List String) : Value → Option (List Value)
  | .record fields => names.mapM (field? fields)
  | .list items => if items.length = names.length then some items else none
  | _ => none

mutual

/-- How deeply values are nested. -/
def depth : Value → Nat
  | .list items => depthOfList items + 1
  | .record fields => depthOfFields fields + 1
  | _ => 1

def depthOfList : List Value → Nat
  | [] => 0
  | item :: rest => max (depth item) (depthOfList rest)

def depthOfFields : List (String × Value) → Nat
  | [] => 0
  | (_, value) :: rest => max (depth value) (depthOfFields rest)

end

end Value

/-- The largest stored number, line, column or offset. -/
def wordLimit : Nat := 4294967295

/-- The largest stored place in a list. -/
def indexLimit : Nat := 18446744073709551615

end Predictive.Storage
