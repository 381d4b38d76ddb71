/-
Parse trees. Leaves are tokens; an inner node is a non-terminal with the trees of
its production, and a non-terminal that vanished is a leaf of its own.
-/

import Predictive.Lexical.Token

namespace Predictive

inductive Tree where
  | leaf (token : Token)
  | node (symbol : String) (children : List Tree)
  /-- A non-terminal that derived the empty string. -/
  | empty (symbol : String)

namespace Tree

/-- The kind of a leaf's token, the non-terminal otherwise. -/
def symbol : Tree → String
  | .leaf token => token.kind
  | .node symbol _ => symbol
  | .empty symbol => symbol

def children : Tree → List Tree
  | .node _ children => children
  | _ => []

def token? : Tree → Option Token
  | .leaf token => some token
  | _ => none

mutual

/-- The tokens of the leaves, from left to right. -/
def tokens : Tree → List Token
  | .leaf token => [token]
  | .node _ children => tokensOfAll children
  | .empty _ => []

def tokensOfAll : List Tree → List Token
  | [] => []
  | tree :: rest => tokens tree ++ tokensOfAll rest

end

/-- The texts of the leaves, one after another. -/
def text (tree : Tree) : String := String.join (tree.tokens.map Token.text)

mutual

/-- The tree on one line. -/
def render : Tree → String
  | .leaf token => Text.quoteText token.text
  | .node symbol children => "(" ++ symbol ++ renderAll children ++ ")"
  | .empty symbol => "(" ++ symbol ++ ")"

def renderAll : List Tree → String
  | [] => ""
  | tree :: rest => " " ++ render tree ++ renderAll rest

end

mutual

/-- Every node with its depth, a node before its children. -/
def preorder (depth : Nat) : Tree → List (Nat × Tree)
  | .leaf token => [(depth, .leaf token)]
  | .node symbol children => (depth, .node symbol children) :: preorderAll (depth + 1) children
  | .empty symbol => [(depth, .empty symbol)]

def preorderAll (depth : Nat) : List Tree → List (Nat × Tree)
  | [] => []
  | tree :: rest => preorder depth tree ++ preorderAll depth rest

end

/-- A node without what is below it. -/
def headline : Tree → String
  | .leaf token => token.kind ++ " " ++ Text.quoteText token.text
  | .node symbol _ => symbol
  | .empty symbol => symbol ++ " ε"

/-- The tree as an indented outline with a line for each node. -/
def outline (tree : Tree) : String :=
  String.join <| (tree.preorder 0).map fun (depth, tree) =>
    String.join (List.replicate depth "  ") ++ tree.headline ++ "\n"

mutual

/-- Whether two trees are the same, node by node. -/
def same : Tree → Tree → Bool
  | .leaf left, .leaf right => left == right
  | .node left lefts, .node right rights => left == right && sameAll lefts rights
  | .empty left, .empty right => left == right
  | _, _ => false

def sameAll : List Tree → List Tree → Bool
  | [], [] => true
  | left :: lefts, right :: rights => same left right && sameAll lefts rights
  | _, _ => false

end

mutual

theorem same_iff (left right : Tree) : same left right = true ↔ left = right := by
  cases left <;> cases right <;> simp [same, sameAll_iff]

theorem sameAll_iff (left right : List Tree) : sameAll left right = true ↔ left = right := by
  cases left <;> cases right <;> simp [sameAll, same_iff, sameAll_iff]

end

instance : DecidableEq Tree := fun left right => decidable_of_iff _ (same_iff left right)

end Tree

end Predictive
