/-
Levels of operators. In a parse tree the operators of one level lean to the right, each
with what is left of the level behind it; a fold from the left over such a tail gives
the value that left-associative operators have. Sums have products as operands and
products have factors, and what holds of a level is said for both at once.
-/

import Predictive.Calculator.Meaning
import Predictive.Proofs.Calculator.Spelling
import Predictive.Proofs.Parsing.Sentence

namespace Predictive.Calculator

variable {tree : Tree}

def Parsed (name : String) (tree : Tree) : Prop :=
  Tree.Derives grammar.lower (.nonTerminal name) tree

/-- The rule of a level, with the name of the tail that its repetition is lowered to. -/
structure Level where
  name : String
  tail : String
  operand : String
  kind : String
  symbols : List String
  bodies : grammar.lower.bodiesOf name = [[.nonTerminal operand, .nonTerminal tail]]
  tailBodies : grammar.lower.bodiesOf tail =
    [[.terminal kind, .nonTerminal operand, .nonTerminal tail], []]
  evaluates : ∀ {α : Type} (arithmetic : Arithmetic α) (head rest : Tree),
    eval arithmetic (.node name [head, rest]) = fold arithmetic (eval arithmetic head) rest
  spelled : ∀ token, Spelled token → token.kind = kind → token.text ∈ symbols
  checks : ∀ {α : Type} (arithmetic : Arithmetic α) (first second : α), ∀ symbol ∈ symbols,
    arithmetic.checked.apply symbol (some first) (some second) =
      some (arithmetic.apply symbol first second)

def sums : Level where
  name := "Expr"
  tail := "Expr#1"
  operand := "Term"
  kind := "ADD"
  symbols := ["+", "-"]
  bodies := by decide +kernel
  tailBodies := by decide +kernel
  evaluates := fun _ _ _ => by rw [eval]
  spelled := fun _ spelled kind => List.mem_pair.mpr (spelled.add kind)
  checks := by
    intro α arithmetic first second symbol member
    rcases List.mem_pair.mp member with rfl | rfl <;> rfl

def products : Level where
  name := "Term"
  tail := "Term#1"
  operand := "Factor"
  kind := "MUL"
  symbols := ["*", "/"]
  bodies := by decide +kernel
  tailBodies := by decide +kernel
  evaluates := fun _ _ _ => by rw [eval]
  spelled := fun _ spelled kind => List.mem_pair.mpr (spelled.mul kind)
  checks := by
    intro α arithmetic first second symbol member
    rcases List.mem_pair.mp member with rfl | rfl <;> rfl

theorem Level.parsed_iff (level : Level) :
    Parsed level.name tree ↔ ∃ head rest, Parsed level.operand head ∧ Parsed level.tail rest ∧
      tree = .node level.name [head, rest] := by
  rw [Parsed, Tree.derives_nonTerminal_iff, level.bodies]
  constructor
  · rintro ⟨rhs, member, children, derived, rfl⟩
    cases List.mem_singleton.mp member
    simp only [Tree.derivesAll_cons_iff, Tree.derivesAll_nil_iff] at derived
    obtain ⟨head, _, first, ⟨rest, _, second, rfl, rfl⟩, rfl⟩ := derived
    exact ⟨head, rest, first, second, rfl⟩
  · rintro ⟨head, rest, first, second, rfl⟩
    exact ⟨_, List.mem_singleton_self _, _, .cons first (.cons second .nil), rfl⟩

theorem Level.parsed_tail_iff (level : Level) :
    Parsed level.tail tree ↔ tree = .empty level.tail ∨
      ∃ token next rest, token.kind = level.kind ∧ Parsed level.operand next ∧
        Parsed level.tail rest ∧ tree = .node level.tail [.leaf token, next, rest] := by
  rw [Parsed, Tree.derives_nonTerminal_iff, level.tailBodies]
  constructor
  · rintro ⟨rhs, member, children, derived, rfl⟩
    rcases List.mem_pair.mp member with rfl | rfl
    · simp only [Tree.derivesAll_cons_iff, Tree.derivesAll_nil_iff, Tree.derives_terminal_iff]
        at derived
      obtain ⟨_, _, ⟨token, rfl, kind⟩, ⟨next, _, second, ⟨rest, _, third, rfl, rfl⟩, rfl⟩, rfl⟩ :=
        derived
      exact Or.inr ⟨token, next, rest, kind, second, third, rfl⟩
    · exact Or.inl rfl
  · rintro (rfl | ⟨token, next, rest, kind, second, third, rfl⟩)
    · exact ⟨[], List.mem_pair.mpr (Or.inr rfl), [], .nil, rfl⟩
    · refine ⟨_, List.mem_pair.mpr (Or.inl rfl), _, .cons ?_ (.cons second (.cons third .nil)), rfl⟩
      exact Tree.derives_terminal_iff.mpr ⟨token, rfl, kind⟩

theorem tokens_level (name : String) (head rest : Tree) :
    (Tree.node name [head, rest]).tokens = head.tokens ++ rest.tokens := by
  simp only [Tree.tokens, Tree.tokensOfAll, List.append_nil]

theorem tokens_tail (name : String) (token : Token) (next rest : Tree) :
    (Tree.node name [.leaf token, next, rest]).tokens = token :: (next.tokens ++ rest.tokens) := by
  simp only [Tree.tokens, Tree.tokensOfAll, List.append_nil, List.singleton_append]

theorem sizeOf_lt_node {name : String} {child : Tree} {children : List Tree}
    (member : child ∈ children) : sizeOf child < sizeOf (Tree.node name children) := by
  have inside := List.sizeOf_lt_of_mem member
  rw [Tree.node.sizeOf_spec]
  omega

theorem text_leaf (token : Token) : (Tree.leaf token).text = token.text := by
  simp [Tree.text, Tree.tokens]

def Legible (tree : Tree) : Prop := ∀ token ∈ tree.tokens, Spelled token

theorem legible_level_iff {name : String} {head rest : Tree} :
    Legible (.node name [head, rest]) ↔ Legible head ∧ Legible rest := by
  rw [Legible, tokens_level, List.forall_mem_append]
  rfl

theorem legible_tail_iff {name : String} {token : Token} {next rest : Tree} :
    Legible (.node name [.leaf token, next, rest]) ↔
      Spelled token ∧ Legible next ∧ Legible rest := by
  rw [Legible, tokens_tail, List.forall_mem_cons, List.forall_mem_append]
  rfl

variable {α : Type} {arithmetic : Arithmetic α}

theorem fold_empty (value : α) (name : String) : fold arithmetic value (.empty name) = value := by
  rw [fold]
  nofun

theorem fold_tail (value : α) (name : String) (operator : Token) (next rest : Tree) :
    fold arithmetic value (.node name [.leaf operator, next, rest]) =
      fold arithmetic (arithmetic.apply operator.text value (eval arithmetic next)) rest := by
  rw [fold, text_leaf]

/-- Operands joined by the operators of a level, from left to right. -/
inductive Chain {α : Type} (arithmetic : Arithmetic α) (level : Level)
    (Operand : List Token → α → Prop) : List Token → α → Prop where
  | single {tokens : List Token} {value : α} (only : Operand tokens value) :
      Chain arithmetic level Operand tokens value
  | join {left right : List Token} {operator : Token} {first second : α}
      (kind : operator.kind = level.kind) (symbol : operator.text ∈ level.symbols)
      (before : Chain arithmetic level Operand left first) (after : Operand right second) :
      Chain arithmetic level Operand (left ++ operator :: right)
        (arithmetic.apply operator.text first second)

def HasTree (arithmetic : Arithmetic α) (name : String) (tokens : List Token) (value : α) : Prop :=
  ∃ tree, Parsed name tree ∧ tree.tokens = tokens ∧ eval arithmetic tree = value

def Present (Operand : List Token → α → Prop) (tokens : List Token) (result : Option α) : Prop :=
  ∃ value, result = some value ∧ Operand tokens value

namespace Chain

variable {level : Level} {Operand : List Token → α → Prop} {tokens : List Token} {value : α}

/-! ### The value of a tree -/

theorem of_tail {tree : Tree} (parsed : Parsed level.tail tree) (legible : Legible tree)
    (operands : ∀ next, sizeOf next < sizeOf tree → Parsed level.operand next → Legible next →
      Operand next.tokens (eval arithmetic next))
    {tokens : List Token} {value : α} (before : Chain arithmetic level Operand tokens value) :
    Chain arithmetic level Operand (tokens ++ tree.tokens) (fold arithmetic value tree) := by
  rcases level.parsed_tail_iff.mp parsed with rfl |
    ⟨operator, next, rest, kind, second, others, rfl⟩
  · rw [Tree.tokens, List.append_nil, fold_empty]
    exact before
  · obtain ⟨spelled, nextLegible, restLegible⟩ := legible_tail_iff.mp legible
    have nextSmaller : sizeOf next < sizeOf (Tree.node level.tail [.leaf operator, next, rest]) :=
      sizeOf_lt_node (.tail _ (.head _))
    have restSmaller : sizeOf rest < sizeOf (Tree.node level.tail [.leaf operator, next, rest]) :=
      sizeOf_lt_node (.tail _ (.tail _ (.head _)))
    have joined := before.join kind (level.spelled operator spelled kind)
      (operands next nextSmaller second nextLegible)
    rw [tokens_tail, fold_tail, ← List.cons_append, ← List.append_assoc]
    exact of_tail others restLegible
      (fun tree smaller => operands tree (Nat.lt_trans smaller restSmaller)) joined
termination_by sizeOf tree
decreasing_by
  subst_vars
  exact restSmaller

theorem of_level (parsed : Parsed level.name tree) (legible : Legible tree)
    (operands : ∀ next, sizeOf next < sizeOf tree → Parsed level.operand next → Legible next →
      Operand next.tokens (eval arithmetic next)) :
    Chain arithmetic level Operand tree.tokens (eval arithmetic tree) := by
  obtain ⟨head, rest, first, second, rfl⟩ := level.parsed_iff.mp parsed
  obtain ⟨headLegible, restLegible⟩ := legible_level_iff.mp legible
  have headSmaller : sizeOf head < sizeOf (Tree.node level.name [head, rest]) :=
    sizeOf_lt_node (.head _)
  have restSmaller : sizeOf rest < sizeOf (Tree.node level.name [head, rest]) :=
    sizeOf_lt_node (.tail _ (.head _))
  rw [tokens_level, level.evaluates]
  exact of_tail second restLegible
    (fun tree smaller => operands tree (Nat.lt_trans smaller restSmaller))
    (.single (operands head headSmaller first headLegible))

/-! ### The tree of a value -/

/-- The tree of a chain in front of any tail. -/
theorem exists_tree_before
    (operands : ∀ tokens value, Operand tokens value →
      HasTree arithmetic level.operand tokens value)
    (chain : Chain arithmetic level Operand tokens value) {rest : Tree}
    (others : Parsed level.tail rest) :
    ∃ tree, Parsed level.name tree ∧ tree.tokens = tokens ++ rest.tokens ∧
      eval arithmetic tree = fold arithmetic value rest := by
  induction chain generalizing rest with
  | single only =>
      obtain ⟨head, parsed, rfl, rfl⟩ := operands _ _ only
      have whole := level.parsed_iff.mpr ⟨head, rest, parsed, others, rfl⟩
      exact ⟨_, whole, tokens_level .., level.evaluates arithmetic head rest⟩
  | join kind symbol before after ih =>
      obtain ⟨next, parsed, rfl, rfl⟩ := operands _ _ after
      obtain ⟨tree, whole, sameTokens, sameValue⟩ :=
        ih (level.parsed_tail_iff.mpr (.inr ⟨_, next, rest, kind, parsed, others, rfl⟩))
      refine ⟨tree, whole, ?_, ?_⟩
      · rw [sameTokens, tokens_tail, List.append_assoc, List.cons_append]
      · rw [sameValue, fold_tail]

theorem hasTree
    (operands : ∀ tokens value, Operand tokens value →
      HasTree arithmetic level.operand tokens value)
    (chain : Chain arithmetic level Operand tokens value) :
    HasTree arithmetic level.name tokens value := by
  obtain ⟨tree, parsed, sameTokens, sameValue⟩ :=
    chain.exists_tree_before operands (level.parsed_tail_iff.mpr (.inl rfl))
  rw [Tree.tokens, List.append_nil] at sameTokens
  rw [fold_empty] at sameValue
  exact ⟨tree, parsed, sameTokens, sameValue⟩

/-! ### Checked values -/

theorem of_checked {Checked : List Token → Option α → Prop} {result : Option α}
    (operands : ∀ tokens result, Checked tokens result → Present Operand tokens result)
    (chain : Chain arithmetic.checked level Checked tokens result) :
    Present (Chain arithmetic level Operand) tokens result := by
  induction chain with
  | single only =>
      obtain ⟨value, same, operand⟩ := operands _ _ only
      exact ⟨value, same, .single operand⟩
  | join kind symbol before after ih =>
      obtain ⟨first, rfl, left⟩ := ih
      obtain ⟨second, rfl, right⟩ := operands _ _ after
      exact ⟨_, level.checks arithmetic first second _ symbol, .join kind symbol left right⟩

end Chain

end Predictive.Calculator
