/-
Sentences and derivation trees: a list of tokens is a sentence, by the kinds of its
tokens, exactly when some tree derives it from the start symbol. The trees of a
non-terminal are those of its productions.
-/

import Predictive.Grammar.Derivation
import Predictive.Parsing.Derivation
import Predictive.Proofs.Grammar.Language

namespace Predictive

namespace Tree

variable {grammar : PlainGrammar}

mutual

theorem Derives.yields {symbol : Symbol} {tree : Tree} (derived : Derives grammar symbol tree) :
    ∃ cost, grammar.Yields cost [symbol] (tree.tokens.map Token.kind) := by
  cases derived with
  | leaf token => exact ⟨0, .terminal token.kind .nil⟩
  | node member derived =>
      obtain ⟨cost, inner⟩ := derived.yields
      exact ⟨cost + 1, .single (PlainGrammar.mem_bodiesOf.mpr member) inner⟩
  | empty member => exact ⟨1, .single (PlainGrammar.mem_bodiesOf.mpr member) .nil⟩

theorem DerivesAll.yields {symbols : List Symbol} {trees : List Tree}
    (derived : DerivesAll grammar symbols trees) :
    ∃ cost, grammar.Yields cost symbols ((tokensOfAll trees).map Token.kind) := by
  cases derived with
  | nil => exact ⟨0, .nil⟩
  | cons first others =>
      obtain ⟨firstCost, firstYields⟩ := first.yields
      obtain ⟨othersCost, othersYield⟩ := others.yields
      rw [tokensOfAll, List.map_append]
      exact ⟨firstCost + othersCost, firstYields.append othersYield⟩

end

theorem DerivesAll.exists_tree {name : String} {rhs : List Symbol} {trees : List Tree}
    (derived : DerivesAll grammar rhs trees) (member : ⟨name, rhs⟩ ∈ grammar.productions) :
    ∃ tree, Derives grammar (.nonTerminal name) tree ∧ tree.tokens = tokensOfAll trees := by
  cases derived with
  | nil => exact ⟨.empty name, .empty member, rfl⟩
  | cons first others => exact ⟨.node name _, .node member (.cons first others), rfl⟩

theorem exists_derivesAll {cost : Nat} {symbols : List Symbol} {word : List String}
    (yields : grammar.Yields cost symbols word) (tokens : List Token)
    (kinds : tokens.map Token.kind = word) :
    ∃ trees, DerivesAll grammar symbols trees ∧ tokensOfAll trees = tokens := by
  induction yields generalizing tokens with
  | nil =>
      cases List.map_eq_nil_iff.mp kinds
      exact ⟨[], .nil, rfl⟩
  | @terminal cost rest word name others ih =>
      obtain ⟨token, later, rfl, rfl, laterKinds⟩ := List.map_eq_cons_iff.mp kinds
      obtain ⟨trees, derived, same⟩ := ih later laterKinds
      refine ⟨.leaf token :: trees, .cons (.leaf token) derived, ?_⟩
      rw [tokensOfAll, same]
      rfl
  | @nonTerminal inside outside name rhs rest left right member inner others ihInner ihOthers =>
      obtain ⟨front, back, rfl, frontKinds, backKinds⟩ := List.map_eq_append_iff.mp kinds
      obtain ⟨children, childrenDerived, childrenTokens⟩ := ihInner front frontKinds
      obtain ⟨trees, derived, same⟩ := ihOthers back backKinds
      obtain ⟨tree, treeDerived, treeTokens⟩ := childrenDerived.exists_tree member
      refine ⟨tree :: trees, .cons treeDerived derived, ?_⟩
      rw [tokensOfAll, treeTokens, childrenTokens, same]

/-! ### Trees by the productions of a name -/

variable {tree : Tree} {trees : List Tree}

theorem derives_terminal_iff {kind : String} :
    Derives grammar (.terminal kind) tree ↔ ∃ token, tree = .leaf token ∧ token.kind = kind := by
  constructor
  · intro derived
    cases derived with
    | leaf token => exact ⟨token, rfl, rfl⟩
  · rintro ⟨token, rfl, rfl⟩
    exact .leaf token

theorem derivesAll_nil_iff : DerivesAll grammar [] trees ↔ trees = [] := by
  constructor
  · intro derived
    cases derived
    rfl
  · rintro rfl
    exact .nil

theorem derivesAll_cons_iff {symbol : Symbol} {symbols : List Symbol} :
    DerivesAll grammar (symbol :: symbols) trees ↔
      ∃ tree rest, Derives grammar symbol tree ∧ DerivesAll grammar symbols rest ∧
        trees = tree :: rest := by
  constructor
  · intro derived
    cases derived with
    | cons first others => exact ⟨_, _, first, others, rfl⟩
  · rintro ⟨tree, rest, first, others, rfl⟩
    exact .cons first others

theorem derives_nonTerminal_iff {name : String} :
    Derives grammar (.nonTerminal name) tree ↔
      ∃ rhs ∈ grammar.bodiesOf name, ∃ children, DerivesAll grammar rhs children ∧
        tree = if rhs = [] then .empty name else .node name children := by
  simp only [PlainGrammar.mem_bodiesOf]
  constructor
  · intro derived
    cases derived with
    | @node _ symbol rhs children member derived =>
        exact ⟨symbol :: rhs, member, children, derived, (if_neg (List.cons_ne_nil _ _)).symm⟩
    | empty member => exact ⟨[], member, [], .nil, (if_pos rfl).symm⟩
  · rintro ⟨rhs, member, children, derived, rfl⟩
    cases rhs with
    | nil => exact .empty member
    | cons symbol symbols => exact .node member derived

end Tree

namespace Grammar

variable (source : Grammar)

def Viable (word : List String) : Prop := ∃ rest, source.Sentence (word ++ rest)

theorem sentence_iff_generates (word : List String) :
    source.Sentence word ↔ source.lower.Generates source.start word :=
  ((PlainGrammar.derives_iff_yields).trans
    (source.yields_iff_denotes (.nonTerminal source.startDefined))).symm

theorem sentence_iff_derives (tokens : List Token) :
    source.Sentence (tokens.map Token.kind) ↔
      ∃ tree, Tree.Derives source.lower (.nonTerminal source.start) tree ∧
        tree.tokens = tokens := by
  rw [sentence_iff_generates, PlainGrammar.Generates, PlainGrammar.derives_iff_yields]
  constructor
  · intro yields
    obtain ⟨cost, yields⟩ := yields
    obtain ⟨trees, derived, same⟩ := Tree.exists_derivesAll yields tokens rfl
    cases derived with
    | cons first others =>
        cases others
        rw [Tree.tokensOfAll, Tree.tokensOfAll, List.append_nil] at same
        exact ⟨_, first, same⟩
  · intro exists_tree
    obtain ⟨tree, derived, rfl⟩ := exists_tree
    exact derived.yields

end Grammar

end Predictive
