/-
The calculator computes the value of its tokens. The trees of a level have the values of
its chains, and a relation between tokens and values that has the factors has all values;
so a value is that of a tree, and an accepted text has one tree. No tree of an accepted
text gets to the cases that are no expression.
-/

import Predictive.Proofs.Calculator.Level
import Predictive.Proofs.Lexical.Alphabet
import Predictive.Proofs.Parsing.Correctness

namespace Predictive.Calculator

open MaximalMunch

variable {tree : Tree}

theorem parsed_factor_iff : Parsed "Factor" tree ↔
    (∃ number, number.kind = "NUMBER" ∧ tree = .node "Factor" [.leaf number]) ∨
      (∃ left inner right, left.kind = "LPAREN" ∧ Parsed "Expr" inner ∧ right.kind = "RPAREN" ∧
        tree = .node "Factor" [.leaf left, inner, .leaf right]) ∨
      ∃ sign operand, sign.kind = "ADD" ∧ Parsed "Factor" operand ∧
        tree = .node "Factor" [.leaf sign, operand] := by
  have bodies : grammar.lower.bodiesOf "Factor" =
      [[.terminal "NUMBER"], [.terminal "LPAREN", .nonTerminal "Expr", .terminal "RPAREN"],
        [.terminal "ADD", .nonTerminal "Factor"]] := by decide +kernel
  rw [Parsed, Tree.derives_nonTerminal_iff, bodies]
  constructor
  · rintro ⟨rhs, member, children, derived, rfl⟩
    simp only [List.mem_cons, List.not_mem_nil, or_false] at member
    rcases member with rfl | rfl | rfl <;>
      simp only [Tree.derivesAll_cons_iff, Tree.derivesAll_nil_iff, Tree.derives_terminal_iff]
        at derived
    · obtain ⟨_, _, ⟨number, rfl, kind⟩, rfl, rfl⟩ := derived
      exact Or.inl ⟨number, kind, rfl⟩
    · obtain ⟨_, _, ⟨left, rfl, opening⟩, ⟨inner, _, within, ⟨_, _, ⟨right, rfl, closing⟩, rfl,
        rfl⟩, rfl⟩, rfl⟩ := derived
      exact Or.inr (Or.inl ⟨left, inner, right, opening, within, closing, rfl⟩)
    · obtain ⟨_, _, ⟨sign, rfl, kind⟩, ⟨operand, _, signed, rfl, rfl⟩, rfl⟩ := derived
      exact Or.inr (Or.inr ⟨sign, operand, kind, signed, rfl⟩)
  · have terminal : ∀ {token : Token} {kind : String}, token.kind = kind →
        Tree.Derives grammar.lower (.terminal kind) (.leaf token) :=
      fun kind => Tree.derives_terminal_iff.mpr ⟨_, rfl, kind⟩
    rintro (⟨number, kind, rfl⟩ | ⟨left, inner, right, opening, within, closing, rfl⟩ |
      ⟨sign, operand, kind, signed, rfl⟩)
    · exact ⟨_, .head _, _, .cons (terminal kind) .nil, rfl⟩
    · exact ⟨_, .tail _ (.head _), _,
        .cons (terminal opening) (.cons within (.cons (terminal closing) .nil)), rfl⟩
    · exact ⟨_, .tail _ (.tail _ (.head _)), _, .cons (terminal kind) (.cons signed .nil), rfl⟩

/-! ### The last token of a tree -/

def EndsInOperand (tokens : List Token) : Prop :=
  ∃ last, tokens.getLast? = some last ∧ last.kind ≠ "ADD" ∧ last.kind ≠ "MUL"

theorem EndsInOperand.prepend {tokens : List Token} (ends : EndsInOperand tokens)
    (front : List Token) : EndsInOperand (front ++ tokens) := by
  obtain ⟨last, found, operand⟩ := ends
  exact ⟨last, by rw [List.getLast?_append, found, Option.some_or], operand⟩

theorem EndsInOperand.singleton {token : Token} {kind : String} (same : token.kind = kind)
    (notAdd : kind ≠ "ADD") (notMul : kind ≠ "MUL") : EndsInOperand [token] :=
  ⟨token, rfl, same ▸ notAdd, same ▸ notMul⟩

theorem ends_factor {tree : Tree} (parsed : Parsed "Factor" tree) :
    EndsInOperand tree.tokens := by
  rcases parsed_factor_iff.mp parsed with ⟨number, kind, rfl⟩ |
    ⟨left, inner, right, opening, within, closing, rfl⟩ | ⟨sign, operand, kind, signed, rfl⟩
  · exact .singleton kind (by decide) (by decide)
  · rw [tokens_tail]
    exact (EndsInOperand.singleton closing (by decide) (by decide)).prepend (left :: inner.tokens)
  · rw [tokens_level]
    exact (ends_factor signed).prepend _
termination_by sizeOf tree
decreasing_by
  subst_vars
  exact sizeOf_lt_node (.tail _ (.head _))

theorem ends_tail (level : Level)
    (operands : ∀ tree, Parsed level.operand tree → EndsInOperand tree.tokens)
    {tree : Tree} (parsed : Parsed level.tail tree) {front : List Token}
    (ends : EndsInOperand front) : EndsInOperand (front ++ tree.tokens) := by
  rcases level.parsed_tail_iff.mp parsed with rfl | ⟨token, next, rest, kind, second, others, rfl⟩
  · rwa [Tree.tokens, List.append_nil]
  · rw [tokens_tail, ← List.singleton_append]
    exact ((ends_tail level operands others (operands next second)).prepend [token]).prepend front
termination_by sizeOf tree
decreasing_by
  subst_vars
  exact sizeOf_lt_node (.tail _ (.tail _ (.head _)))

theorem ends_level (level : Level)
    (operands : ∀ tree, Parsed level.operand tree → EndsInOperand tree.tokens)
    {tree : Tree} (parsed : Parsed level.name tree) : EndsInOperand tree.tokens := by
  obtain ⟨head, rest, first, second, rfl⟩ := level.parsed_iff.mp parsed
  rw [tokens_level]
  exact ends_tail level operands second (operands head first)

theorem ends_expr {tree : Tree} (parsed : Parsed "Expr" tree) : EndsInOperand tree.tokens :=
  ends_level sums (fun _ => ends_level products fun _ => ends_factor) parsed

/-! ### Values and chains -/

variable {α : Type} {arithmetic : Arithmetic α} {tokens : List Token} {value : α}

theorem ProductValue.of_chain
    (chain : Chain arithmetic products (FactorValue arithmetic) tokens value) :
    ProductValue arithmetic tokens value := by
  induction chain with
  | single only => exact .single only
  | join kind symbol before after ih =>
      rcases List.mem_pair.mp symbol with star | slash
      · rw [star]
        exact .times kind star ih after
      · rw [slash]
        exact .divided kind slash ih after

theorem SumValue.of_chain
    (chain : Chain arithmetic sums (ProductValue arithmetic) tokens value) :
    SumValue arithmetic tokens value := by
  induction chain with
  | single only => exact .single only
  | join kind symbol before after ih =>
      rcases List.mem_pair.mp symbol with plus | minus
      · rw [plus]
        exact .plus kind plus ih after
      · rw [minus]
        exact .minus kind minus ih after

/-- A relation between tokens and values that has the factors, with sums of products of
what it has itself in parentheses. -/
structure Factors (arithmetic : Arithmetic α) (Factor : List Token → α → Prop) : Prop where
  number : ∀ {token : Token}, token.kind = "NUMBER" → Factor [token] (arithmetic.number token.text)
  parentheses : ∀ {left right : Token} {inner : List Token} {value : α}, left.kind = "LPAREN" →
    right.kind = "RPAREN" → Chain arithmetic sums (Chain arithmetic products Factor) inner value →
      Factor (left :: inner ++ [right]) value
  negated : ∀ {sign : Token} {operand : List Token} {value : α}, sign.kind = "ADD" →
    sign.text = "-" → Factor operand value → Factor (sign :: operand) (arithmetic.negate value)
  kept : ∀ {sign : Token} {operand : List Token} {value : α}, sign.kind = "ADD" →
    sign.text = "+" → Factor operand value → Factor (sign :: operand) value

section

variable {Factor : List Token → α → Prop}

mutual

theorem FactorValue.least (factors : Factors arithmetic Factor) :
    {tokens : List Token} → {value : α} → FactorValue arithmetic tokens value →
      Factor tokens value
  | _, _, .number kind => factors.number kind
  | _, _, .parentheses opening closing within =>
      factors.parentheses opening closing (within.least factors)
  | _, _, .negated kind minus signed => factors.negated kind minus (signed.least factors)
  | _, _, .kept kind plus signed => factors.kept kind plus (signed.least factors)

theorem ProductValue.least (factors : Factors arithmetic Factor) :
    {tokens : List Token} → {value : α} → ProductValue arithmetic tokens value →
      Chain arithmetic products Factor tokens value
  | _, _, .single only => .single (only.least factors)
  | _, _, .times kind star before after => by
      have left := before.least factors
      have joined := left.join kind (List.mem_pair.mpr (.inl star)) (after.least factors)
      rwa [star] at joined
  | _, _, .divided kind slash before after => by
      have left := before.least factors
      have joined := left.join kind (List.mem_pair.mpr (.inr slash)) (after.least factors)
      rwa [slash] at joined

theorem SumValue.least (factors : Factors arithmetic Factor) :
    {tokens : List Token} → {value : α} → SumValue arithmetic tokens value →
      Chain arithmetic sums (Chain arithmetic products Factor) tokens value
  | _, _, .single only => .single (only.least factors)
  | _, _, .plus kind plus before after => by
      have left := before.least factors
      have joined := left.join kind (List.mem_pair.mpr (.inl plus)) (after.least factors)
      rwa [plus] at joined
  | _, _, .minus kind minus before after => by
      have left := before.least factors
      have joined := left.join kind (List.mem_pair.mpr (.inr minus)) (after.least factors)
      rwa [minus] at joined

end

end

/-! ### The value of a tree -/

theorem sum_value (parsed : Parsed "Expr" tree) (legible : Legible tree)
    (factors : ∀ factor, sizeOf factor < sizeOf tree → Parsed "Factor" factor → Legible factor →
      FactorValue arithmetic factor.tokens (eval arithmetic factor)) :
    SumValue arithmetic tree.tokens (eval arithmetic tree) := by
  apply SumValue.of_chain
  apply Chain.of_level parsed legible
  intro term smaller termParsed termLegible
  apply ProductValue.of_chain
  apply Chain.of_level termParsed termLegible
  intro factor factorSmaller
  exact factors factor (Nat.lt_trans factorSmaller smaller)

theorem factor_value {tree : Tree} (parsed : Parsed "Factor" tree) (legible : Legible tree) :
    FactorValue arithmetic tree.tokens (eval arithmetic tree) := by
  rcases parsed_factor_iff.mp parsed with ⟨number, kind, rfl⟩ |
    ⟨left, inner, right, opening, within, closing, rfl⟩ | ⟨sign, operand, kind, signed, rfl⟩
  · rw [eval, text_leaf]
    exact .number kind
  · obtain ⟨-, innerLegible, -⟩ := legible_tail_iff.mp legible
    rw [tokens_tail, eval]
    exact .parentheses opening closing (sum_value within innerLegible
      fun factor smaller factorParsed factorLegible => factor_value factorParsed factorLegible)
  · obtain ⟨signLegible, operandLegible⟩ := legible_level_iff.mp legible
    have value := factor_value signed operandLegible
    rw [tokens_level, eval, text_leaf]
    rcases (signLegible sign (List.mem_singleton_self _)).add kind with plus | minus
    · rw [if_neg (by rw [plus]; decide)]
      exact .kept kind plus value
    · rw [if_pos minus]
      exact .negated kind minus value
termination_by sizeOf tree
decreasing_by
  · subst_vars
    exact Nat.lt_trans smaller (sizeOf_lt_node (.tail _ (.head _)))
  · subst_vars
    exact sizeOf_lt_node (.tail _ (.head _))

theorem expr_value (parsed : Parsed "Expr" tree) (legible : Legible tree) :
    SumValue arithmetic tree.tokens (eval arithmetic tree) :=
  sum_value parsed legible fun _ _ => factor_value

/-! ### The tree of a value -/

theorem hasTree_of_chains
    (chain : Chain arithmetic sums (Chain arithmetic products (HasTree arithmetic "Factor"))
      tokens value) : HasTree arithmetic "Expr" tokens value :=
  chain.hasTree fun _ _ term => term.hasTree fun _ _ factor => factor

theorem factors_hasTree : Factors arithmetic (HasTree arithmetic "Factor") where
  number := by
    intro token kind
    have parsed := parsed_factor_iff.mpr (.inl ⟨token, kind, rfl⟩)
    refine ⟨_, parsed, rfl, ?_⟩
    rw [eval, text_leaf]
  parentheses := by
    intro left right inner value opening closing within
    obtain ⟨tree, inside, rfl, rfl⟩ := hasTree_of_chains within
    have parsed := parsed_factor_iff.mpr
      (.inr (.inl ⟨left, tree, right, opening, inside, closing, rfl⟩))
    refine ⟨_, parsed, tokens_tail .., ?_⟩
    rw [eval]
  negated := by
    intro sign operand value kind minus signed
    obtain ⟨tree, inside, rfl, rfl⟩ := signed
    have parsed := parsed_factor_iff.mpr (.inr (.inr ⟨sign, tree, kind, inside, rfl⟩))
    refine ⟨_, parsed, tokens_level .., ?_⟩
    rw [eval, text_leaf, if_pos minus]
  kept := by
    intro sign operand value kind plus signed
    obtain ⟨tree, inside, rfl, rfl⟩ := signed
    have parsed := parsed_factor_iff.mpr (.inr (.inr ⟨sign, tree, kind, inside, rfl⟩))
    refine ⟨_, parsed, tokens_level .., ?_⟩
    rw [eval, text_leaf, if_neg (by rw [plus]; decide)]

theorem SumValue.hasTree (sum : SumValue arithmetic tokens value) :
    HasTree arithmetic "Expr" tokens value :=
  hasTree_of_chains (sum.least factors_hasTree)

/-! ### Checked values -/

theorem sum_of_checked {result : Option α}
    (chain : Chain arithmetic.checked sums
      (Chain arithmetic.checked products (Present (FactorValue arithmetic))) tokens result) :
    Present (SumValue arithmetic) tokens result := by
  have terms : ∀ tokens result,
      Chain arithmetic.checked products (Present (FactorValue arithmetic)) tokens result →
        Present (ProductValue arithmetic) tokens result := by
    intro tokens result term
    obtain ⟨value, same, known⟩ := term.of_checked fun _ _ factor => factor
    exact ⟨value, same, .of_chain known⟩
  obtain ⟨value, same, known⟩ := chain.of_checked terms
  exact ⟨value, same, .of_chain known⟩

theorem factors_present : Factors arithmetic.checked (Present (FactorValue arithmetic)) where
  number := fun kind => ⟨_, rfl, .number kind⟩
  parentheses := by
    intro left right inner result opening closing within
    obtain ⟨value, same, inside⟩ := sum_of_checked within
    exact ⟨value, same, .parentheses opening closing inside⟩
  negated := by
    intro sign operand result kind minus signed
    obtain ⟨value, rfl, inside⟩ := signed
    exact ⟨_, rfl, .negated kind minus inside⟩
  kept := by
    intro sign operand result kind plus signed
    obtain ⟨value, same, inside⟩ := signed
    exact ⟨value, same, .kept kind plus inside⟩

theorem SumValue.of_checked {result : Option α} (sum : SumValue arithmetic.checked tokens result) :
    Present (SumValue arithmetic) tokens result :=
  sum_of_checked (sum.least factors_present)

/-! ### The calculator -/

theorem exists_table : ∃ table, ParseTable.build grammar = .ok table := by
  have free : ParseTable.conflicts grammar.lower (.compute grammar.lower)
      (.compute grammar.lower (.compute grammar.lower)) = [] := by decide +kernel
  exact ⟨_, ParseTable.ofSets_eq_ok_iff.mpr ⟨free, rfl⟩⟩

theorem Parsed.unique {left right : Tree} (parsed : Parsed "Expr" left)
    (other : Parsed "Expr" right) (same : left.tokens = right.tokens) : left = right := by
  obtain ⟨table, built⟩ := exists_table
  obtain ⟨sameGrammar, exact⟩ := ParseTable.build_exact built
  have answers := exact.parse?_eq_ok_iff .empty
  rw [sameGrammar, grammar.startName_lower] at answers
  have keepsAll : ParserConfig.empty.kept right.tokens = right.tokens := List.filter_true _
  have leftFound := (answers right.tokens left).mpr ⟨parsed, same.trans keepsAll.symm⟩
  have rightFound := (answers right.tokens right).mpr ⟨other, keepsAll.symm⟩
  exact Except.ok.inj (Option.some.inj (leftFound.symm.trans rightFound))

/-- The tokens of a legible tree have one value, that of the tree. -/
theorem sumValue_iff_eq_eval {tree : Tree} (parsed : Parsed "Expr" tree) (legible : Legible tree)
    {value : α} : SumValue arithmetic tree.tokens value ↔ value = eval arithmetic tree := by
  constructor
  · intro known
    obtain ⟨other, otherParsed, same, rfl⟩ := known.hasTree
    rw [otherParsed.unique parsed same]
  · rintro rfl
    exact expr_value parsed legible

theorem eval_checked {tree : Tree} (parsed : Parsed "Expr" tree) (legible : Legible tree) :
    eval arithmetic.checked tree = some (eval arithmetic tree) := by
  have checked : SumValue arithmetic.checked tree.tokens (eval arithmetic.checked tree) :=
    expr_value parsed legible
  obtain ⟨result, same, known⟩ := checked.of_checked
  rw [same, (sumValue_iff_eq_eval parsed legible).mp known]

theorem parsed_of_parse? {table : ParseTable} (built : ParseTable.build grammar = .ok table)
    {text : List Char} {tree : Tree}
    (accepted : Compiled.parse? ⟨.ofGrammar lexical, table, config⟩ text = some (.ok tree)) :
    ∃ tokens, Dfa.tokenize (.ofGrammar lexical) text = .ok tokens ∧
      tree.tokens = config.kept tokens ∧ Parsed "Expr" tree ∧ Legible tree := by
  obtain ⟨sameGrammar, exact⟩ := ParseTable.build_exact built
  have answers := exact.parse?_eq_ok_iff config
  rw [sameGrammar, grammar.startName_lower] at answers
  unfold Compiled.parse? at accepted
  split at accepted
  case h_1 => cases accepted
  case h_2 tokens tokenized =>
    obtain ⟨result, found, same⟩ := Option.map_eq_some_iff.mp accepted
    cases result with
    | error fault => cases same
    | ok answer =>
        cases same
        obtain ⟨parsed, leaves⟩ := (answers tokens tree).mp found
        -- Tokens that lost their text end the list, so a last operand shows that none did.
        obtain ⟨last, ends, operand⟩ := ends_expr parsed
        rw [leaves] at ends
        have spelled := (written_of_tokenize tokenized).spelled fun other found =>
          Option.some.inj (ends.symm.trans found) ▸ operand
        rw [← leaves] at spelled
        exact ⟨tokens, tokenized, leaves, parsed, spelled⟩

/-- What the calculator accepts it evaluates: the value of the tree is the one value of
the tokens, over any arithmetic, and no case of the evaluation that stands for no
expression is reached. -/
theorem eval_of_parse? :
    ∃ compiled, compile = .ok compiled ∧
      ∀ text tree, compiled.parse? text = some (.ok tree) →
        ∃ tokens, compiled.dfa.tokenize text = .ok tokens ∧
          ∀ {α : Type} (arithmetic : Arithmetic α),
            (∀ value, SumValue arithmetic (config.kept tokens) value ↔
              value = eval arithmetic tree) ∧
            eval arithmetic.checked tree = some (eval arithmetic tree) := by
  obtain ⟨table, built⟩ := exists_table
  refine ⟨⟨.ofGrammar lexical, table, config⟩, by rw [compile, built]; rfl, ?_⟩
  intro text tree accepted
  obtain ⟨tokens, tokenized, leaves, parsed, legible⟩ := parsed_of_parse? built accepted
  refine ⟨tokens, tokenized, fun arithmetic => ⟨fun value => ?_, eval_checked parsed legible⟩⟩
  rw [← leaves]
  exact sumValue_iff_eq_eval parsed legible

/-! ### A difference with a sign -/

theorem matches_digit {char : Char} (digit : CharSet.digits.contains char = true) :
    number.Matches [char] :=
  .sequenceCons (.oneOrMore (.set digit) .zeroOrMoreNil) (.sequenceCons .optionalNone .sequenceNil)

def one : Letter lexical :=
  ⟨'1', 0, ⟨"NUMBER", number, 0⟩, rfl, matches_digit (by cbv), by cbv⟩

def two : Letter lexical :=
  ⟨'2', 0, ⟨"NUMBER", number, 0⟩, rfl, matches_digit (by cbv), by cbv⟩

def minus : Letter lexical :=
  ⟨'-', 1, ⟨"ADD", .oneOf ['+', '-'], 0⟩, rfl,
    .set (CharSet.contains_ofChars_iff.mpr (.tail _ (.head _))), by cbv⟩

def blank : Letter lexical :=
  ⟨' ', 5, ⟨"WS", .oneOrMore (.set .blanks), 0⟩, rfl,
    .oneOrMore (.set (by cbv)) .zeroOrMoreNil, by cbv⟩

/-- Two differences, one behind the other, with blanks and a sign. -/
def difference : List Char := ['2', ' ', '-', ' ', '1', ' ', '-', ' ', '-', '1']

def differenceTree : Tree :=
  .node "Expr"
    [.node "Term" [.node "Factor" [.leaf ⟨"NUMBER", "2", ⟨0, 1⟩, 1, 1⟩], .empty "Term#1"],
      .node "Expr#1"
        [.leaf ⟨"ADD", "-", ⟨2, 3⟩, 1, 3⟩,
          .node "Term" [.node "Factor" [.leaf ⟨"NUMBER", "1", ⟨4, 5⟩, 1, 5⟩], .empty "Term#1"],
          .node "Expr#1"
            [.leaf ⟨"ADD", "-", ⟨6, 7⟩, 1, 7⟩,
              .node "Term"
                [.node "Factor"
                    [.leaf ⟨"ADD", "-", ⟨8, 9⟩, 1, 9⟩,
                      .node "Factor" [.leaf ⟨"NUMBER", "1", ⟨9, 10⟩, 1, 10⟩]],
                  .empty "Term#1"],
              .empty "Expr#1"]]]

def differenceTokens : List Token :=
  [⟨"NUMBER", "2", ⟨0, 1⟩, 1, 1⟩, ⟨"WS", " ", ⟨1, 2⟩, 1, 2⟩, ⟨"ADD", "-", ⟨2, 3⟩, 1, 3⟩,
    ⟨"WS", " ", ⟨3, 4⟩, 1, 4⟩, ⟨"NUMBER", "1", ⟨4, 5⟩, 1, 5⟩, ⟨"WS", " ", ⟨5, 6⟩, 1, 6⟩,
    ⟨"ADD", "-", ⟨6, 7⟩, 1, 7⟩, ⟨"WS", " ", ⟨7, 8⟩, 1, 8⟩, ⟨"ADD", "-", ⟨8, 9⟩, 1, 9⟩,
    ⟨"NUMBER", "1", ⟨9, 10⟩, 1, 10⟩]

theorem tokenize_difference :
    Dfa.tokenize (.ofGrammar lexical) difference = .ok differenceTokens := by
  have fits : Position.origin.offset + Text.byteLength difference ≤ Offset.limit := by decide
  have computed := tokenizes_items lexical (difference.length + 1) (Nat.lt_succ_self _) fits
  have apart : [two, blank, minus, blank, one, blank, minus, blank, minus, one].IsChain
      fun left right => left.index ≠ right.index := by decide
  exact computed.unique (tokenizes_letters _ apart .origin)

theorem parsed_difference : Parsed "Expr" differenceTree := by
  have numeral : ∀ token : Token, token.kind = "NUMBER" →
      Parsed "Factor" (.node "Factor" [.leaf token]) := by
    intro token kind
    exact parsed_factor_iff.mpr (.inl ⟨token, kind, rfl⟩)
  have term : ∀ factor, Parsed "Factor" factor →
      Parsed "Term" (.node "Term" [factor, .empty "Term#1"]) := by
    intro factor parsed
    have done := products.parsed_tail_iff.mpr (.inl rfl)
    exact products.parsed_iff.mpr ⟨factor, _, parsed, done, rfl⟩
  have tail : ∀ (token : Token) (next rest : Tree), token.kind = "ADD" → Parsed "Term" next →
      Parsed "Expr#1" rest → Parsed "Expr#1" (.node "Expr#1" [.leaf token, next, rest]) := by
    intro token next rest kind parsed others
    exact sums.parsed_tail_iff.mpr (.inr ⟨token, next, rest, kind, parsed, others, rfl⟩)
  have signed : Parsed "Factor" (.node "Factor" [.leaf ⟨"ADD", "-", ⟨8, 9⟩, 1, 9⟩,
      .node "Factor" [.leaf ⟨"NUMBER", "1", ⟨9, 10⟩, 1, 10⟩]]) :=
    parsed_factor_iff.mpr (.inr (.inr ⟨_, _, rfl, numeral _ rfl, rfl⟩))
  have done := sums.parsed_tail_iff.mpr (.inl rfl)
  have last := tail ⟨"ADD", "-", ⟨6, 7⟩, 1, 7⟩ _ _ rfl (term _ signed) done
  have one := term _ (numeral ⟨"NUMBER", "1", ⟨4, 5⟩, 1, 5⟩ rfl)
  have rest := tail ⟨"ADD", "-", ⟨2, 3⟩, 1, 3⟩ _ _ rfl one last
  exact sums.parsed_iff.mpr ⟨_, _, term _ (numeral _ rfl), rest, rfl⟩

theorem parse?_difference {table : ParseTable} (built : ParseTable.build grammar = .ok table) :
    Compiled.parse? ⟨.ofGrammar lexical, table, config⟩ difference =
      some (.ok differenceTree) := by
  obtain ⟨sameGrammar, exact⟩ := ParseTable.build_exact built
  have answers := exact.parse?_eq_ok_iff config differenceTokens differenceTree
  rw [sameGrammar, grammar.startName_lower] at answers
  have found := answers.mpr ⟨parsed_difference, by decide +kernel⟩
  simp only [Compiled.parse?, tokenize_difference, found, Option.map_some]

theorem eval_of_parse?_difference :
    ∃ compiled, compile = .ok compiled ∧
      compiled.parse? difference = some (.ok differenceTree) ∧
        ∃ tokens, compiled.dfa.tokenize difference = .ok tokens ∧
          ∀ {α : Type} (arithmetic : Arithmetic α),
            (∀ value, SumValue arithmetic (config.kept tokens) value ↔
              value = arithmetic.subtract
                (arithmetic.subtract (arithmetic.number "2") (arithmetic.number "1"))
                (arithmetic.negate (arithmetic.number "1"))) ∧
            eval arithmetic.checked differenceTree ≠ none := by
  obtain ⟨compiled, compiles, evaluates⟩ := eval_of_parse?
  obtain ⟨table, built⟩ := exists_table
  have same : compile = .ok ⟨.ofGrammar lexical, table, config⟩ := by
    rw [compile, built]
    rfl
  cases Except.ok.inj (compiles.symm.trans same)
  have accepted := parse?_difference built
  obtain ⟨tokens, tokenized, values⟩ := evaluates difference differenceTree accepted
  refine ⟨_, compiles, accepted, tokens, tokenized, fun arithmetic => ?_⟩
  obtain ⟨known, checked⟩ := values arithmetic
  refine ⟨fun value => known value, ?_⟩
  rw [checked]
  nofun

end Predictive.Calculator
