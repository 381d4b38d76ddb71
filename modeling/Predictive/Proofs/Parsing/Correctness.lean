/-
The predictive parser finds exactly the derivation trees. On the way the stack and
the finished trees always fit together: what stands above the bottom are the
rests of productions, each with trees for the symbols that came before. In the
other direction a derivation tree is a plan for the machine, because each of its
productions is the one that the next token calls for.
-/

import Predictive.Parsing.Derivation
import Predictive.Proofs.Parsing.Termination

namespace Predictive

namespace Tree

variable {grammar : PlainGrammar}

theorem tokensOfAll_append (left right : List Tree) :
    tokensOfAll (left ++ right) = tokensOfAll left ++ tokensOfAll right := by
  induction left with
  | nil => rfl
  | cons tree rest ih => rw [List.cons_append, tokensOfAll, ih, tokensOfAll, List.append_assoc]

theorem tokensOfAll_singleton (tree : Tree) : tokensOfAll [tree] = tree.tokens := by
  rw [tokensOfAll, tokensOfAll, List.append_nil]

namespace DerivesAll

theorem length_eq {symbols : List Symbol} {trees : List Tree}
    (derived : DerivesAll grammar symbols trees) : trees.length = symbols.length := by
  induction symbols generalizing trees with
  | nil =>
      cases derived
      rfl
  | cons symbol rest ih =>
      cases derived with
      | cons first others => rw [List.length_cons, List.length_cons, ih others]

theorem append {symbols : List Symbol} {trees : List Tree}
    (derived : DerivesAll grammar symbols trees) {symbol : Symbol} {tree : Tree}
    (last : Derives grammar symbol tree) :
    DerivesAll grammar (symbols ++ [symbol]) (trees ++ [tree]) := by
  induction symbols generalizing trees with
  | nil =>
      cases derived
      exact .cons last .nil
  | cons head rest ih =>
      cases derived with
      | cons first others => exact .cons first (ih others)

end DerivesAll

/-! ### What stands at the front of a tree -/

mutual

theorem Derives.front {symbol : Symbol} {tree : Tree} (derived : Derives grammar symbol tree) :
    (tree.tokens = [] → grammar.Vanishes [symbol]) ∧
      ∀ token rest, tree.tokens = token :: rest → grammar.Begins token.kind [symbol] := by
  cases derived with
  | leaf token =>
      refine ⟨nofun, fun other rest same => ?_⟩
      cases same
      exact .here []
  | node member derived =>
      obtain ⟨empty, begins⟩ := derived.front
      exact ⟨fun none => .cons member (empty none) .nil,
        fun token rest same => .inside [] member (begins token rest same)⟩
  | empty member => exact ⟨fun _ => .cons member .nil .nil, nofun⟩

theorem DerivesAll.front {symbols : List Symbol} {trees : List Tree}
    (derived : DerivesAll grammar symbols trees) :
    (tokensOfAll trees = [] → grammar.Vanishes symbols) ∧
      ∀ token rest, tokensOfAll trees = token :: rest → grammar.Begins token.kind symbols := by
  cases derived with
  | nil => exact ⟨fun _ => .nil, nofun⟩
  | @cons symbol symbols tree trees first others =>
      obtain ⟨empty, begins⟩ := first.front
      obtain ⟨othersEmpty, othersBegin⟩ := others.front
      rw [tokensOfAll]
      refine ⟨fun none => ?_, fun token rest same => ?_⟩
      · obtain ⟨noneFirst, noneLater⟩ := List.append_eq_nil_iff.mp none
        exact (empty noneFirst).append (othersEmpty noneLater)
      · cases split : tree.tokens with
        | nil =>
            rw [split] at same
            exact .behind_vanishing (empty split) (othersBegin token rest same)
        | cons head tail =>
            rw [split] at same
            cases same
            exact (begins token tail split).append symbols

end

end Tree

namespace Machine

variable {machine : Machine} {grammar : PlainGrammar}

/-! ### Every answer is a derivation tree -/

/-- The stack and the finished trees of a parse under way. -/
inductive Open (grammar : PlainGrammar) : List Task → List Tree → Prop where
  | initial : Open grammar [.accept (.nonTerminal grammar.startName), .finish] []
  | final {tree : Tree} (derived : Tree.Derives grammar (.nonTerminal grammar.startName) tree) :
      Open grammar [.finish] [tree]
  /-- The trees so far belong to the first symbols of a production. -/
  | within {name : String} {placed left : List Symbol} {trees output : List Tree}
      {rest : List Task} (outer : Open grammar (.accept (.nonTerminal name) :: rest) output)
      (member : ⟨name, placed ++ left⟩ ∈ grammar.productions) (some : placed ++ left ≠ [])
      (derived : Tree.DerivesAll grammar placed trees) :
      Open grammar (left.map .accept ++ .gather name (placed ++ left).length :: rest)
        (trees.reverse ++ output)

namespace Open

theorem complete {symbol : Symbol} {rest : List Task} {output : List Tree} {tree : Tree}
    (opened : Open grammar (.accept symbol :: rest) output)
    (derived : Tree.Derives grammar symbol tree) : Open grammar rest (tree :: output) := by
  generalize top : Task.accept symbol :: rest = stack at opened
  cases opened with
  | initial =>
      cases top
      exact .final derived
  | final => cases top
  | @within name placed left trees output below outer member some placedDerived =>
      cases left with
      | nil => cases top
      | cons next left =>
          cases top
          have whole : (placed ++ [symbol]) ++ left = placed ++ symbol :: left :=
            List.append_assoc ..
          have grown := within outer (whole ▸ member) (whole ▸ some) (placedDerived.append derived)
          rw [whole, List.reverse_append] at grown
          exact grown

theorem gathered {name : String} {count : Nat} {rest : List Task} {output : List Tree}
    (opened : Open grammar (.gather name count :: rest) output) :
    ∃ symbol symbols trees below, output = trees.reverse ++ below ∧ trees.length = count ∧
      ⟨name, symbol :: symbols⟩ ∈ grammar.productions ∧
        Tree.DerivesAll grammar (symbol :: symbols) trees ∧
          Open grammar (.accept (.nonTerminal name) :: rest) below := by
  generalize top : Task.gather name count :: rest = stack at opened
  cases opened with
  | initial => cases top
  | final => cases top
  | @within name placed left trees output below outer member some derived =>
      cases left with
      | cons next left => cases top
      | nil =>
          cases top
          rw [List.append_nil] at member some
          cases placed with
          | nil => exact (some rfl).elim
          | cons symbol symbols =>
              rw [List.append_nil]
              exact ⟨symbol, symbols, trees, output, rfl, derived.length_eq, member, derived, outer⟩

theorem finished {rest : List Task} {output : List Tree}
    (opened : Open grammar (.finish :: rest) output) :
    ∃ tree, output = [tree] ∧ Tree.Derives grammar (.nonTerminal grammar.startName) tree := by
  generalize top : Task.finish :: rest = stack at opened
  cases opened with
  | initial => cases top
  | final derived => exact ⟨_, rfl, derived⟩
  | @within name placed left trees output below outer member some derived =>
      cases left <;> cases top

theorem ne_nil {output : List Tree} : ¬Open grammar [] output := by
  intro opened
  generalize bottom : ([] : List Task) = stack at opened
  cases opened with
  | initial => cases bottom
  | final => cases bottom
  | @within name placed left trees output below outer member some derived =>
      cases left <;> cases bottom

theorem predict {state : ParseState} {name : String} {rhs : List Symbol} {rest : List Task}
    (opened : Open grammar (.accept (.nonTerminal name) :: rest) state.output)
    (member : ⟨name, rhs⟩ ∈ grammar.productions) :
    Open grammar (Machine.predict state name rhs rest).stack
      (Machine.predict state name rhs rest).output := by
  cases rhs with
  | nil => exact opened.complete (.empty member)
  | cons symbol symbols => exact within opened member (List.cons_ne_nil _ _) .nil

theorem gather {state : ParseState} {name : String} {count : Nat} {rest : List Task}
    (opened : Open grammar (.gather name count :: rest) state.output) :
    Open grammar (Machine.gather state name count rest).stack
      (Machine.gather state name count rest).output := by
  obtain ⟨symbol, symbols, trees, below, output, rfl, member, derived, outer⟩ := opened.gathered
  have taken : state.output.take trees.length = trees.reverse := by
    rw [output, List.take_left' (List.length_reverse ..)]
  have dropped : state.output.drop trees.length = below := by
    rw [output, List.drop_left' (List.length_reverse ..)]
  change Open grammar rest (.node name (state.output.take trees.length).reverse :: _)
  rw [taken, dropped, List.reverse_reverse]
  exact outer.complete (.node member derived)

end Open

def tokensOf (state : ParseState) : List Token :=
  Tree.tokensOfAll state.output.reverse ++ state.input

theorem tokensOf_predict (state : ParseState) (name : String) (rhs : List Symbol)
    (rest : List Task) : tokensOf (predict state name rhs rest) = tokensOf state := by
  cases rhs with
  | nil =>
      simp only [tokensOf, predict, List.reverse_cons, Tree.tokensOfAll_append,
        Tree.tokensOfAll_singleton, Tree.tokens, List.append_nil]
  | cons symbol symbols => rfl

theorem tokensOf_gather (state : ParseState) (name : String) (count : Nat) (rest : List Task) :
    tokensOf (gather state name count rest) = tokensOf state := by
  simp only [tokensOf, gather, List.reverse_cons, Tree.tokensOfAll_append,
    Tree.tokensOfAll_singleton, Tree.tokens]
  rw [← Tree.tokensOfAll_append, ← List.reverse_append, List.take_append_drop]

/-- A step keeps the stack and the trees together and loses no token. -/
theorem step_open (exact : machine.table.Exact) {state : ParseState}
    (opened : Open machine.table.grammar state.stack state.output) :
    match machine.step state with
    | .halt _ => True
    | .stay next | .shift next =>
        Open machine.table.grammar next.stack next.output ∧ tokensOf next = tokensOf state := by
  have leads := leads_step machine state
  generalize machine.step state = progress at leads
  cases leads with
  | @matched rest token tokens top input =>
      rw [top] at opened
      refine ⟨opened.complete (.leaf token), ?_⟩
      simp only [tokensOf, List.reverse_cons, Tree.tokensOfAll_append, Tree.tokensOfAll_singleton,
        Tree.tokens, input, List.append_assoc, List.singleton_append]
  | @expanded rest name production top found =>
      obtain ⟨rfl, member, -⟩ := exact.get?_iff.mp found
      rw [top] at opened
      exact ⟨opened.predict member, tokensOf_predict ..⟩
  | gathered top =>
      rw [top] at opened
      exact ⟨opened.gather, tokensOf_gather ..⟩
  | _ => trivial

theorem Halts.sound (exact : machine.table.Exact) {count : Nat} {state : ParseState} {tree : Tree}
    (halts : machine.Halts count state (.ok tree))
    (opened : Open machine.table.grammar state.stack state.output) :
    Tree.Derives machine.table.grammar (.nonTerminal machine.table.grammar.startName) tree ∧
      tree.tokens = tokensOf state := by
  generalize succeeded : Except.ok tree = result at halts
  induction halts with
  | @halt state result halted =>
      have leads := leads_step machine state
      rw [halted, ← succeeded] at leads
      generalize answer : Progress.halt (.ok tree) = progress at leads
      cases leads with
      | exhausted bottom => exact (Open.ne_nil (bottom ▸ opened)).elim
      | accepted top ended =>
          obtain ⟨only, output, derived⟩ := (top ▸ opened).finished
          cases answer
          refine ⟨?_, ?_⟩
          · rwa [Machine.result, output, List.headD_cons]
          · rw [Machine.result, output, tokensOf, output, ended, List.append_nil]
            exact (Tree.tokensOfAll_singleton only).symm
      | _ => cases answer
  | stay stayed later ih =>
      have kept := step_open exact opened
      rw [stayed] at kept
      rw [← kept.2]
      exact ih kept.1 succeeded
  | shift shifted later ih =>
      have kept := step_open exact opened
      rw [shifted] at kept
      rw [← kept.2]
      exact ih kept.1 succeeded

/-! ### Every derivation tree is found -/

def Moves (machine : Machine) (state next : ParseState) : Prop :=
  machine.step state = .stay next ∨ machine.step state = .shift next

def Reaches (machine : Machine) : ParseState → ParseState → Prop :=
  Relation.ReflTransGen machine.Moves

theorem Reaches.halts {state next : ParseState} (reaches : machine.Reaches state next) {count : Nat}
    {result : Except ParseError Tree} (halts : machine.Halts count next result) :
    ∃ count, machine.Halts count state result := by
  induction reaches using Relation.ReflTransGen.head_induction_on with
  | refl => exact ⟨count, halts⟩
  | head moves _ ih =>
      obtain ⟨count, later⟩ := ih
      rcases moves with stayed | shifted
      · exact ⟨count + 1, .stay stayed later⟩
      · exact ⟨count + 1, .shift shifted later⟩

def front (input : List Token) : Lookahead := ParseState.lookahead ⟨[], [], input⟩

theorem follows_front {name target : String} {before after : List Symbol} {trees : List Tree}
    {input : List Token}
    (member : ⟨name, before ++ .nonTerminal target :: after⟩ ∈ grammar.productions)
    (derived : Tree.DerivesAll grammar after trees) (follows : grammar.Follows (front input) name) :
    grammar.Follows (front (Tree.tokensOfAll trees ++ input)) target := by
  obtain ⟨empty, begins⟩ := derived.front
  cases tokens : Tree.tokensOfAll trees with
  | nil => exact .inherited member (empty tokens) follows
  | cons token rest => exact .beside member (begins token rest tokens)

theorem predicts_front {name : String} {rhs : List Symbol} {trees : List Tree} {input : List Token}
    (derived : Tree.DerivesAll grammar rhs trees) (follows : grammar.Follows (front input) name) :
    grammar.Predicts (front (Tree.tokensOfAll trees ++ input)) ⟨name, rhs⟩ := by
  obtain ⟨empty, begins⟩ := derived.front
  cases tokens : Tree.tokensOfAll trees with
  | nil => exact Or.inr ⟨empty tokens, follows⟩
  | cons token rest => exact Or.inl ⟨token.kind, rfl, begins token rest tokens⟩

mutual

/-- In front of the tokens of a tree the machine builds the tree. -/
theorem reaches_tree (exact : machine.table.Exact) {symbol : Symbol} {tree : Tree}
    (derived : Tree.Derives machine.table.grammar symbol tree) (rest : List Task)
    (output : List Tree) (input : List Token)
    (follows : ∀ name, symbol = .nonTerminal name →
      machine.table.grammar.Follows (front input) name) :
    machine.Reaches ⟨.accept symbol :: rest, output, tree.tokens ++ input⟩
      ⟨rest, tree :: output, input⟩ := by
  cases derived with
  | leaf token =>
      refine .single (Or.inr ?_)
      simp only [step, shiftTerminal, Tree.tokens, List.singleton_append, if_true]
  | @node name first others children member derived =>
      have following := follows name rfl
      have found := exact.get?_iff.mpr ⟨rfl, member, predicts_front derived following⟩
      have expanded : machine.step ⟨.accept (.nonTerminal name) :: rest, output,
          (Tree.node name children).tokens ++ input⟩ = .stay _ := step_of_get? rfl found
      have built := reaches_forest exact derived [] member
        (.gather name (first :: others).length :: rest) output input following
      refine .head (Or.inl expanded) (built.tail (Or.inl ?_))
      change Progress.stay (gather _ name (first :: others).length rest) = _
      rw [gather, ← derived.length_eq, List.take_left' (List.length_reverse ..),
        List.drop_left' (List.length_reverse ..), List.reverse_reverse]
  | @empty name member =>
      have found := exact.get?_iff.mpr ⟨rfl, member, predicts_front .nil (follows name rfl)⟩
      have expanded : machine.step ⟨.accept (.nonTerminal name) :: rest, output,
          (Tree.empty name).tokens ++ input⟩ = .stay _ := step_of_get? rfl found
      exact .single (Or.inl expanded)

theorem reaches_forest (exact : machine.table.Exact) {symbols : List Symbol} {trees : List Tree}
    (derived : Tree.DerivesAll machine.table.grammar symbols trees) {name : String}
    (placed : List Symbol)
    (member : ⟨name, placed ++ symbols⟩ ∈ machine.table.grammar.productions) (rest : List Task)
    (output : List Tree) (input : List Token)
    (follows : machine.table.grammar.Follows (front input) name) :
    machine.Reaches ⟨symbols.map .accept ++ rest, output, Tree.tokensOfAll trees ++ input⟩
      ⟨rest, trees.reverse ++ output, input⟩ := by
  cases derived with
  | nil => exact .refl
  | @cons symbol symbols tree trees first others =>
      have split : (placed ++ [symbol]) ++ symbols = placed ++ symbol :: symbols :=
        List.append_assoc ..
      have head := reaches_tree exact first (symbols.map .accept ++ rest) output
        (Tree.tokensOfAll trees ++ input) fun target same =>
          follows_front (same ▸ member) others follows
      have tail := reaches_forest exact others (placed ++ [symbol]) (split ▸ member) rest
        (tree :: output) input follows
      rw [Tree.tokensOfAll, List.append_assoc, List.reverse_cons, List.append_assoc]
      exact head.trans tail

end

theorem halts_of_derives (exact : machine.table.Exact) {tree : Tree}
    (derived : Tree.Derives machine.table.grammar (.nonTerminal machine.table.grammar.startName)
      tree) :
    ∃ count, machine.Halts count (initial machine.table tree.tokens) (.ok tree) := by
  have follows : ∀ name, Symbol.nonTerminal machine.table.grammar.startName = .nonTerminal name →
      machine.table.grammar.Follows (front []) name := by
    intro name same
    cases same
    exact .start
  have reaches := reaches_tree exact derived [.finish] [] [] follows
  rw [List.append_nil] at reaches
  exact reaches.halts (.halt rfl)

end Machine

namespace ParseTable

theorem Exact.parse?_eq_ok_iff {table : ParseTable} (exact : table.Exact) (config : ParserConfig)
    (tokens : List Token) (tree : Tree) :
    table.parse? config tokens = some (.ok tree) ↔
      Tree.Derives table.grammar (.nonTerminal table.grammar.startName) tree ∧
        tree.tokens = config.kept tokens := by
  have machineExact : (Machine.ofTokens table tokens).table.Exact := exact
  have enough : (Machine.initial table (config.kept tokens)).input.length <
      (config.kept tokens).length + 1 := Nat.lt_succ_self _
  rw [parse?, Machine.run_eq_some_iff machineExact enough]
  constructor
  · rintro ⟨count, halts⟩
    exact halts.sound machineExact .initial
  · rintro ⟨derived, same⟩
    rw [← same]
    exact Machine.halts_of_derives machineExact derived

/-- The parser is sound and complete: it answers with a tree exactly when the tree
derives the tokens that are kept from the start symbol. No tokens have two trees. -/
theorem parse?_eq_ok_iff_derives {source : Grammar} {table : ParseTable}
    (built : build source = .ok table) :
    (∀ (config : ParserConfig) (tokens : List Token) (tree : Tree),
        table.parse? config tokens = some (.ok tree) ↔
          Tree.Derives source.lower (.nonTerminal source.start) tree ∧
            tree.tokens = config.kept tokens) ∧
      ∀ left right : Tree, Tree.Derives source.lower (.nonTerminal source.start) left →
        Tree.Derives source.lower (.nonTerminal source.start) right →
          left.tokens = right.tokens → left = right := by
  obtain ⟨same, exact⟩ := build_exact built
  have answers := exact.parse?_eq_ok_iff
  rw [same, source.startName_lower] at answers
  refine ⟨answers, ?_⟩
  intro left right leftDerived rightDerived sameTokens
  have keepsAll : ParserConfig.empty.kept left.tokens = left.tokens := List.filter_true _
  have leftFound := (answers .empty left.tokens left).mpr ⟨leftDerived, keepsAll.symm⟩
  have rightFound := (answers .empty left.tokens right).mpr
    ⟨rightDerived, sameTokens.symm.trans keepsAll.symm⟩
  exact Except.ok.inj (Option.some.inj (leftFound.symm.trans rightFound))

def nested : Grammar where
  start := "S"
  rules := [("S", .sequence [.terminal "(", .zeroOrMore (.nonTerminal "S"), .terminal ")"])]
  distinct := by decide
  startDefined := by decide
  closed := by decide

/-- A pair of brackets with a pair inside, around a blank. -/
def nestedTokens : List Token :=
  [⟨"(", "(", ⟨0, 1⟩, 1, 1⟩, ⟨"blank", " ", ⟨1, 2⟩, 1, 2⟩, ⟨"(", "(", ⟨2, 3⟩, 1, 3⟩,
    ⟨")", ")", ⟨3, 4⟩, 1, 4⟩, ⟨")", ")", ⟨4, 5⟩, 1, 5⟩]

def nestedTree : Tree :=
  .node "S"
    [.leaf ⟨"(", "(", ⟨0, 1⟩, 1, 1⟩,
      .node "S#1"
        [.node "S"
          [.leaf ⟨"(", "(", ⟨2, 3⟩, 1, 3⟩, .empty "S#1", .leaf ⟨")", ")", ⟨3, 4⟩, 1, 4⟩],
        .empty "S#1"],
      .leaf ⟨")", ")", ⟨4, 5⟩, 1, 5⟩]

theorem parse?_nested :
    ∃ table, build nested = .ok table ∧
      table.parse? ⟨["blank"]⟩ nestedTokens = some (.ok nestedTree) := by
  have free : conflicts nested.lower (.compute nested.lower)
      (.compute nested.lower (.compute nested.lower)) = [] := by decide +kernel
  have built := ofSets_eq_ok_iff.mpr ⟨free, rfl⟩
  have list : Production.mk "S" [.terminal "(", .nonTerminal "S#1", .terminal ")"] ∈
      nested.lower.productions := by decide +kernel
  have more : Production.mk "S#1" [.nonTerminal "S", .nonTerminal "S#1"] ∈
      nested.lower.productions := by decide +kernel
  have none : Production.mk "S#1" [] ∈ nested.lower.productions := by decide +kernel
  have inner := Tree.Derives.node list (.cons (.leaf ⟨"(", "(", ⟨2, 3⟩, 1, 3⟩)
    (.cons (.empty none) (.cons (.leaf ⟨")", ")", ⟨3, 4⟩, 1, 4⟩) .nil)))
  have items := Tree.Derives.node more (.cons inner (.cons (.empty none) .nil))
  have outer := Tree.Derives.node list (.cons (.leaf ⟨"(", "(", ⟨0, 1⟩, 1, 1⟩)
    (.cons items (.cons (.leaf ⟨")", ")", ⟨4, 5⟩, 1, 5⟩) .nil)))
  exact ⟨_, built, ((parse?_eq_ok_iff_derives built).1 _ _ _).mpr ⟨outer, by decide +kernel⟩⟩

end ParseTable

end Predictive
