/-
The stacks of the parser under a table that was filled by any sets at all. Every
number in such a table still belongs to a production of its non-terminal. So the
stack only ever holds declared non-terminals, a task to gather trees is reached
again when exactly the trees of the production that left it lie on the output,
and the bottom is reached with one tree, of the start symbol.
-/

import Predictive.Proofs.Parsing.Correctness

namespace Predictive

namespace ParseTable

variable {grammar : PlainGrammar} {first : FirstSets} {follow : FollowSets} {table : ParseTable}

/-! ### What a table holds -/

/-- Each cell holds a production of its non-terminal, called for or not. -/
structure Filled (table : ParseTable) : Prop where
  consistent : table.grammar.Consistent
  started : table.grammar.startName ∈ table.grammar.names
  listed : ∀ {name : String} {id number : Nat} {lookahead : Lookahead},
    table.grammar.idOf? name = some id → table.productionId? id lookahead = some number →
      ∃ rhs, table.grammar.productions[number]? = some ⟨name, rhs⟩

theorem listed_of_productionId?_fill (consistent : grammar.Consistent) {name : String}
    {id number : Nat} {lookahead : Lookahead} (named : grammar.nameOf? id = some name)
    (filled : (fill grammar first follow).productionId? id lookahead = some number) :
    ∃ rhs, grammar.productions[number]? = some ⟨name, rhs⟩ := by
  rw [productionId?_fill (PlainGrammar.lt_size_of_nameOf? named)] at filled
  obtain ⟨occupant, occupies, rfl⟩ := Option.map_eq_some_iff.mp filled
  have claimed := (Claim.occupant?_eq_some occupies).1
  obtain ⟨number, isListed, inClaims⟩ := List.mem_flatMap.mp claimed
  rw [production_of_mem_productionClaims inClaims]
  exact (consistent.listed named number).mp isListed

theorem ofSets_filled {source : Grammar} (built : ofSets source.lower first follow = .ok table) :
    table.grammar = source.lower ∧ table.Filled := by
  obtain ⟨-, rfl⟩ := ofSets_eq_ok_iff.mp built
  have consistent := source.lower_consistent
  have started : source.lower.startName ∈ source.lower.names := by
    rw [source.startName_lower]
    exact PlainGrammar.mem_names_iff.mpr ⟨_, source.nameOf?_lower_start⟩
  refine ⟨rfl, consistent, started, ?_⟩
  intro name id number lookahead found filled
  exact listed_of_productionId?_fill consistent (consistent.idOf?_eq_some_iff.mp found) filled

theorem Filled.get?_member (filled : table.Filled) {name : String} {lookahead : Lookahead}
    {production : Production} (found : table.get? name lookahead = some production) :
    production.lhs = name ∧ production ∈ table.grammar.productions := by
  obtain ⟨id, known, inRow⟩ := Option.bind_eq_some_iff.mp found
  obtain ⟨number, cell, rfl⟩ := Option.map_eq_some_iff.mp inRow
  obtain ⟨rhs, listed⟩ := filled.listed known cell
  rw [PlainGrammar.production_of_getElem? listed]
  exact ⟨rfl, Array.mem_of_getElem? listed⟩

end ParseTable

namespace Machine

variable {machine : Machine} {grammar : PlainGrammar} {state next before : ParseState}

/-! ### The tasks above a base -/

/-- Above the base of a stack stands what is left of a string of symbols, and the
output holds the trees of the symbols before it on top of those from below. -/
inductive Above (grammar : PlainGrammar) (base : List Task) (below : List Tree)
    (symbols : List Symbol) : List Task → List Tree → Prop where
  | level {placed left : List Symbol} {trees : List Tree} (split : placed ++ left = symbols)
      (derived : Tree.DerivesAll grammar placed trees) :
      Above grammar base below symbols (left.map .accept ++ base) (trees.reverse ++ below)
  /-- The last of these trees belong to the first symbols of a production. -/
  | within {name : String} {placed left : List Symbol} {trees output : List Tree}
      {rest : List Task}
      (outer : Above grammar base below symbols (.accept (.nonTerminal name) :: rest) output)
      (member : ⟨name, placed ++ left⟩ ∈ grammar.productions) (some : placed ++ left ≠ [])
      (derived : Tree.DerivesAll grammar placed trees) :
      Above grammar base below symbols
        (left.map .accept ++ .gather name (placed ++ left).length :: rest)
        (trees.reverse ++ output)

namespace Above

variable {base rest : List Task} {below output : List Tree} {symbols : List Symbol}

theorem start : Above grammar base below symbols (symbols.map .accept ++ base) below :=
  level (List.nil_append symbols) .nil

theorem suffix (closed : ∀ symbol rest, base ≠ .accept symbol :: rest) {stack : List Task}
    (above : Above grammar base below symbols stack output) : base <:+ stack := by
  induction above with
  | level split derived => exact List.suffix_append _ _
  | @within name placed left trees output rest outer member some derived ih =>
      rcases List.suffix_cons_iff.mp ih with same | inRest
      · exact (closed _ _ same).elim
      · exact (inRest.trans (List.suffix_cons _ _)).trans (List.suffix_append _ _)

theorem complete (closed : ∀ symbol rest, base ≠ .accept symbol :: rest) {symbol : Symbol}
    {tree : Tree} (above : Above grammar base below symbols (.accept symbol :: rest) output)
    (derived : Tree.Derives grammar symbol tree) :
    Above grammar base below symbols rest (tree :: output) := by
  generalize top : Task.accept symbol :: rest = stack at above
  cases above with
  | @level placed left trees split placedDerived =>
      cases left with
      | nil => exact (closed symbol rest top.symm).elim
      | cons next left =>
          cases top
          have whole : (placed ++ [symbol]) ++ left = symbols :=
            (List.append_assoc ..).trans split
          have grown : Above grammar base below symbols (left.map .accept ++ base)
              ((trees ++ [tree]).reverse ++ below) :=
            .level whole (placedDerived.append derived)
          rw [List.reverse_append] at grown
          exact grown
  | @within name placed left trees output outside outer member some placedDerived =>
      cases left with
      | nil => cases top
      | cons next left =>
          cases top
          have whole : (placed ++ [symbol]) ++ left = placed ++ symbol :: left :=
            List.append_assoc ..
          have grown := within outer (whole ▸ member) (whole ▸ some) (placedDerived.append derived)
          rw [whole, List.reverse_append] at grown
          exact grown

theorem predict (closed : ∀ symbol rest, base ≠ .accept symbol :: rest) {name : String}
    {rhs : List Symbol}
    (above : Above grammar base below symbols (.accept (.nonTerminal name) :: rest) state.output)
    (member : ⟨name, rhs⟩ ∈ grammar.productions) :
    Above grammar base below symbols (Machine.predict state name rhs rest).stack
      (Machine.predict state name rhs rest).output := by
  cases rhs with
  | nil => exact above.complete closed (.empty member)
  | cons symbol symbols => exact within above member (List.cons_ne_nil _ _) .nil

theorem gather (closed : ∀ symbol rest, base ≠ .accept symbol :: rest) {name : String}
    {count : Nat}
    (above : Above grammar base below symbols (.gather name count :: rest) state.output) :
    base = .gather name count :: rest ∨
      Above grammar base below symbols rest (Machine.gather state name count rest).output := by
  generalize top : Task.gather name count :: rest = stack at above
  generalize finished : state.output = output at above
  cases above with
  | @level placed left trees split derived =>
      cases left with
      | nil => exact Or.inl rfl
      | cons next left => cases top
  | @within name placed left trees output outside outer member some derived =>
      cases left with
      | cons next left => cases top
      | nil =>
          cases top
          rw [List.append_nil] at member some
          cases placed with
          | nil => exact (some rfl).elim
          | cons symbol symbols =>
              have size := derived.length_eq
              have taken : state.output.take trees.length = trees.reverse := by
                rw [finished, List.take_left' (List.length_reverse ..)]
              have dropped : state.output.drop trees.length = output := by
                rw [finished, List.drop_left' (List.length_reverse ..)]
              right
              rw [Machine.gather, List.append_nil, ← size, taken, dropped, List.reverse_reverse]
              exact outer.complete closed (.node member derived)

theorem moves (filled : machine.table.Filled)
    (closed : ∀ symbol rest, base ≠ .accept symbol :: rest)
    (above : Above machine.table.grammar base below symbols state.stack state.output)
    (moves : machine.Moves state next)
    (inside : ∀ name count rest, base = .gather name count :: rest → state.stack ≠ base) :
    Above machine.table.grammar base below symbols next.stack next.output := by
  have leads := leads_step machine state
  rcases moves with stayed | shifted
  · rw [stayed] at leads
    cases leads with
    | @expanded rest name production top found =>
        obtain ⟨rfl, member⟩ := filled.get?_member found
        rw [top] at above
        exact above.predict closed member
    | @gathered rest name count top =>
        rw [top] at above
        rcases above.gather closed with same | gathered
        · exact (inside name count rest same (top.trans same.symm)).elim
        · exact gathered
  · rw [shifted] at leads
    cases leads with
    | @matched rest token tokens top input =>
        rw [top] at above
        exact above.complete closed (.leaf token)

theorem settled (closed : ∀ symbol rest, base ≠ .accept symbol :: rest) {stack : List Task}
    (above : Above grammar base below symbols stack output) (same : stack = base) :
    ∃ trees, output = trees.reverse ++ below ∧ Tree.DerivesAll grammar symbols trees := by
  cases above with
  | @level placed left trees split derived =>
      cases left with
      | nil =>
          rw [List.append_nil] at split
          exact ⟨trees, rfl, split ▸ derived⟩
      | cons next left => exact (closed _ _ same.symm).elim
  | @within name placed left trees output rest outer member some derived =>
      rcases List.suffix_cons_iff.mp (outer.suffix closed) with accepts | inRest
      · exact (closed _ _ accepts).elim
      · have longer := inRest.length_le
        rw [← same, List.length_append, List.length_cons] at longer
        omega

end Above

/-! ### What put a task on the stack -/

/-- The production was expanded in `before` and left its task to gather trees, which has
stayed on the stack above `rest` until `state`. -/
structure Pushed (machine : Machine) (before : ParseState) (production : Production)
    (rest : List Task) (state : ParseState) : Prop where
  top : before.stack = .accept (.nonTerminal production.lhs) :: rest
  found : machine.table.get? production.lhs before.lookahead = some production
  some : production.rhs ≠ []
  kept : Relation.ReflTransGen
    (fun state next => machine.Moves state next ∧
      .gather production.lhs production.rhs.length :: rest <:+ next.stack)
    (Machine.predict before production.lhs production.rhs rest) state

variable {name : String} {count : Nat} {rest : List Task} {input : List Token}

theorem gather_suffix_of_accepts {below : List Task} {symbols : List Symbol}
    (kept : .gather name count :: rest <:+ symbols.map .accept ++ below) :
    .gather name count :: rest <:+ below := by
  induction symbols with
  | nil => exact kept
  | cons symbol symbols ih =>
      rcases List.suffix_cons_iff.mp kept with same | inRest
      · cases same
      · exact ih inRest

/-- A task to gather trees under a production in place of its non-terminal is the one that
the production left, or it stood below. -/
theorem gather_suffix_predict {other : String} {rhs : List Symbol} {below : List Task}
    (kept : .gather name count :: rest <:+ (predict state other rhs below).stack) :
    (rhs ≠ [] ∧ other = name ∧ rhs.length = count ∧ below = rest) ∨
      .gather name count :: rest <:+ below := by
  cases rhs with
  | nil => exact Or.inr kept
  | cons symbol symbols =>
      rcases List.suffix_cons_iff.mp (gather_suffix_of_accepts kept) with same | inRest
      · cases same
        exact Or.inl ⟨List.cons_ne_nil _ _, rfl, rfl, rfl⟩
      · exact Or.inr inRest

theorem Reaches.exists_pushed (filled : machine.table.Filled)
    (reaches : machine.Reaches (initial machine.table input) state)
    (kept : .gather name count :: rest <:+ state.stack) :
    ∃ before production, machine.Reaches (initial machine.table input) before ∧
      production.lhs = name ∧ production.rhs.length = count ∧
        Pushed machine before production rest state := by
  induction reaches with
  | refl =>
      rcases List.suffix_cons_iff.mp kept with same | inRest
      · cases same
      · cases List.suffix_cons_iff.mp inRest with
        | inl same => cases same
        | inr none => cases List.suffix_nil.mp none
  | @tail middle next earlier moves ih =>
      have older : .gather name count :: rest <:+ middle.stack →
          ∃ before production, machine.Reaches (initial machine.table input) before ∧
            production.lhs = name ∧ production.rhs.length = count ∧
              Pushed machine before production rest next := by
        intro already
        obtain ⟨before, production, reached, rfl, rfl, pushed⟩ := ih already
        exact ⟨before, production, reached, rfl, rfl, pushed.top, pushed.found, pushed.some,
          pushed.kept.tail ⟨moves, kept⟩⟩
      have leads := leads_step machine middle
      rcases moves with stayed | shifted
      · rw [stayed] at leads
        cases leads with
        | @gathered below other size top =>
            rw [top] at older
            exact older (kept.trans (List.suffix_cons _ _))
        | @expanded below other production top found =>
            obtain ⟨rfl, member⟩ := filled.get?_member found
            rw [top] at older
            rcases gather_suffix_predict kept with ⟨some, rfl, rfl, rfl⟩ | inBelow
            · exact ⟨middle, production, earlier, rfl, rfl, top, found, some, .refl⟩
            · exact older (inBelow.trans (List.suffix_cons _ _))
      · rw [shifted] at leads
        cases leads with
        | @matched below token tokens top found =>
            rw [top] at older
            exact older (kept.trans (List.suffix_cons _ _))

theorem not_suffix_of_gather (top : state.stack = .gather name count :: rest)
    (moves : machine.Moves state next) : ¬.gather name count :: rest <:+ next.stack := by
  intro kept
  have leads := leads_step machine state
  rcases moves with stayed | shifted
  · rw [stayed] at leads
    cases leads with
    | expanded other found => cases top.symm.trans other
    | gathered same =>
        cases top.symm.trans same
        exact Nat.not_succ_le_self _ kept.length_le
  · rw [shifted] at leads
    cases leads with
    | matched other input => cases top.symm.trans other

theorem gather_ne_accept (symbol : Symbol) (below : List Task) :
    .gather name count :: rest ≠ Task.accept symbol :: below := nofun

theorem Pushed.above {production : Production} (filled : machine.table.Filled)
    (pushed : Pushed machine before production rest state) :
    Above machine.table.grammar (.gather production.lhs production.rhs.length :: rest)
      before.output production.rhs state.stack state.output := by
  have started : Above machine.table.grammar
      (.gather production.lhs production.rhs.length :: rest) before.output production.rhs
      (predict before production.lhs production.rhs rest).stack
      (predict before production.lhs production.rhs rest).output := by
    have some := pushed.some
    cases symbols : production.rhs with
    | nil => exact (some symbols).elim
    | cons symbol others => exact .start
  have kept := pushed.kept
  clear pushed
  induction kept with
  | refl => exact started
  | tail _ step ih =>
      exact ih.moves filled gather_ne_accept step.1
        fun _ _ _ _ same => not_suffix_of_gather same step.1 step.2

theorem finish_ne_accept (symbol : Symbol) (rest : List Task) :
    [Task.finish] ≠ .accept symbol :: rest := nofun

theorem Reaches.above (filled : machine.table.Filled)
    (reaches : machine.Reaches (initial machine.table input) state) :
    Above machine.table.grammar [.finish] [] [.nonTerminal machine.table.grammar.startName]
      state.stack state.output := by
  induction reaches with
  | refl => exact .start
  | tail _ moves ih => exact ih.moves filled finish_ne_accept moves fun _ _ _ => nofun

/-! ### Every state of a parse -/

/-- A state in which nothing is missing, whatever task is on top of the stack. -/
structure Accounted (machine : Machine) (input : List Token) (state : ParseState) : Prop where
  /-- The stack is not used up before the bottom is reached. -/
  some : state.stack ≠ []
  /-- A non-terminal has a number, and a production for every cell that is filled. -/
  named : ∀ name, .accept (.nonTerminal name) ∈ state.stack →
    ∃ id, machine.table.grammar.idOf? name = Option.some id ∧
      ∀ lookahead number, machine.table.productionId? id lookahead = Option.some number →
        number < machine.table.grammar.productions.size ∧
          (machine.table.grammar.production number).lhs = name
  /-- The trees to gather are there, one for each symbol of the production that left the
  task, above the trees that were there before. -/
  gathers : ∀ name count rest, state.stack = .gather name count :: rest →
    ∃ before production, machine.Reaches (initial machine.table input) before ∧
      Pushed machine before production rest state ∧
        production.lhs = name ∧ production.rhs.length = count ∧
          count ≤ state.output.length ∧ state.output.drop count = before.output ∧
            Tree.DerivesAll machine.table.grammar production.rhs (state.output.take count).reverse
  /-- At the bottom there is one tree, of the start symbol. -/
  finishes : ∀ rest, state.stack = .finish :: rest →
    rest = [] ∧ ∃ tree, state.output = [tree] ∧
      Tree.Derives machine.table.grammar (.nonTerminal machine.table.grammar.startName) tree

def Declared (grammar : PlainGrammar) (stack : List Task) : Prop :=
  ∀ name, .accept (.nonTerminal name) ∈ stack → name ∈ grammar.names

theorem Declared.predict {rhs : List Symbol} (consistent : grammar.Consistent)
    (declared : Declared grammar rest) (member : ⟨name, rhs⟩ ∈ grammar.productions) :
    Declared grammar (Machine.predict state name rhs rest).stack := by
  cases rhs with
  | nil => exact declared
  | cons symbol symbols =>
      intro other onStack
      rcases List.mem_append.mp onStack with inRhs | inRest
      · obtain ⟨symbol, member', same⟩ := List.mem_map.mp inRhs
        cases same
        exact consistent.closed _ member other member'
      · rcases List.mem_cons.mp inRest with same | inBelow
        · cases same
        · exact declared other inBelow

theorem Declared.moves (filled : machine.table.Filled)
    (declared : Declared machine.table.grammar state.stack) (moves : machine.Moves state next) :
    Declared machine.table.grammar next.stack := by
  have below : ∀ {task : Task} {rest : List Task}, state.stack = task :: rest →
      Declared machine.table.grammar rest := by
    intro task rest top name member
    exact declared name (top ▸ List.mem_cons_of_mem _ member)
  have leads := leads_step machine state
  rcases moves with stayed | shifted
  · rw [stayed] at leads
    cases leads with
    | @expanded rest name production top found =>
        obtain ⟨rfl, member⟩ := filled.get?_member found
        exact (below top).predict filled.consistent member
    | gathered top => exact below top
  · rw [shifted] at leads
    cases leads with
    | matched top input => exact below top

theorem Reaches.declared (filled : machine.table.Filled)
    (reaches : machine.Reaches (initial machine.table input) state) :
    Declared machine.table.grammar state.stack := by
  induction reaches with
  | refl =>
      intro name onStack
      rcases List.mem_cons.mp onStack with same | inRest
      · cases same
        exact filled.started
      · cases List.mem_singleton.mp inRest
  | tail _ moves ih => exact ih.moves filled moves

theorem Reaches.named (filled : machine.table.Filled)
    (reaches : machine.Reaches (initial machine.table input) state)
    (onStack : .accept (.nonTerminal name) ∈ state.stack) :
    ∃ id, machine.table.grammar.idOf? name = some id ∧
      ∀ lookahead number, machine.table.productionId? id lookahead = some number →
        number < machine.table.grammar.productions.size ∧
          (machine.table.grammar.production number).lhs = name := by
  obtain ⟨id, known⟩ := filled.consistent.exists_idOf? (reaches.declared filled name onStack)
  refine ⟨id, known, ?_⟩
  intro lookahead number cell
  obtain ⟨rhs, listed⟩ := filled.listed known cell
  rw [PlainGrammar.production_of_getElem? listed]
  exact ⟨(Array.getElem?_eq_some_iff.mp listed).1, rfl⟩

theorem Reaches.gathers (filled : machine.table.Filled)
    (reaches : machine.Reaches (initial machine.table input) state)
    (top : state.stack = .gather name count :: rest) :
    ∃ before production, machine.Reaches (initial machine.table input) before ∧
      Pushed machine before production rest state ∧
        production.lhs = name ∧ production.rhs.length = count ∧
          count ≤ state.output.length ∧ state.output.drop count = before.output ∧
            Tree.DerivesAll machine.table.grammar production.rhs
              (state.output.take count).reverse := by
  have onTop : .gather name count :: rest <:+ state.stack := by
    rw [top]
  obtain ⟨before, production, reached, rfl, rfl, pushed⟩ := reaches.exists_pushed filled onTop
  obtain ⟨trees, output, derived⟩ := (pushed.above filled).settled gather_ne_accept top
  have size : trees.reverse.length = production.rhs.length := by
    rw [List.length_reverse, derived.length_eq]
  refine ⟨before, production, reached, pushed, rfl, rfl, ?_, ?_, ?_⟩
  · rw [output, List.length_append, size]
    exact Nat.le_add_right _ _
  · rw [output, List.drop_left' size]
  · rw [output, List.take_left' size, List.reverse_reverse]
    exact derived

theorem Above.eq_of_finish {below output : List Tree} {symbols : List Symbol}
    (above : Above grammar [.finish] below symbols (.finish :: rest) output) : rest = [] := by
  generalize top : Task.finish :: rest = stack at above
  cases above with
  | @level placed left trees split derived =>
      cases left with
      | nil =>
          cases top
          rfl
      | cons next left => cases top
  | @within name placed left trees output outside outer member some derived =>
      cases left <;> cases top

theorem Reaches.finishes (filled : machine.table.Filled)
    (reaches : machine.Reaches (initial machine.table input) state)
    (top : state.stack = .finish :: rest) :
    rest = [] ∧ ∃ tree, state.output = [tree] ∧
      Tree.Derives machine.table.grammar (.nonTerminal machine.table.grammar.startName) tree := by
  have above := reaches.above filled
  rw [top] at above
  obtain rfl := above.eq_of_finish
  obtain ⟨trees, output, derived⟩ := above.settled finish_ne_accept rfl
  cases derived with
  | @cons _ _ tree _ first others =>
      cases others
      exact ⟨rfl, tree, output, first⟩

/-- In every state that a parse reaches nothing is missing: not the number of a
non-terminal, not a tree to gather, not the result. This holds for the tables of a
grammar in plain form by whatever FIRST and FOLLOW sets. -/
theorem Reaches.accounted {source : Grammar} {first : FirstSets} {follow : FollowSets}
    {table : ParseTable} (built : ParseTable.ofSets source.lower first follow = .ok table)
    (config : ParserConfig) (tokens : List Token) {state : ParseState}
    (reaches : (ofTokens table tokens).Reaches (initial table (config.kept tokens)) state) :
    table.grammar = source.lower ∧
      Accounted (ofTokens table tokens) (config.kept tokens) state := by
  obtain ⟨same, filledTable⟩ := ParseTable.ofSets_filled built
  have filled : (ofTokens table tokens).table.Filled := filledTable
  refine ⟨same, ?_, ?_, ?_, ?_⟩
  · intro none
    have bottom := (reaches.above filled).suffix finish_ne_accept
    rw [none] at bottom
    cases List.suffix_nil.mp bottom
  · exact fun name => reaches.named filled
  · exact fun name count rest => reaches.gathers filled
  · exact fun rest => reaches.finishes filled

/-- FIRST sets of a grammar whose pairs begin with another token. -/
def foreignFirst : FirstSets := ⟨#[⟨"S", ["x"], false⟩]⟩

/-- FOLLOW sets under other names, that leave out the end of the input. -/
def foreignFollow : FollowSets := ⟨["A", "B"], #[[], [.token ")"]]⟩

def pairTokens : List Token := [⟨"(", "(", ⟨0, 1⟩, 1, 1⟩, ⟨")", ")", ⟨1, 2⟩, 1, 2⟩]

theorem accounted_nested :
    ∃ table, ParseTable.ofSets ParseTable.nested.lower foreignFirst foreignFollow = .ok table ∧
      ∃ state, (ofTokens table pairTokens).Reaches
          (initial table (ParserConfig.empty.kept pairTokens)) state ∧
        state.stack = [.gather "S" 3, .finish] ∧ table.grammar = ParseTable.nested.lower ∧
          Accounted (ofTokens table pairTokens) (ParserConfig.empty.kept pairTokens) state := by
  have free : ParseTable.conflicts ParseTable.nested.lower foreignFirst foreignFollow = [] := by
    decide +kernel
  have built := ParseTable.ofSets_eq_ok_iff.mpr ⟨free, rfl⟩
  generalize filled : ParseTable.fill ParseTable.nested.lower foreignFirst foreignFollow = table
    at built
  have start : table.grammar.startName = "S" := by
    rw [← filled]
    exact ParseTable.nested.startName_lower
  have pair : table.get? "S" (.token "(") =
      some ⟨"S", [.terminal "(", .nonTerminal "S#1", .terminal ")"]⟩ := by
    rw [← filled]
    decide +kernel
  have none : table.get? "S#1" (.token ")") = some ⟨"S#1", []⟩ := by
    rw [← filled]
    decide +kernel
  have reaches : (ofTokens table pairTokens).Reaches
      (initial table (ParserConfig.empty.kept pairTokens))
      ⟨[.gather "S" 3, .finish], [.leaf ⟨")", ")", ⟨1, 2⟩, 1, 2⟩, .empty "S#1",
        .leaf ⟨"(", "(", ⟨0, 1⟩, 1, 1⟩], []⟩ := by
    rw [initial, start]
    refine .head (.inl (step_of_get? rfl pair)) ?_
    refine .head (.inr rfl) ?_
    refine .head (.inl (step_of_get? rfl none)) ?_
    exact .head (.inr rfl) .refl
  exact ⟨table, built, _, reaches, rfl, Reaches.accounted built .empty pairTokens reaches⟩

end Machine

end Predictive
