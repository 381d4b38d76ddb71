/-
Parse errors are reported at the first possible place. What has been read and what
the stack still accepts is always a form that the start symbol derives, so where
every non-terminal is of use the tokens before an error begin a sentence. A run on
other tokens with the same front goes through the same states, so no sentence
begins with the tokens up to the error.
-/

import Predictive.Proofs.Grammar.SententialForm
import Predictive.Proofs.Parsing.Correctness
import Predictive.Proofs.Parsing.Sentence

namespace Predictive

namespace PlainGrammar

/-- Every non-terminal derives some string of terminals. -/
def Productive (grammar : PlainGrammar) : Prop :=
  ∀ name ∈ grammar.names, ∃ word, grammar.Generates name word

variable {grammar : PlainGrammar}

theorem Productive.exists_word (productive : grammar.Productive) (symbols : List Symbol)
    (declared : ∀ name, .nonTerminal name ∈ symbols → name ∈ grammar.names) :
    ∃ word : List String, grammar.Derives symbols (word.map .terminal) := by
  induction symbols with
  | nil => exact ⟨[], .refl []⟩
  | cons symbol rest ih =>
      obtain ⟨later, derives⟩ := ih fun name member =>
        declared name (List.mem_cons_of_mem _ member)
      cases symbol with
      | terminal kind =>
          have within := derives.context [.terminal kind] []
          rw [List.append_nil, List.append_nil] at within
          exact ⟨kind :: later, within⟩
      | nonTerminal name =>
          obtain ⟨front, frontDerives⟩ := productive name (declared name List.mem_cons_self)
          have first := frontDerives.context [] rest
          have second := derives.context (front.map .terminal) []
          rw [List.append_nil, List.append_nil] at second
          refine ⟨front ++ later, ?_⟩
          rw [List.map_append]
          exact first.trans second

end PlainGrammar

namespace Machine

variable {machine : Machine} {grammar : PlainGrammar} {state next : ParseState}

/-! ### What the stack still accepts -/

/-- The symbols that are still to be accepted, from the top of the stack. -/
def pending : List Task → List Symbol
  | [] => []
  | .accept symbol :: rest => symbol :: pending rest
  | .gather _ _ :: rest => pending rest
  | .finish :: rest => pending rest

theorem pending_accept_append (symbols : List Symbol) (rest : List Task) :
    pending (symbols.map .accept ++ rest) = symbols ++ pending rest := by
  induction symbols with
  | nil => rfl
  | cons symbol symbols ih => rw [List.map_cons, List.cons_append, pending, ih, List.cons_append]

theorem pending_predict (state : ParseState) (name : String) (rhs : List Symbol)
    (rest : List Task) : pending (predict state name rhs rest).stack = rhs ++ pending rest := by
  cases rhs with
  | nil => rfl
  | cons symbol symbols => exact pending_accept_append (symbol :: symbols) _

def read (state : ParseState) : List Token := Tree.tokensOfAll state.output.reverse

theorem read_eq_of_tokensOf {state next : ParseState} (tokens : tokensOf next = tokensOf state)
    (input : next.input = state.input) : read next = read state := by
  rw [tokensOf, tokensOf, input] at tokens
  exact List.append_cancel_right tokens

/-- A parse of an input under way: the stack and the trees belong together, and what
has been read with what is pending is a form that the start symbol derives. -/
structure Underway (grammar : PlainGrammar) (input : List Token) (state : ParseState) : Prop where
  opened : Open grammar state.stack state.output
  whole : tokensOf state = input
  derives : grammar.Derives [.nonTerminal grammar.startName]
    ((read state).map (fun token => .terminal token.kind) ++ pending state.stack)
  declared : ∀ name, .nonTerminal name ∈ pending state.stack → name ∈ grammar.names

theorem initial_underway (table : ParseTable)
    (started : table.grammar.startName ∈ table.grammar.names)
    (input : List Token) : Underway table.grammar input (initial table input) where
  opened := .initial
  whole := rfl
  derives := .refl _
  declared := by
    intro name member
    cases List.mem_singleton.mp member
    exact started

theorem pending_of_shift (shifted : machine.step state = .shift next) :
    ∃ token, read next = read state ++ [token] ∧
      pending state.stack = .terminal token.kind :: pending next.stack := by
  have leads := leads_step machine state
  rw [shifted] at leads
  cases leads with
  | @matched rest token tokens top input =>
      refine ⟨token, ?_, ?_⟩
      · simp only [read, List.reverse_cons, Tree.tokensOfAll_append, Tree.tokensOfAll_singleton,
          Tree.tokens]
      · rw [top, pending]

/-- A step that leaves the input alone replaces what is pending as a derivation does. -/
theorem pending_of_stay (exact : machine.table.Exact) (stayed : machine.step state = .stay next)
    (declared : ∀ name, .nonTerminal name ∈ pending state.stack →
      name ∈ machine.table.grammar.names) :
    machine.table.grammar.Derives (pending state.stack) (pending next.stack) ∧
      ∀ name, .nonTerminal name ∈ pending next.stack → name ∈ machine.table.grammar.names := by
  have leads := leads_step machine state
  rw [stayed] at leads
  cases leads with
  | @expanded rest name production top found =>
      obtain ⟨rfl, member, -⟩ := exact.get?_iff.mp found
      rw [top, pending] at declared ⊢
      rw [pending_predict]
      constructor
      · exact PlainGrammar.derives_of_production member [] (pending rest)
      · intro name inForm
        rcases List.mem_append.mp inForm with inRhs | inRest
        · exact exact.consistent.closed production member name inRhs
        · exact declared name (List.mem_cons_of_mem _ inRest)
  | @gathered rest name count top =>
      rw [top, pending] at declared ⊢
      exact ⟨.refl _, declared⟩

theorem Underway.moves (exact : machine.table.Exact) {input : List Token}
    (underway : Underway machine.table.grammar input state) (moves : machine.Moves state next) :
    Underway machine.table.grammar input next := by
  have kept := step_open exact underway.opened
  rcases moves with stayed | shifted
  · rw [stayed] at kept
    obtain ⟨opened, tokens⟩ := kept
    obtain ⟨derives, declared⟩ := pending_of_stay exact stayed underway.declared
    have within := derives.context ((read state).map fun token => .terminal token.kind) []
    rw [List.append_nil, List.append_nil] at within
    refine ⟨opened, tokens.trans underway.whole, ?_, declared⟩
    rw [read_eq_of_tokensOf tokens (input_of_stay stayed)]
    exact underway.derives.trans within
  · rw [shifted] at kept
    obtain ⟨opened, tokens⟩ := kept
    obtain ⟨token, grown, pendingSplit⟩ := pending_of_shift shifted
    have derives := underway.derives
    have declared := underway.declared
    rw [pendingSplit] at derives declared
    refine ⟨opened, tokens.trans underway.whole, ?_, ?_⟩
    · rw [grown, List.map_append, List.append_assoc]
      exact derives
    · intro name inForm
      exact declared name (List.mem_cons_of_mem _ inForm)

theorem Underway.reaches (exact : machine.table.Exact) {input : List Token}
    (underway : Underway machine.table.grammar input state)
    (reaches : machine.Reaches state next) : Underway machine.table.grammar input next := by
  induction reaches with
  | refl => exact underway
  | tail _ moves ih => exact ih.moves exact moves

theorem Underway.exists_generates {input : List Token} (underway : Underway grammar input state)
    (productive : grammar.Productive) :
    ∃ rest : List String,
      grammar.Generates grammar.startName ((read state).map Token.kind ++ rest) := by
  obtain ⟨rest, derives⟩ := productive.exists_word (pending state.stack) underway.declared
  have within := derives.context ((read state).map fun token => .terminal token.kind) []
  rw [List.append_nil, List.append_nil] at within
  refine ⟨rest, ?_⟩
  rw [PlainGrammar.Generates, List.map_append, List.map_map]
  exact underway.derives.trans within

/-! ### Runs on tokens with the same front -/

theorem step_redirect_stay (stayed : machine.step state = .stay next) (other : List Token)
    (same : ParseState.lookahead { state with input := other } = state.lookahead) :
    machine.step { state with input := other } = .stay { next with input := other } := by
  have leads := leads_step machine state
  rw [stayed] at leads
  cases leads with
  | @expanded rest name production top found =>
      rw [← same] at found
      have expanded : machine.step { state with input := other } =
          .stay (predict { state with input := other } name production.rhs rest) :=
        step_of_get? top found
      rw [expanded]
      cases production.rhs <;> rfl
  | @gathered rest name count top =>
      simp only [step, top, gather]

theorem step_redirect_shift {token : Token} {tokens : List Token}
    (shifted : machine.step state = .shift next) (input : state.input = token :: tokens)
    (other : List Token) :
    machine.step { state with input := token :: other } = .shift { next with input := other } := by
  have leads := leads_step machine state
  rw [shifted] at leads
  cases leads with
  | @matched rest token tokens top found =>
      cases input.symm.trans found
      simp only [step, top, shiftTerminal, if_true]

theorem step_redirect_error {token : Token} {tokens : List Token} {error : ParseError}
    (halted : machine.step state = .halt (.error error)) (input : state.input = token :: tokens)
    (other : List Token) :
    machine.step { state with input := token :: other } = .halt (.error error) := by
  have leads := leads_step machine state
  rw [halted] at leads
  obtain ⟨stack, output, remaining⟩ := state
  cases input
  cases leads with
  | trailing top found =>
      cases top
      cases found
      rfl
  | @mismatched rest kind top different =>
      cases top
      have unlike : token.kind ≠ kind := fun equal => different (congrArg Lookahead.token equal)
      simp only [step, shiftTerminal, if_neg unlike, unexpected]
  | unknown top undeclared =>
      cases top
      simp only [step, expand, undeclared, unexpected]
  | blocked top named free =>
      cases top
      simp only [ParseState.lookahead] at free
      simp only [step, expand, named, ParseState.lookahead, free, unexpected]

/-- On other tokens with the same front the machine goes through the same states. -/
theorem Reaches.redirect (reaches : machine.Reaches state next) {back left : List Token}
    (some : back ≠ []) (ends : next.input = back ++ left) (other : List Token) :
    ∃ front, state.input = front ++ left ∧
      machine.Reaches { state with input := front ++ other }
        { next with input := back ++ other } := by
  induction reaches generalizing back with
  | refl => exact ⟨back, ends, .refl⟩
  | @tail middle next earlier moves ih =>
      obtain ⟨token, tokens, rfl⟩ := List.exists_cons_of_ne_nil some
      rcases moves with stayed | shifted
      · have input := input_of_stay stayed
        obtain ⟨front, starts, run⟩ := ih some (input.symm.trans ends)
        have same : ParseState.lookahead { middle with input := token :: tokens ++ other } =
            middle.lookahead := by
          simp only [ParseState.lookahead, input.symm.trans ends, List.cons_append]
        exact ⟨front, starts, run.tail (Or.inl (step_redirect_stay stayed _ same))⟩
      · obtain ⟨matched, input⟩ := input_of_shift shifted
        have longer : middle.input = (matched :: token :: tokens) ++ left := by
          rw [input, ends]
          rfl
        obtain ⟨front, starts, run⟩ := ih (List.cons_ne_nil _ _) longer
        exact ⟨front, starts, run.tail (Or.inr (step_redirect_shift shifted input _))⟩

/-! ### Where a run stops -/

def StopsBefore (machine : Machine) (input left : List Token) (error : ParseError) : Prop :=
  ∃ state, machine.Reaches (initial machine.table input) state ∧ state.input = left ∧
    machine.step state = .halt (.error error)

theorem Halts.exists_last {count : Nat} {result : Except ParseError Tree}
    (halts : machine.Halts count state result) :
    ∃ last, machine.Reaches state last ∧ machine.step last = .halt result := by
  induction halts with
  | @halt state result halted => exact ⟨state, .refl, halted⟩
  | stay stayed later ih =>
      obtain ⟨last, reaches, halted⟩ := ih
      exact ⟨last, .head (Or.inl stayed) reaches, halted⟩
  | shift shifted later ih =>
      obtain ⟨last, reaches, halted⟩ := ih
      exact ⟨last, .head (Or.inr shifted) reaches, halted⟩

theorem StopsBefore.halts {input left : List Token} {error : ParseError}
    (stops : machine.StopsBefore input left error) :
    ∃ count, machine.Halts count (initial machine.table input) (.error error) := by
  obtain ⟨state, reaches, -, halted⟩ := stops
  exact reaches.halts (.halt halted)

theorem StopsBefore.redirect {before left : List Token} {token : Token} {error : ParseError}
    (stops : machine.StopsBefore (before ++ token :: left) (token :: left) error)
    (other : List Token) :
    machine.StopsBefore (before ++ token :: other) (token :: other) error := by
  obtain ⟨state, reaches, input, halted⟩ := stops
  obtain ⟨front, starts, run⟩ :=
    reaches.redirect (List.cons_ne_nil token []) input other
  have same : before ++ [token] = front := by
    have whole : (before ++ [token]) ++ left = front ++ left := by
      rw [← starts, List.append_assoc]
      rfl
    exact List.append_cancel_right whole
  refine ⟨{ state with input := token :: other }, ?_, rfl, step_redirect_error halted input other⟩
  rw [← same, List.append_assoc] at run
  exact run

theorem StopsBefore.not_derives (exact : machine.table.Exact) {input left : List Token}
    {error : ParseError} (stops : machine.StopsBefore input left error) (tree : Tree)
    (derived : Tree.Derives machine.table.grammar
      (.nonTerminal machine.table.grammar.startName) tree) : tree.tokens ≠ input := by
  intro same
  obtain ⟨count, halts⟩ := halts_of_derives exact derived
  obtain ⟨other, stopped⟩ := stops.halts
  rw [same] at halts
  cases halts.unique stopped

theorem unexpected_or_trailing {error : ParseError}
    (halted : machine.step state = .halt (.error error)) :
    (∃ expected, error = machine.unexpected state expected) ∨
      ∃ found rest below, error = .trailingInput found ∧ state.input = found :: rest ∧
        state.stack = .finish :: below := by
  have leads := leads_step machine state
  rw [halted] at leads
  cases leads with
  | trailing top input => exact Or.inr ⟨_, _, _, rfl, input, top⟩
  | mismatched top different => exact Or.inl ⟨_, rfl⟩
  | unknown top undeclared => exact Or.inl ⟨_, rfl⟩
  | blocked top named free => exact Or.inl ⟨_, rfl⟩

end Machine

namespace ParseError

/-- What an error says about the sentences of a grammar: the tokens before it go on to a
sentence, and with the token at which it is found they do not. -/
def Justified (source : Grammar) (before left : List Token) : ParseError → Prop
  | .unexpectedToken _ found =>
      left.head? = some found ∧ ¬source.Viable ((before ++ [found]).map Token.kind) ∧
        (source.lower.Productive → source.Viable (before.map Token.kind))
  | .trailingInput found =>
      left.head? = some found ∧ ¬source.Viable ((before ++ [found]).map Token.kind) ∧
        source.Sentence (before.map Token.kind)
  | .unexpectedEnd _ _ =>
      left = [] ∧ ¬source.Sentence (before.map Token.kind) ∧
        (source.lower.Productive →
          ∃ rest, rest ≠ [] ∧ source.Sentence (before.map Token.kind ++ rest))

end ParseError

namespace Machine

variable {machine : Machine} {source : Grammar} {before left : List Token} {token : Token}
  {error : ParseError}

section Justified

variable (lowered : machine.table.grammar = source.lower)

include lowered

theorem StopsBefore.not_sentence (exact : machine.table.Exact) {input : List Token}
    (stops : machine.StopsBefore input left error) : ¬source.Sentence (input.map Token.kind) := by
  intro sentence
  obtain ⟨tree, derived, same⟩ := (source.sentence_iff_derives input).mp sentence
  rw [← source.startName_lower, ← lowered] at derived
  exact stops.not_derives exact tree derived same

/-- No sentence begins with the tokens up to the one in front of which the machine stops. -/
theorem StopsBefore.not_viable (exact : machine.table.Exact)
    (stops : machine.StopsBefore (before ++ token :: left) (token :: left) error) :
    ¬source.Viable ((before ++ [token]).map Token.kind) := by
  intro viable
  obtain ⟨rest, sentence⟩ := viable
  let others := rest.map fun kind => { token with kind }
  have kinds : others.map Token.kind = rest := by
    rw [List.map_map]
    exact List.map_id rest
  apply (stops.redirect others).not_sentence lowered exact
  rw [← kinds, ← List.map_append, List.append_assoc] at sentence
  exact sentence

theorem Underway.viable {input : List Token}
    (underway : Underway machine.table.grammar input state) (productive : source.lower.Productive) :
    source.Viable ((read state).map Token.kind) := by
  rw [← lowered] at productive
  obtain ⟨rest, generates⟩ := underway.exists_generates productive
  rw [lowered, source.startName_lower] at generates
  exact ⟨rest, (source.sentence_iff_generates _).mpr generates⟩

theorem Underway.sentence {input : List Token} {below : List Task}
    (underway : Underway machine.table.grammar input state) (top : state.stack = .finish :: below) :
    source.Sentence ((read state).map Token.kind) := by
  obtain ⟨tree, output, derived⟩ := (top ▸ underway.opened).finished
  rw [lowered, source.startName_lower] at derived
  apply (source.sentence_iff_derives _).mpr
  refine ⟨tree, derived, ?_⟩
  rw [read, output]
  exact (Tree.tokensOfAll_singleton tree).symm

theorem Underway.justified (exact : machine.table.Exact)
    (underway : Underway machine.table.grammar (read state ++ state.input) state)
    (stops : machine.StopsBefore (read state ++ state.input) state.input error)
    (halted : machine.step state = .halt (.error error)) :
    error.Justified source (read state) state.input := by
  rcases unexpected_or_trailing halted with ⟨expected, rfl⟩ | ⟨found, rest, below, rfl, input, top⟩
  · unfold unexpected at stops ⊢
    split at stops
    case h_1 token rest input =>
      rw [input] at stops
      simp only [input]
      exact ⟨rfl, stops.not_viable lowered exact, underway.viable lowered⟩
    case h_2 ended =>
      rw [ended, List.append_nil] at stops
      simp only [ended]
      have incomplete := stops.not_sentence lowered exact
      refine ⟨rfl, incomplete, fun productive => ?_⟩
      obtain ⟨rest, sentence⟩ := underway.viable lowered productive
      refine ⟨rest, ?_, sentence⟩
      rintro rfl
      rw [List.append_nil] at sentence
      exact incomplete sentence
  · rw [input] at stops ⊢
    exact ⟨rfl, stops.not_viable lowered exact, underway.sentence lowered top⟩

end Justified

end Machine

namespace ParseTable

variable {source : Grammar} {table : ParseTable}

/-- An error is reported at the first possible place: the machine stops in front of the
tokens that are left, no sentence begins with those before it and the next one, and
where every non-terminal is of use those before it begin a sentence. -/
theorem parse?_error_justified (built : build source = .ok table) (config : ParserConfig)
    (tokens : List Token) (error : ParseError)
    (failed : table.parse? config tokens = some (.error error)) :
    ∃ before left, config.kept tokens = before ++ left ∧
      (Machine.ofTokens table tokens).StopsBefore (config.kept tokens) left error ∧
      error.Justified source before left := by
  obtain ⟨lowered, exact⟩ := build_exact built
  have machineExact : (Machine.ofTokens table tokens).table.Exact := exact
  have machineLowered : (Machine.ofTokens table tokens).table.grammar = source.lower := lowered
  obtain ⟨count, halts⟩ := Machine.halts_of_run failed
  obtain ⟨last, reaches, halted⟩ := halts.exists_last
  have started : table.grammar.startName ∈ table.grammar.names := by
    rw [lowered, source.startName_lower]
    exact PlainGrammar.mem_names_iff.mpr ⟨_, source.nameOf?_lower_start⟩
  have underway := (Machine.initial_underway table started (config.kept tokens)).reaches
    machineExact reaches
  have stops : (Machine.ofTokens table tokens).StopsBefore (config.kept tokens) last.input error :=
    ⟨last, reaches, rfl, halted⟩
  have whole : config.kept tokens = Machine.read last ++ last.input := underway.whole.symm
  refine ⟨Machine.read last, last.input, whole, stops, ?_⟩
  rw [whole] at underway stops
  exact underway.justified machineLowered machineExact stops halted

/-- Brackets of two shapes with something that may be left out between them, so that it
is left out in front of a bracket of the wrong shape too. -/
def brackets : Grammar where
  start := "S"
  rules :=
    [("S", .alternative
      [.sequence [.terminal "(", .nonTerminal "A", .terminal ")"],
        .sequence [.terminal "[", .nonTerminal "A", .terminal "]"]]),
      ("A", .alternative [.terminal "x", .sequence []])]
  distinct := by decide
  startDefined := by decide
  closed := by decide

def bracketTable : ParseTable :=
  fill brackets.lower (.compute brackets.lower)
    (.compute brackets.lower (.compute brackets.lower))

def mismatched : List Token :=
  [⟨"(", "(", ⟨0, 1⟩, 1, 1⟩, ⟨"blank", " ", ⟨1, 2⟩, 1, 2⟩, ⟨"]", "]", ⟨2, 3⟩, 1, 3⟩]

def mismatch : ParseError := .unexpectedToken [.token ")"] ⟨"]", "]", ⟨2, 3⟩, 1, 3⟩

theorem parse?_mismatched :
    build brackets = .ok bracketTable ∧
      bracketTable.parse? ⟨["blank"]⟩ mismatched = some (.error mismatch) ∧
      ∃ before left, ParserConfig.kept ⟨["blank"]⟩ mismatched = before ++ left ∧
        (Machine.ofTokens bracketTable mismatched).StopsBefore
          (ParserConfig.kept ⟨["blank"]⟩ mismatched) left mismatch ∧
        mismatch.Justified brackets before left := by
  have free : conflicts brackets.lower (.compute brackets.lower)
      (.compute brackets.lower (.compute brackets.lower)) = [] := by decide +kernel
  have built : build brackets = .ok bracketTable := ofSets_eq_ok_iff.mpr ⟨free, rfl⟩
  have failed : bracketTable.parse? ⟨["blank"]⟩ mismatched = some (.error mismatch) := by
    have opening : bracketTable.get? bracketTable.grammar.startName (.token "(") =
        some ⟨"S", [.terminal "(", .nonTerminal "A", .terminal ")"]⟩ := by decide +kernel
    have vanishing : bracketTable.get? "A" (.token "]") = some ⟨"A", []⟩ := by decide +kernel
    have exact : (Machine.ofTokens bracketTable mismatched).table.Exact := (build_exact built).2
    apply (Machine.run_eq_some_iff exact (Nat.lt_succ_self _)).mpr
    exact ⟨_, .stay (Machine.step_of_get? rfl opening) (.shift rfl
      (.stay (Machine.step_of_get? rfl vanishing) (.halt rfl)))⟩
  exact ⟨built, failed, parse?_error_justified built _ _ _ failed⟩

end ParseTable

end Predictive
