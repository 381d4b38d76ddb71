/-
What an error says would have been accepted. The list is the row of the symbol on which
the parser stops, while what goes on to a sentence is what begins the symbols that were
pending when the last token had been matched. The two agree unless symbols were given
up in front of the wrong lookahead, or the row holds what follows the symbol elsewhere.
-/

import Predictive.Proofs.Parsing.Failure

namespace Predictive

namespace Grammar

/-- With the lookahead behind it the word still goes on to a sentence; at the end of
input it is one. -/
def Accepts (source : Grammar) (word : List String) : Lookahead → Prop
  | .token kind => source.Viable (word ++ [kind])
  | .endOfInput => source.Sentence word

end Grammar

namespace PlainGrammar

/-- The lookahead can come first where exactly these symbols are pending. -/
def Admits (grammar : PlainGrammar) (lookahead : Lookahead) (symbols : List Symbol) : Prop :=
  grammar.Opens lookahead symbols ∨ lookahead = .endOfInput ∧ grammar.Vanishes symbols

/-- The lookahead can come first where the symbol stands, whatever stands behind it. -/
def Offers (grammar : PlainGrammar) (lookahead : Lookahead) (symbol : Symbol) : Prop :=
  grammar.Opens lookahead [symbol] ∨
    grammar.Vanishes [symbol] ∧ grammar.Follows lookahead symbol.name

/-- Every non-terminal stands in a form that the start symbol derives. -/
def Reachable (grammar : PlainGrammar) : Prop :=
  ∀ name ∈ grammar.names, ∃ before after,
    grammar.Derives [.nonTerminal grammar.startName] (before ++ .nonTerminal name :: after)

variable {grammar : PlainGrammar} {lookahead : Lookahead}

theorem opens_append_iff {left right : List Symbol} :
    grammar.Opens lookahead (left ++ right) ↔
      grammar.Opens lookahead left ∨ grammar.Vanishes left ∧ grammar.Opens lookahead right := by
  simp only [Opens, begins_append_iff]
  constructor
  · intro opens
    obtain ⟨kind, same, inLeft | ⟨empty, inRight⟩⟩ := opens
    · exact Or.inl ⟨kind, same, inLeft⟩
    · exact Or.inr ⟨empty, kind, same, inRight⟩
  · intro opens
    rcases opens with ⟨kind, same, inLeft⟩ | ⟨empty, kind, same, inRight⟩
    · exact ⟨kind, same, Or.inl inLeft⟩
    · exact ⟨kind, same, Or.inr ⟨empty, inRight⟩⟩

theorem admits_append_iff {left right : List Symbol} :
    grammar.Admits lookahead (left ++ right) ↔
      grammar.Opens lookahead left ∨ grammar.Vanishes left ∧ grammar.Admits lookahead right := by
  simp only [Admits, opens_append_iff, vanishes_append_iff]
  constructor
  · intro admits
    rcases admits with (inLeft | ⟨empty, inRight⟩) | ⟨ended, empty, gone⟩
    · exact Or.inl inLeft
    · exact Or.inr ⟨empty, Or.inl inRight⟩
    · exact Or.inr ⟨empty, Or.inr ⟨ended, gone⟩⟩
  · intro admits
    rcases admits with inLeft | ⟨empty, inRight | ⟨ended, gone⟩⟩
    · exact Or.inl (Or.inl inLeft)
    · exact Or.inl (Or.inr ⟨empty, inRight⟩)
    · exact Or.inr ⟨ended, empty, gone⟩

theorem offers_terminal_iff {kind : String} :
    grammar.Offers lookahead (.terminal kind) ↔ lookahead = .token kind := by
  constructor
  · intro offers
    rcases offers with ⟨other, same, begins⟩ | ⟨empty, -⟩
    · cases begins
      exact same
    · cases empty
  · intro same
    exact Or.inl ⟨kind, same, .here []⟩

theorem offers_nonTerminal_iff {name : String} :
    grammar.Offers lookahead (.nonTerminal name) ↔
      ∃ rhs, ⟨name, rhs⟩ ∈ grammar.productions ∧ grammar.Predicts lookahead ⟨name, rhs⟩ := by
  constructor
  · intro offers
    rcases offers with ⟨kind, same, begins⟩ | ⟨empty, follows⟩
    · obtain ⟨rhs, member, inRhs⟩ := begins.production
      exact ⟨rhs, member, Or.inl ⟨kind, same, inRhs⟩⟩
    · obtain ⟨rhs, member, gone⟩ := empty.production
      exact ⟨rhs, member, Or.inr ⟨gone, follows⟩⟩
  · intro called
    obtain ⟨rhs, member, ⟨kind, same, begins⟩ | ⟨empty, follows⟩⟩ := called
    · exact Or.inl ⟨kind, same, .inside [] member begins⟩
    · exact Or.inr ⟨.cons member empty .nil, follows⟩

/-- The lookahead that calls for a production is offered to the first of its symbols
that are not given up, unless it begins those that are. -/
theorem Predicts.offers {name : String} {front rest : List Symbol} {symbol : Symbol}
    (predicts : grammar.Predicts lookahead ⟨name, front ++ symbol :: rest⟩)
    (member : ⟨name, front ++ symbol :: rest⟩ ∈ grammar.productions)
    (unopened : ¬grammar.Opens lookahead front) : grammar.Offers lookahead symbol := by
  have split : front ++ symbol :: rest = front ++ ([symbol] ++ rest) := rfl
  rcases predicts with opens | ⟨empty, follows⟩
  · rw [split, opens_append_iff, opens_append_iff] at opens
    obtain ⟨-, inSymbol | ⟨empty, kind, rfl, begins⟩⟩ := opens.resolve_left unopened
    · exact Or.inl inSymbol
    · cases symbol with
      | terminal kind => cases empty
      | nonTerminal target => exact Or.inr ⟨empty, .beside member begins⟩
  · rw [split, vanishes_append_iff, vanishes_append_iff] at empty
    obtain ⟨-, symbolEmpty, restEmpty⟩ := empty
    cases symbol with
    | terminal kind => cases symbolEmpty
    | nonTerminal target => exact Or.inr ⟨symbolEmpty, .inherited member restEmpty follows⟩

theorem Admits.offers {before rest : List Symbol} {symbol : Symbol}
    (admits : grammar.Admits lookahead (symbol :: rest))
    (derives : grammar.Derives [.nonTerminal grammar.startName] (before ++ symbol :: rest)) :
    grammar.Offers lookahead symbol := by
  have split : symbol :: rest = [symbol] ++ rest := rfl
  rw [split, admits_append_iff] at admits
  rcases admits with opens | ⟨empty, behind⟩
  · exact Or.inl opens
  · cases symbol with
    | terminal kind => cases empty
    | nonTerminal name =>
        have traced := (Traced.single grammar.startName).derives derives
        refine Or.inr ⟨empty, ?_⟩
        rcases behind with ⟨kind, rfl, begins⟩ | ⟨rfl, gone⟩
        · exact traced.beside rfl begins
        · exact traced.inherited rfl gone .start

/-- What the symbol behind those passed is offered is what can come first, when nothing
else begins those passed and nothing follows the symbol elsewhere only. -/
theorem offers_iff_admits_iff {before passed rest : List Symbol} {symbol : Symbol}
    (derives : grammar.Derives [.nonTerminal grammar.startName]
      (before ++ (passed ++ symbol :: rest)))
    (empty : grammar.Vanishes passed) :
    (∀ lookahead, grammar.Offers lookahead symbol ↔
        grammar.Admits lookahead (passed ++ symbol :: rest)) ↔
      (∀ lookahead, grammar.Opens lookahead passed → grammar.Offers lookahead symbol) ∧
        (grammar.Vanishes [symbol] → ∀ lookahead, grammar.Follows lookahead symbol.name →
          grammar.Admits lookahead (passed ++ symbol :: rest)) := by
  rw [← List.append_assoc] at derives
  constructor
  · intro same
    refine ⟨fun lookahead opens => ?_, fun gone lookahead follows => ?_⟩
    · exact (same lookahead).mpr (admits_append_iff.mpr (Or.inl opens))
    · exact (same lookahead).mp (Or.inr ⟨gone, follows⟩)
  · intro both lookahead
    obtain ⟨passedListed, followersAdmitted⟩ := both
    constructor
    · intro offers
      rcases offers with ⟨kind, same, begins⟩ | ⟨gone, follows⟩
      · exact admits_append_iff.mpr (Or.inr ⟨empty, Or.inl ⟨kind, same, begins.append rest⟩⟩)
      · exact followersAdmitted gone lookahead follows
    · intro admits
      rcases admits_append_iff.mp admits with opens | ⟨-, later⟩
      · exact passedListed lookahead opens
      · exact later.offers derives

theorem Begins.exists_word (consistent : grammar.Consistent) (productive : grammar.Productive)
    {kind : String} {symbols : List Symbol} (begins : grammar.Begins kind symbols)
    (declared : ∀ name, .nonTerminal name ∈ symbols → name ∈ grammar.names) :
    ∃ word : List String, grammar.Derives symbols ((kind :: word).map .terminal) := by
  induction begins with
  | here rest =>
      obtain ⟨word, derives⟩ := productive.exists_word rest fun name member =>
        declared name (List.mem_cons_of_mem _ member)
      have within := derives.context [.terminal kind] []
      rw [List.append_nil, List.append_nil] at within
      exact ⟨word, within⟩
  | @inside name rhs rest member inner ih =>
      obtain ⟨front, frontDerives⟩ := ih fun target inRhs => consistent.closed _ member target inRhs
      obtain ⟨back, backDerives⟩ := productive.exists_word rest fun target inRest =>
        declared target (List.mem_cons_of_mem _ inRest)
      have first := derives_of_production member [] rest
      have second := frontDerives.context [] rest
      have third := backDerives.context ((kind :: front).map .terminal) []
      rw [List.append_nil, List.append_nil] at third
      refine ⟨front ++ back, ?_⟩
      rw [← List.cons_append, List.map_append]
      exact first.trans (second.trans third)
  | @behind name rest empty later ih =>
      obtain ⟨word, derives⟩ := ih fun target inRest =>
        declared target (List.mem_cons_of_mem _ inRest)
      exact ⟨word, (empty.derives.context [] rest).trans derives⟩

end PlainGrammar

namespace ParseTable

variable {table : ParseTable} {id : Nat} {name : String} {lookahead : Lookahead}

theorem Exact.productionId?_eq_none_iff (exact : table.Exact)
    (named : table.grammar.idOf? name = some id) :
    table.productionId? id lookahead = none ↔
      ¬table.grammar.Offers lookahead (.nonTerminal name) := by
  have found : table.get? name lookahead =
      (table.productionId? id lookahead).map table.grammar.production := by
    rw [get?, named, Option.bind_some]
  rw [PlainGrammar.offers_nonTerminal_iff]
  constructor
  · intro free called
    obtain ⟨rhs, member, predicts⟩ := called
    rw [exact.get?_iff.mpr ⟨rfl, member, predicts⟩, free] at found
    cases found
  · intro uncalled
    cases filled : table.productionId? id lookahead with
    | none => rfl
    | some number =>
        rw [filled, Option.map_some] at found
        obtain ⟨rfl, member, predicts⟩ := exact.get?_iff.mp found
        exact (uncalled ⟨_, member, predicts⟩).elim

theorem Exact.not_opens_cons (exact : table.Exact) {rhs others : List Symbol}
    (member : ⟨name, rhs⟩ ∈ table.grammar.productions)
    (predicts : table.grammar.Predicts lookahead ⟨name, rhs⟩)
    (empty : table.grammar.Vanishes rhs)
    (unopened : ¬table.grammar.Opens lookahead (rhs ++ others)) :
    ¬table.grammar.Opens lookahead (.nonTerminal name :: others) := by
  intro opens
  obtain ⟨kind, rfl, begins⟩ := opens
  cases begins with
  | @inside _ other _ otherMember inner =>
      have called : table.grammar.Predicts (.token kind) ⟨name, other⟩ := Or.inl ⟨kind, rfl, inner⟩
      have same : Production.mk name other = ⟨name, rhs⟩ :=
        exact.unique rfl otherMember member called predicts
      cases same
      exact unopened ⟨kind, rfl, inner.append others⟩
  | behind _ later => exact unopened ⟨kind, rfl, later.behind_vanishing empty⟩

theorem mem_expected_iff :
    lookahead ∈ table.expected id ↔ table.productionId? id lookahead ≠ none := by
  rw [expected, productionId?, ne_eq, List.lookup_eq_none_iff, List.mem_map]
  constructor
  · intro listed none
    obtain ⟨entry, member, rfl⟩ := listed
    simpa using none entry member
  · intro some
    simpa using some

end ParseTable

namespace Machine

variable {machine : Machine} {state next arrival last : ParseState} {input before left : List Token}

/-! ### The last token matched -/

def Stays (machine : Machine) (state next : ParseState) : Prop := machine.step state = .stay next

/-- The machine has just matched a token of the input, or has not begun. -/
inductive Arrives (machine : Machine) (input : List Token) : ParseState → Prop where
  | start : Arrives machine input (initial machine.table input)
  | shifted {state next : ParseState}
      (reaches : machine.Reaches (initial machine.table input) state)
      (shifted : machine.step state = .shift next) : Arrives machine input next

theorem Arrives.reaches (arrives : machine.Arrives input state) :
    machine.Reaches (initial machine.table input) state := by
  cases arrives with
  | start => exact .refl
  | shifted reaches shifted => exact reaches.tail (Or.inr shifted)

theorem Reaches.exists_arrival (reaches : machine.Reaches (initial machine.table input) state) :
    ∃ arrival, machine.Arrives input arrival ∧
      Relation.ReflTransGen machine.Stays arrival state := by
  induction reaches with
  | refl => exact ⟨_, .start, .refl⟩
  | tail reaches moves ih =>
      rcases moves with stayed | shifted
      · obtain ⟨arrival, arrives, stays⟩ := ih
        exact ⟨arrival, arrives, stays.tail stayed⟩
      · exact ⟨_, .shifted reaches shifted, .refl⟩

theorem input_of_stays (stays : Relation.ReflTransGen machine.Stays arrival last) :
    last.input = arrival.input := by
  induction stays with
  | refl => rfl
  | tail _ stayed ih => exact (input_of_stay stayed).trans ih

theorem Arrives.redirect (arrives : machine.Arrives (before ++ left) arrival)
    (remaining : arrival.input = left) (other : List Token) :
    machine.Arrives (before ++ other) { arrival with input := other } := by
  generalize whole : before ++ left = input at arrives
  cases arrives with
  | start =>
      have none : before = [] := by
        have same : before ++ left = [] ++ left := whole.trans remaining
        exact List.append_cancel_right same
      subst none
      exact .start
  | @shifted state _ reaches shifted =>
      obtain ⟨token, matched⟩ := input_of_shift shifted
      rw [remaining] at matched
      obtain ⟨front, starts, run⟩ := reaches.redirect (List.cons_ne_nil token []) matched other
      have same : before = front := List.append_cancel_right (whole.trans starts)
      subst same
      exact .shifted run (step_redirect_shift shifted matched other)

/-! ### What is given up in front of the wrong lookahead -/

theorem exists_passed (exact : machine.table.Exact)
    (stays : Relation.ReflTransGen machine.Stays arrival last) {symbol : Symbol}
    {rest : List Symbol} (stuck : pending last.stack = symbol :: rest)
    (refused : ¬machine.table.grammar.Offers last.lookahead symbol) :
    ∃ passed, pending arrival.stack = passed ++ symbol :: rest ∧
      machine.table.grammar.Vanishes passed ∧
        ¬machine.table.grammar.Opens last.lookahead passed := by
  induction stays using Relation.ReflTransGen.head_induction_on with
  | refl =>
      refine ⟨[], stuck, .nil, fun opens => ?_⟩
      obtain ⟨kind, -, begins⟩ := opens
      cases begins
  | @head state next stayed later ih =>
      obtain ⟨passed, same, empty, unopened⟩ := ih
      have sameLookahead : last.lookahead = state.lookahead :=
        lookahead_congr ((input_of_stays later).trans (input_of_stay stayed))
      have leads := leads_step machine state
      rw [show machine.step state = .stay next from stayed] at leads
      cases leads with
      | @gathered below name count top =>
          rw [top]
          exact ⟨passed, same, empty, unopened⟩
      | @expanded below name production top found =>
          obtain ⟨rfl, member, predicts⟩ := exact.get?_iff.mp found
          rw [← sameLookahead] at predicts
          rw [pending_predict] at same
          rcases PlainGrammar.append_eq_append_cons same with
            ⟨others, split, -⟩ | ⟨others, rfl, split⟩
          · -- The machine is stuck inside the production, which was called for.
            obtain ⟨lhs, rhs⟩ := production
            cases split
            exact (refused (predicts.offers member unopened)).elim
          · refine ⟨.nonTerminal production.lhs :: others, ?_, ?_, ?_⟩
            · rw [top, pending, split]
              rfl
            · rw [PlainGrammar.vanishes_append_iff] at empty
              exact .cons member empty.1 empty.2
            · exact exact.not_opens_cons member predicts empty.left unopened

/-! ### What goes on to a sentence -/

theorem Underway.exists_read (exact : machine.table.Exact)
    (underway : Underway machine.table.grammar input state)
    (reaches : machine.Reaches state next) :
    ∃ front : List Token, state.input = front ++ next.input ∧
      machine.table.grammar.Derives (pending state.stack)
        (front.map (fun token => .terminal token.kind) ++ pending next.stack) := by
  induction reaches with
  | refl => exact ⟨[], rfl, .refl _⟩
  | @tail middle next earlier moves ih =>
      obtain ⟨front, remaining, derives⟩ := ih
      rcases moves with stayed | shifted
      · have declared := (underway.reaches exact earlier).declared
        obtain ⟨replaced, -⟩ := pending_of_stay exact stayed declared
        have within := replaced.context (front.map fun token => .terminal token.kind) []
        rw [List.append_nil, List.append_nil] at within
        exact ⟨front, by rw [input_of_stay stayed, remaining], derives.trans within⟩
      · have leads := leads_step machine middle
        rw [shifted] at leads
        cases leads with
        | @matched rest token tokens top found =>
            rw [top, pending] at derives
            refine ⟨front ++ [token], ?_, ?_⟩
            · rw [remaining, found, List.append_assoc]
              rfl
            · rw [List.map_append, List.append_assoc]
              exact derives

theorem Halts.of_reaches (reaches : machine.Reaches state next) {count : Nat}
    {result : Except ParseError Tree} (halts : machine.Halts count state result) :
    ∃ count, machine.Halts count next result := by
  induction reaches with
  | refl => exact ⟨count, halts⟩
  | tail _ moves ih =>
      obtain ⟨count, later⟩ := ih
      rcases moves with stayed | shifted
      · cases later with
        | halt halted => cases stayed.symm.trans halted
        | stay again later =>
            cases stayed.symm.trans again
            exact ⟨_, later⟩
        | shift shifted => cases stayed.symm.trans shifted
      · cases later with
        | halt halted => cases shifted.symm.trans halted
        | stay stayed => cases shifted.symm.trans stayed
        | shift again later =>
            cases shifted.symm.trans again
            exact ⟨_, later⟩

theorem Open.pending_finish {grammar : PlainGrammar} {rest : List Task} {output : List Tree}
    (opened : Open grammar (.finish :: rest) output) : pending (.finish :: rest) = [] := by
  generalize top : Task.finish :: rest = stack at opened
  cases opened with
  | initial => cases top
  | final derived => rfl
  | @within name placed left trees output below outer member some derived =>
      cases left <;> cases top

theorem Underway.derives_rest (exact : machine.table.Exact)
    (underway : Underway machine.table.grammar input state) {count : Nat} {tree : Tree}
    (halts : machine.Halts count state (.ok tree)) :
    machine.table.grammar.Derives (pending state.stack)
      (state.input.map fun token => .terminal token.kind) := by
  obtain ⟨last, reaches, halted⟩ := halts.exists_last
  obtain ⟨front, remaining, derives⟩ := underway.exists_read exact reaches
  have opened := (underway.reaches exact reaches).opened
  have leads := leads_step machine last
  rw [halted] at leads
  cases leads with
  | exhausted bottom => exact (Open.ne_nil (bottom ▸ opened)).elim
  | accepted top ended =>
      rw [top] at opened derives
      rw [opened.pending_finish, List.append_nil] at derives
      rw [remaining, ended, List.append_nil]
      exact derives

section Accepts

variable {source : Grammar} (exact : machine.table.Exact)
  (lowered : machine.table.grammar = source.lower)

include exact lowered

theorem Arrives.underway (arrives : machine.Arrives input arrival) :
    Underway machine.table.grammar input arrival := by
  have started : machine.table.grammar.startName ∈ machine.table.grammar.names := by
    rw [lowered, source.startName_lower]
    exact PlainGrammar.mem_names_iff.mpr ⟨_, source.nameOf?_lower_start⟩
  exact (initial_underway machine.table started input).reaches exact arrives.reaches

theorem Arrives.derives_of_sentence (arrives : machine.Arrives (before ++ left) arrival)
    (remaining : arrival.input = left) (word : List String)
    (sentence : source.Sentence (before.map Token.kind ++ word)) :
    source.lower.Derives (pending arrival.stack) (word.map .terminal) := by
  let others := word.map fun kind => { (default : Token) with kind }
  have kinds : others.map Token.kind = word := by
    rw [List.map_map]
    exact List.map_id word
  rw [← kinds, ← List.map_append] at sentence
  obtain ⟨tree, derived, tokens⟩ := (source.sentence_iff_derives _).mp sentence
  rw [← source.startName_lower, ← lowered] at derived
  obtain ⟨count, halts⟩ := halts_of_derives exact derived
  rw [tokens] at halts
  have redirected := arrives.redirect remaining others
  obtain ⟨count, later⟩ := halts.of_reaches redirected.reaches
  have derives := (redirected.underway exact lowered).derives_rest exact later
  rw [← lowered, ← kinds, List.map_map]
  exact derives

theorem Arrives.sentence_of_derives (arrives : machine.Arrives (before ++ left) arrival)
    (remaining : arrival.input = left) {word : List String}
    (derives : source.lower.Derives (pending arrival.stack) (word.map .terminal)) :
    source.Sentence (before.map Token.kind ++ word) := by
  have underway := arrives.underway exact lowered
  have whole := underway.whole
  rw [tokensOf, remaining] at whole
  have same : read arrival = before := List.append_cancel_right whole
  have first := underway.derives
  have second := derives.context (before.map fun token => .terminal token.kind) []
  rw [List.append_nil, List.append_nil] at second
  rw [same, lowered, source.startName_lower] at first
  apply (source.sentence_iff_generates _).mpr
  rw [PlainGrammar.Generates, List.map_append, List.map_map]
  exact first.trans second

theorem Arrives.accepts_iff (productive : source.lower.Productive)
    (arrives : machine.Arrives (before ++ left) arrival) (remaining : arrival.input = left)
    (lookahead : Lookahead) :
    source.Accepts (before.map Token.kind) lookahead ↔
      source.lower.Admits lookahead (pending arrival.stack) := by
  have sentence_iff : ∀ word : List String, source.Sentence (before.map Token.kind ++ word) ↔
      source.lower.Derives (pending arrival.stack) (word.map .terminal) := fun word =>
    ⟨arrives.derives_of_sentence exact lowered remaining word,
      arrives.sentence_of_derives exact lowered remaining⟩
  have declared := (arrives.underway exact lowered).declared
  rw [lowered] at declared
  cases lookahead with
  | token kind =>
      constructor
      · intro accepts
        obtain ⟨rest, sentence⟩ := accepts
        rw [List.append_assoc] at sentence
        have derives := (sentence_iff (kind :: rest)).mp sentence
        exact Or.inl ⟨kind, rfl, PlainGrammar.begins_iff_derives.mpr ⟨_, derives⟩⟩
      · intro admits
        rcases admits with ⟨other, same, begins⟩ | ⟨ended, -⟩
        · cases same
          obtain ⟨rest, derives⟩ := begins.exists_word source.lower_consistent productive declared
          refine ⟨rest, ?_⟩
          rw [List.append_assoc]
          exact (sentence_iff (kind :: rest)).mpr derives
        · cases ended
  | endOfInput =>
      have ends := sentence_iff []
      rw [List.append_nil] at ends
      constructor
      · intro accepts
        exact Or.inr ⟨rfl, PlainGrammar.vanishes_iff_derives.mpr (ends.mp accepts)⟩
      · intro admits
        rcases admits with ⟨kind, same, -⟩ | ⟨-, empty⟩
        · cases same
        · exact ends.mpr (PlainGrammar.vanishes_iff_derives.mp empty)

end Accepts

/-! ### The symbol on which the machine stops -/

theorem expected_unexpected (machine : Machine) (state : ParseState)
    (expected : List Lookahead) : (machine.unexpected state expected).expected = expected := by
  unfold unexpected
  split <;> rfl

/-- The symbol on which the machine stops is not offered what comes next, and the error
lists what it is offered. -/
theorem Underway.exists_refused (exact : machine.table.Exact)
    (underway : Underway machine.table.grammar input state) {error : ParseError}
    (halted : machine.step state = .halt (.error error))
    (within : ∀ found, error ≠ .trailingInput found) :
    ∃ symbol rest, pending state.stack = symbol :: rest ∧
      ¬machine.table.grammar.Offers state.lookahead symbol ∧
        ∀ lookahead, lookahead ∈ error.expected ↔
          machine.table.grammar.Offers lookahead symbol := by
  have declared := underway.declared
  have leads := leads_step machine state
  rw [halted] at leads
  cases leads with
  | trailing top found => exact (within _ rfl).elim
  | @mismatched rest kind top different =>
      refine ⟨.terminal kind, pending rest, by rw [top, pending], ?_, fun lookahead => ?_⟩
      · rwa [PlainGrammar.offers_terminal_iff]
      · rw [expected_unexpected, List.mem_singleton, PlainGrammar.offers_terminal_iff]
  | @unknown rest name top undeclared =>
      rw [top] at declared
      obtain ⟨id, known⟩ := exact.consistent.exists_idOf? (declared name List.mem_cons_self)
      cases undeclared.symm.trans known
  | @blocked rest name id top named free =>
      refine ⟨.nonTerminal name, pending rest, by rw [top, pending], ?_, fun lookahead => ?_⟩
      · exact (exact.productionId?_eq_none_iff named).mp free
      · rw [expected_unexpected, ParseTable.mem_expected_iff, ne_eq,
          exact.productionId?_eq_none_iff named, not_not]

/-- How a run stops with an error: the machine arrives in front of the tokens that are
left, gives up the symbols passed and stops on the symbol behind them. -/
def StopsOn (machine : Machine) (input left : List Token) (passed : List Symbol)
    (symbol : Symbol) (rest : List Symbol) (error : ParseError) : Prop :=
  ∃ arrival last, machine.Arrives input arrival ∧ arrival.input = left ∧
    pending arrival.stack = passed ++ symbol :: rest ∧
      Relation.ReflTransGen machine.Stays arrival last ∧
        pending last.stack = symbol :: rest ∧ machine.step last = .halt (.error error)

end Machine

namespace ParseTable

variable {source : Grammar} {table : ParseTable}

/-- The lookaheads that an error lists are what the symbol is offered on which the parser
stops, and those that go on to a sentence are what can come first from the symbols that
were pending behind the tokens before the error. The lists agree exactly when what begins
the symbols passed is listed, and what follows a symbol that vanishes would be accepted. -/
theorem parse?_expected_exact_iff (built : build source = .ok table) (config : ParserConfig)
    (tokens : List Token) (error : ParseError)
    (failed : table.parse? config tokens = some (.error error))
    (within : ∀ found, error ≠ .trailingInput found) (productive : source.lower.Productive) :
    ∃ before left passed symbol rest, config.kept tokens = before ++ left ∧
      (Machine.ofTokens table tokens).StopsOn (config.kept tokens) left passed symbol rest error ∧
      (∀ lookahead, lookahead ∈ error.expected ↔ source.lower.Offers lookahead symbol) ∧
      (∀ lookahead, source.Accepts (before.map Token.kind) lookahead ↔
        source.lower.Admits lookahead (passed ++ symbol :: rest)) ∧
      ((∀ lookahead, lookahead ∈ error.expected ↔
          source.Accepts (before.map Token.kind) lookahead) ↔
        (∀ lookahead, source.lower.Opens lookahead passed → lookahead ∈ error.expected) ∧
          (source.lower.Vanishes [symbol] → ∀ lookahead,
            source.lower.Follows lookahead symbol.name →
              source.Accepts (before.map Token.kind) lookahead)) := by
  obtain ⟨lowered, exact⟩ := build_exact built
  have machineExact : (Machine.ofTokens table tokens).table.Exact := exact
  have machineLowered : (Machine.ofTokens table tokens).table.grammar = source.lower := lowered
  obtain ⟨count, halts⟩ := Machine.halts_of_run failed
  obtain ⟨last, reaches, halted⟩ := halts.exists_last
  obtain ⟨arrival, arrives, stays⟩ := Machine.Reaches.exists_arrival reaches
  have underway := arrives.underway machineExact machineLowered
  have onward : (Machine.ofTokens table tokens).Reaches arrival last :=
    Relation.ReflTransGen.mono (fun _ _ stayed => Or.inl stayed) _ _ stays
  have stopped := underway.reaches machineExact onward
  obtain ⟨symbol, rest, stuck, blocked, listed⟩ :=
    stopped.exists_refused machineExact halted within
  obtain ⟨passed, pendingArrival, empty, -⟩ :=
    Machine.exists_passed machineExact stays stuck blocked
  have whole : config.kept tokens = Machine.read arrival ++ arrival.input := underway.whole.symm
  have accepts : ∀ lookahead, source.Accepts ((Machine.read arrival).map Token.kind) lookahead ↔
      source.lower.Admits lookahead (passed ++ symbol :: rest) := by
    rw [← pendingArrival]
    rw [whole] at arrives
    exact arrives.accepts_iff machineExact machineLowered productive rfl
  have derives := underway.derives
  rw [pendingArrival] at derives
  rw [machineLowered] at listed derives empty
  refine ⟨_, _, passed, symbol, rest, whole,
    ⟨arrival, last, arrives, rfl, pendingArrival, stays, stuck, halted⟩, listed, accepts, ?_⟩
  simp only [listed, accepts]
  exact PlainGrammar.offers_iff_admits_iff derives empty

/-! ### Brackets in front of which something may be left out -/

theorem brackets_names : brackets.lower.names = ["S", "A"] := by decide +kernel

theorem brackets_round :
    ⟨"S", [.terminal "(", .nonTerminal "A", .terminal ")"]⟩ ∈ brackets.lower.productions := by
  decide +kernel

theorem brackets_filled : ⟨"A", [.terminal "x"]⟩ ∈ brackets.lower.productions := by
  decide +kernel

theorem brackets_left_out : ⟨"A", []⟩ ∈ brackets.lower.productions := by decide +kernel

theorem brackets_productive : brackets.lower.Productive := by
  intro name member
  rw [brackets_names] at member
  have round := PlainGrammar.derives_of_production brackets_round [] []
  have gone := PlainGrammar.derives_of_production brackets_left_out
  rcases List.mem_cons.mp member with rfl | single
  · exact ⟨["(", ")"], round.trans (gone [.terminal "("] [.terminal ")"])⟩
  · cases List.mem_singleton.mp single
    exact ⟨[], gone [] []⟩

theorem brackets_reachable : brackets.lower.Reachable := by
  intro name member
  rw [brackets_names] at member
  rcases List.mem_cons.mp member with rfl | single
  · exact ⟨[], [], .refl _⟩
  · cases List.mem_singleton.mp single
    exact ⟨[.terminal "("], [.terminal ")"],
      PlainGrammar.derives_of_production brackets_round [] []⟩

theorem brackets_free : conflicts brackets.lower (.compute brackets.lower)
    (.compute brackets.lower (.compute brackets.lower)) = [] := by decide +kernel

theorem parse?_mismatched_expected :
    build brackets = .ok bracketTable ∧
      bracketTable.parse? ⟨["blank"]⟩ mismatched = some (.error mismatch) ∧
      (∀ found, mismatch ≠ .trailingInput found) ∧ brackets.lower.Productive ∧
      ∃ before left passed symbol rest,
        ParserConfig.kept ⟨["blank"]⟩ mismatched = before ++ left ∧
        (Machine.ofTokens bracketTable mismatched).StopsOn
          (ParserConfig.kept ⟨["blank"]⟩ mismatched) left passed symbol rest mismatch ∧
        (∀ lookahead, lookahead ∈ mismatch.expected ↔ brackets.lower.Offers lookahead symbol) ∧
        (∀ lookahead, brackets.Accepts (before.map Token.kind) lookahead ↔
          brackets.lower.Admits lookahead (passed ++ symbol :: rest)) ∧
        ((∀ lookahead, lookahead ∈ mismatch.expected ↔
            brackets.Accepts (before.map Token.kind) lookahead) ↔
          (∀ lookahead, brackets.lower.Opens lookahead passed →
              lookahead ∈ mismatch.expected) ∧
            (brackets.lower.Vanishes [symbol] → ∀ lookahead,
              brackets.lower.Follows lookahead symbol.name →
                brackets.Accepts (before.map Token.kind) lookahead)) := by
  have built : build brackets = .ok bracketTable := ofSets_eq_ok_iff.mpr ⟨brackets_free, rfl⟩
  have failed : bracketTable.parse? ⟨["blank"]⟩ mismatched = some (.error mismatch) := by
    decide +kernel
  have within : ∀ found, mismatch ≠ .trailingInput found := fun _ same => nomatch same
  exact ⟨built, failed, within, brackets_productive,
    parse?_expected_exact_iff built _ _ _ failed within brackets_productive⟩

/-- Behind an opening bracket an `x` and the closing bracket of the same shape would be
accepted. In front of the wrong bracket the place of the `x` has been given up and the
list lacks it; at the end of input the list has the closing bracket of either shape. -/
theorem parse?_brackets_expected :
    brackets.lower.Reachable ∧ brackets.lower.Productive ∧
      build brackets = .ok bracketTable ∧
      bracketTable.parse? .empty [⟨"(", "(", ⟨0, 1⟩, 1, 1⟩, ⟨"]", "]", ⟨1, 2⟩, 1, 2⟩] =
        some (.error (.unexpectedToken [.token ")"] ⟨"]", "]", ⟨1, 2⟩, 1, 2⟩)) ∧
      bracketTable.parse? .empty [⟨"(", "(", ⟨0, 1⟩, 1, 1⟩] =
        some (.error (.unexpectedEnd [.token ")", .token "]", .token "x"] ⟨1, 1, 2⟩)) ∧
      brackets.Accepts ["("] (.token "x") ∧ ¬brackets.Accepts ["("] (.token "]") := by
  have built : build brackets = .ok bracketTable := ofSets_eq_ok_iff.mpr ⟨brackets_free, rfl⟩
  have accepted : brackets.Accepts ["("] (.token "x") := by
    refine ⟨[")"], (brackets.sentence_iff_generates _).mpr ?_⟩
    exact (PlainGrammar.derives_of_production brackets_round [] []).trans
      (PlainGrammar.derives_of_production brackets_filled [.terminal "("] [.terminal ")"])
  have refused : ¬brackets.Accepts ["("] (.token "]") := by
    let opened : Token := ⟨"(", "(", ⟨0, 1⟩, 1, 1⟩
    let closed : Token := ⟨"]", "]", ⟨1, 2⟩, 1, 2⟩
    have opening : bracketTable.get? bracketTable.grammar.startName (.token "(") =
        some ⟨"S", [.terminal "(", .nonTerminal "A", .terminal ")"]⟩ := by decide +kernel
    have vanishing : bracketTable.get? "A" (.token "]") = some ⟨"A", []⟩ := by decide +kernel
    have stops : (Machine.ofTokens bracketTable [opened, closed]).StopsBefore
        ([opened] ++ closed :: []) [closed] (.unexpectedToken [.token ")"] closed) :=
      ⟨_, .head (Or.inl (Machine.step_of_get? rfl opening)) (.head (Or.inr rfl)
        (.head (Or.inl (Machine.step_of_get? rfl vanishing)) .refl)), rfl, rfl⟩
    obtain ⟨lowered, exact⟩ := build_exact built
    exact stops.not_viable lowered exact
  exact ⟨brackets_reachable, brackets_productive, built, by decide +kernel, by decide +kernel,
    accepted, refused⟩

end ParseTable

end Predictive
