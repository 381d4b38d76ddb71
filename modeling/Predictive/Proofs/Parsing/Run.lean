/-
Runs of the predictive parser without a bound. A step that goes on does one of
three things; a run goes on until a step halts; and what a run with an allowance
answers is where the run without one ends.
-/

import Predictive.Parsing.Machine

namespace Predictive.Machine

variable {machine : Machine} {state next : ParseState}

/-! ### One step -/

inductive Leads (machine : Machine) (state : ParseState) : Progress → Prop where
  | exhausted (bottom : state.stack = []) : Leads machine state (.halt (.ok (machine.result state)))
  | accepted {rest : List Task} (top : state.stack = .finish :: rest) (ended : state.input = []) :
      Leads machine state (.halt (.ok (machine.result state)))
  | trailing {rest : List Task} {token : Token} {tokens : List Token}
      (top : state.stack = .finish :: rest) (input : state.input = token :: tokens) :
      Leads machine state (.halt (.error (.trailingInput token)))
  | matched {rest : List Task} {token : Token} {tokens : List Token}
      (top : state.stack = .accept (.terminal token.kind) :: rest)
      (input : state.input = token :: tokens) :
      Leads machine state (.shift ⟨rest, .leaf token :: state.output, tokens⟩)
  | mismatched {rest : List Task} {kind : String}
      (top : state.stack = .accept (.terminal kind) :: rest)
      (different : state.lookahead ≠ .token kind) :
      Leads machine state (.halt (.error (machine.unexpected state [.token kind])))
  | expanded {rest : List Task} {name : String} {production : Production}
      (top : state.stack = .accept (.nonTerminal name) :: rest)
      (found : machine.table.get? name state.lookahead = some production) :
      Leads machine state (.stay (predict state name production.rhs rest))
  | unknown {rest : List Task} {name : String}
      (top : state.stack = .accept (.nonTerminal name) :: rest)
      (undeclared : machine.table.grammar.idOf? name = none) :
      Leads machine state (.halt (.error (machine.unexpected state [])))
  | blocked {rest : List Task} {name : String} {id : Nat}
      (top : state.stack = .accept (.nonTerminal name) :: rest)
      (named : machine.table.grammar.idOf? name = some id)
      (free : machine.table.productionId? id state.lookahead = none) :
      Leads machine state (.halt (.error (machine.unexpected state (machine.table.expected id))))
  | gathered {rest : List Task} {name : String} {count : Nat}
      (top : state.stack = .gather name count :: rest) :
      Leads machine state (.stay (gather state name count rest))

theorem leads_shiftTerminal {kind : String} {rest : List Task}
    (top : state.stack = .accept (.terminal kind) :: rest) :
    machine.Leads state (machine.shiftTerminal state kind rest) := by
  unfold shiftTerminal
  split
  case h_1 token tokens input =>
    split
    case isTrue same => exact .matched (same ▸ top) input
    case isFalse different =>
      refine .mismatched top ?_
      rw [ParseState.lookahead, input]
      exact fun same => different (Lookahead.token.inj same)
  case h_2 input =>
    refine .mismatched top ?_
    rw [ParseState.lookahead, input]
    nofun

theorem leads_expand {name : String} {rest : List Task}
    (top : state.stack = .accept (.nonTerminal name) :: rest) :
    machine.Leads state (machine.expand state name rest) := by
  unfold expand
  split
  case h_1 undeclared => exact .unknown top undeclared
  case h_2 id named =>
    split
    case h_1 free => exact .blocked top named free
    case h_2 number filled =>
      have found : machine.table.get? name state.lookahead =
          some (machine.table.grammar.production number) := by
        rw [ParseTable.get?, named, Option.bind_some, filled, Option.map_some]
      exact .expanded top found

theorem leads_step (machine : Machine) (state : ParseState) :
    machine.Leads state (machine.step state) := by
  unfold step
  split
  case h_1 bottom => exact .exhausted bottom
  case h_2 rest top =>
    unfold conclude
    split
    case h_1 token tokens input => exact .trailing top input
    case h_2 ended => exact .accepted top ended
  case h_3 kind rest top => exact leads_shiftTerminal top
  case h_4 name rest top => exact leads_expand top
  case h_5 name count rest top => exact .gathered top

theorem step_of_get? {name : String} {rest : List Task} {production : Production}
    (top : state.stack = .accept (.nonTerminal name) :: rest)
    (found : machine.table.get? name state.lookahead = some production) :
    machine.step state = .stay (predict state name production.rhs rest) := by
  obtain ⟨id, named, inRow⟩ := Option.bind_eq_some_iff.mp found
  obtain ⟨number, filled, rfl⟩ := Option.map_eq_some_iff.mp inRow
  simp only [step, top, expand, named, filled]

@[simp] theorem input_predict (state : ParseState) (name : String) (rhs : List Symbol)
    (rest : List Task) : (predict state name rhs rest).input = state.input := by
  cases rhs <;> rfl

@[simp] theorem input_gather (state : ParseState) (name : String) (count : Nat)
    (rest : List Task) : (gather state name count rest).input = state.input := rfl

theorem input_of_stay (stayed : machine.step state = .stay next) : next.input = state.input := by
  have leads := leads_step machine state
  rw [stayed] at leads
  cases leads with
  | expanded top found => exact input_predict ..
  | gathered top => exact input_gather ..

theorem input_of_shift (shifted : machine.step state = .shift next) :
    ∃ token, state.input = token :: next.input := by
  have leads := leads_step machine state
  rw [shifted] at leads
  cases leads with
  | matched top input => exact ⟨_, input⟩

theorem lookahead_congr (same : next.input = state.input) : next.lookahead = state.lookahead := by
  rw [ParseState.lookahead, ParseState.lookahead, same]

/-! ### Runs -/

/-- The machine goes on for a number of steps, the last of which halts. -/
inductive Halts (machine : Machine) : Nat → ParseState → Except ParseError Tree → Prop where
  | halt {state : ParseState} {result : Except ParseError Tree}
      (halted : machine.step state = .halt result) : Halts machine 1 state result
  | stay {state next : ParseState} {count : Nat} {result : Except ParseError Tree}
      (stayed : machine.step state = .stay next) (later : Halts machine count next result) :
      Halts machine (count + 1) state result
  | shift {state next : ParseState} {count : Nat} {result : Except ParseError Tree}
      (shifted : machine.step state = .shift next) (later : Halts machine count next result) :
      Halts machine (count + 1) state result

theorem Halts.unique {left right : Nat} {leftResult rightResult : Except ParseError Tree}
    (ends : machine.Halts left state leftResult) (other : machine.Halts right state rightResult) :
    leftResult = rightResult := by
  induction ends generalizing right with
  | halt halted =>
      cases other with
      | halt again => exact Progress.halt.inj (halted.symm.trans again)
      | stay stayed later => cases halted.symm.trans stayed
      | shift shifted later => cases halted.symm.trans shifted
  | stay stayed later ih =>
      cases other with
      | halt halted => cases stayed.symm.trans halted
      | stay again other =>
          cases stayed.symm.trans again
          exact ih other
      | shift shifted other => cases stayed.symm.trans shifted
  | shift shifted later ih =>
      cases other with
      | halt halted => cases shifted.symm.trans halted
      | stay stayed other => cases shifted.symm.trans stayed
      | shift again other =>
          cases shifted.symm.trans again
          exact ih other

theorem halts_of_untilShift_halt {fuel : Nat} {result : Except ParseError Tree}
    (found : machine.untilShift fuel state = some (.halt result)) :
    ∃ count, machine.Halts count state result := by
  induction fuel generalizing state with
  | zero => cases found
  | succ fuel ih =>
      unfold untilShift at found
      split at found
      case h_1 next stayed =>
        obtain ⟨count, later⟩ := ih found
        exact ⟨count + 1, .stay stayed later⟩
      case h_2 => exact ⟨1, .halt (Option.some.inj found)⟩

theorem halts_of_untilShift_shift {fuel count : Nat} {result : Except ParseError Tree}
    (found : machine.untilShift fuel state = some (.shift next))
    (later : machine.Halts count next result) :
    ∃ count, machine.Halts count state result := by
  induction fuel generalizing state with
  | zero => cases found
  | succ fuel ih =>
      unfold untilShift at found
      split at found
      case h_1 middle stayed =>
        obtain ⟨count, after⟩ := ih found
        exact ⟨count + 1, .stay stayed after⟩
      case h_2 => exact ⟨count + 1, .shift (Option.some.inj found) later⟩

theorem halts_of_run {rounds : Nat} {result : Except ParseError Tree}
    (found : machine.run rounds state = some result) :
    ∃ count, machine.Halts count state result := by
  induction rounds generalizing state with
  | zero => cases found
  | succ rounds ih =>
      unfold run at found
      split at found
      case h_1 next shifted =>
        obtain ⟨count, later⟩ := ih found
        exact halts_of_untilShift_shift shifted later
      case h_2 other halted =>
        cases found
        exact halts_of_untilShift_halt halted
      case h_3 => cases found

end Predictive.Machine
