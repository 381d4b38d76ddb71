/-
The predictive parser: a machine with a stack of tasks and a stack of finished
trees. A terminal on the stack is matched with the next token, a non-terminal is
replaced by the production that the table gives for the next token, and below
the production stands the task to gather its trees into a node. Parsing stops at
the first token that cannot be accepted.
-/

import Predictive.Parsing.Error
import Predictive.Parsing.Table
import Predictive.Parsing.Tree

namespace Predictive

/-- Kinds of tokens that are left out before parsing. -/
structure ParserConfig where
  skip : List String
  deriving DecidableEq, Repr

namespace ParserConfig

def empty : ParserConfig := ⟨[]⟩

def addSkip (config : ParserConfig) (kind : String) : ParserConfig :=
  ⟨config.skip ++ [kind]⟩

def skips (config : ParserConfig) (token : Token) : Bool := config.skip.contains token.kind

/-- The tokens that are parsed. -/
def kept (config : ParserConfig) (tokens : List Token) : List Token :=
  tokens.filter fun token => !config.skips token

end ParserConfig

/-- What is left to do, from the top of the stack. -/
inductive Task where
  | accept (symbol : Symbol)
  /-- Gather the last trees into a node. -/
  | gather (symbol : String) (count : Nat)
  /-- The input must be used up. -/
  | finish
  deriving DecidableEq, Repr

/-- A parse under way. The finished trees are listed from the last one back. -/
structure ParseState where
  stack : List Task
  output : List Tree
  input : List Token
  deriving DecidableEq

namespace ParseState

def lookahead (state : ParseState) : Lookahead :=
  match state.input with
  | token :: _ => .token token.kind
  | [] => .endOfInput

end ParseState

/-- What a step leads to. -/
inductive Progress where
  /-- A token was matched. -/
  | shift (state : ParseState)
  /-- The input is as before. -/
  | stay (state : ParseState)
  | halt (result : Except ParseError Tree)

/-- A table with the place at which the source ends. -/
structure Machine where
  table : ParseTable
  finish : Position

namespace Machine

/-- Parsing stops before the next token, or at the end of the source. -/
def unexpected (machine : Machine) (state : ParseState) (expected : List Lookahead) : ParseError :=
  match state.input with
  | token :: _ => .unexpectedToken expected token
  | [] => .unexpectedEnd expected machine.finish

/-- The last finished tree is the result. -/
def result (machine : Machine) (state : ParseState) : Tree :=
  state.output.headD (.empty machine.table.grammar.startName)

/-- At the bottom of the stack the input must be used up. -/
def conclude (machine : Machine) (state : ParseState) : Progress :=
  match state.input with
  | token :: _ => .halt (.error (.trailingInput token))
  | [] => .halt (.ok (machine.result state))

/-- Matches the next token with a terminal; `rest` is the stack below it. -/
def shiftTerminal (machine : Machine) (state : ParseState) (kind : String) (rest : List Task) :
    Progress :=
  match state.input with
  | token :: tokens =>
      if token.kind = kind then .shift ⟨rest, .leaf token :: state.output, tokens⟩
      else .halt (.error (machine.unexpected state [.token kind]))
  | [] => .halt (.error (machine.unexpected state [.token kind]))

/-- Puts a production in the place of its non-terminal. A production without
symbols leaves an empty tree at once. -/
def predict (state : ParseState) (name : String) (rhs : List Symbol) (rest : List Task) :
    ParseState :=
  match rhs with
  | [] => { state with stack := rest, output := .empty name :: state.output }
  | _ :: _ => { state with stack := rhs.map .accept ++ .gather name rhs.length :: rest }

/-- Replaces a non-terminal by the production for the next token. -/
def expand (machine : Machine) (state : ParseState) (name : String) (rest : List Task) :
    Progress :=
  match machine.table.grammar.idOf? name with
  | none => .halt (.error (machine.unexpected state []))
  | some id =>
      match machine.table.productionId? id state.lookahead with
      | none => .halt (.error (machine.unexpected state (machine.table.expected id)))
      | some production =>
          .stay (predict state name (machine.table.grammar.production production).rhs rest)

/-- Gathers the last `count` trees, in their order, into a node. -/
def gather (state : ParseState) (name : String) (count : Nat) (rest : List Task) : ParseState :=
  { state with
    stack := rest
    output := .node name (state.output.take count).reverse :: state.output.drop count }

/-- Carries out the task on top of the stack. -/
def step (machine : Machine) (state : ParseState) : Progress :=
  match state.stack with
  | [] => .halt (.ok (machine.result state))
  | .finish :: _ => machine.conclude state
  | .accept (.terminal kind) :: rest => machine.shiftTerminal state kind rest
  | .accept (.nonTerminal name) :: rest => machine.expand state name rest
  | .gather name count :: rest => .stay (gather state name count rest)

/-- The number of symbols of the longest production. -/
def longestProduction (grammar : PlainGrammar) : Nat :=
  grammar.productions.foldl (fun longest production => max longest production.rhs.length) 0

/-- How many steps may pass before the next token is matched. When no non-terminal
leads back to itself under one lookahead, a task takes no more steps than a tree
has nodes whose depth is the number of non-terminals and whose width is the
length of the longest production. -/
def allowance (machine : Machine) (state : ParseState) : Nat :=
  let grammar := machine.table.grammar
  state.stack.length *
    Nat.pow (longestProduction grammar + 2) (grammar.nonTerminals.size + 1) + 1

/-- Steps until a token is matched or the machine halts, at most `fuel` of them.
There is no answer when they are used up. -/
def untilShift (machine : Machine) : Nat → ParseState → Option Progress
  | 0, _ => none
  | fuel + 1, state =>
      match machine.step state with
      | .stay next => untilShift machine fuel next
      | progress => some progress

/-- Runs the machine for a number of rounds, each of which matches a token or
halts. A parse that uses up the steps of a round never halts. -/
def run (machine : Machine) : Nat → ParseState → Option (Except ParseError Tree)
  | 0, _ => none
  | rounds + 1, state =>
      match machine.untilShift (machine.allowance state) state with
      | some (.shift next) => run machine rounds next
      | some (.halt result) => some result
      | _ => none

/-- What the parser does in a step that reports it. -/
inductive Event where
  | predict (production : Production) (lookahead : Lookahead)
  | matched (token : Token)
  deriving DecidableEq, Repr

/-- What the next step reports. -/
def event? (machine : Machine) (state : ParseState) : Option Event :=
  match state.stack with
  | .accept (.terminal kind) :: _ =>
      match state.input with
      | token :: _ => if token.kind = kind then some (.matched token) else none
      | [] => none
  | .accept (.nonTerminal name) :: _ =>
      (machine.table.grammar.idOf? name).bind fun id =>
        (machine.table.productionId? id state.lookahead).map fun production =>
          .predict (machine.table.grammar.production production) state.lookahead
  | _ => none

/-- What the steps up to the next token report, in order. -/
def eventsUntilShift (machine : Machine) : Nat → ParseState → List Event
  | 0, _ => []
  | fuel + 1, state =>
      (machine.event? state).toList ++
        match machine.step state with
        | .stay next => eventsUntilShift machine fuel next
        | _ => []

/-- What the steps of a run report, in order. -/
def events (machine : Machine) : Nat → ParseState → List Event
  | 0, _ => []
  | rounds + 1, state =>
      machine.eventsUntilShift (machine.allowance state) state ++
        match machine.untilShift (machine.allowance state) state with
        | some (.shift next) => events machine rounds next
        | _ => []

/-- The machine for a list of tokens. The source ends where its last token does,
whether or not that token is skipped. -/
def ofTokens (table : ParseTable) (tokens : List Token) : Machine :=
  ⟨table, (tokens.getLast?.map Token.endPosition).getD .origin⟩

/-- The start symbol is to be accepted, and then nothing. -/
def initial (table : ParseTable) (input : List Token) : ParseState :=
  ⟨[.accept (.nonTerminal table.grammar.startName), .finish], [], input⟩

end Machine

namespace ParseTable

/-- The tree of the tokens that are not skipped, or the first error. Each round but
the last matches a token. There is no answer when the parser never halts, which
can happen only to tables that were filled by sets of another grammar. -/
def parse? (table : ParseTable) (config : ParserConfig) (tokens : List Token) :
    Option (Except ParseError Tree) :=
  let kept := config.kept tokens
  (Machine.ofTokens table tokens).run (kept.length + 1) (Machine.initial table kept)

/-- What the parser reports on the way. -/
def parseEvents (table : ParseTable) (config : ParserConfig) (tokens : List Token) :
    List Machine.Event :=
  let kept := config.kept tokens
  (Machine.ofTokens table tokens).events (kept.length + 1) (Machine.initial table kept)

end ParseTable

end Predictive
