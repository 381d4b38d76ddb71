/-
Sessions: grammars are entered piece by piece, automaton and table are built on
request, and texts are cut and parsed with what has been built last. A failing
request leaves what it would have replaced.
-/

import Predictive.Lexical.Lexer
import Predictive.Lexical.Subset
import Predictive.Parsing.Machine

namespace Predictive

structure Session where
  lexical : LexicalGrammar
  draft : Draft
  config : ParserConfig
  dfa : Option Dfa
  grammar : Option Grammar
  table : Option ParseTable
  tokens : List Token

inductive Command where
  | addToken (token : TokenRule)
  | setStart (name : String)
  | addRule (name : String) (rule : Rule)
  | skip (kind : String)
  | skipNothing
  | compile
  | build
  | check
  | tabulate
  | lex (text : List Char)
  | parse
  | entries

/-- What has to be built before a command. -/
inductive Requirement where
  | grammar
  | automaton
  | table
  deriving DecidableEq, Repr

inductive Reply where
  | done
  | count (number : Nat)
  | skipped (kinds : List String)
  /-- The number of states, and whether the automaton is the same as before. -/
  | compiled (states : Nat) (unchanged : Bool)
  /-- The start symbol, the number of rules, and whether the grammar is the same as
  before. -/
  | built (start : String) (rules : Nat) (unchanged : Bool)
  | tokens (tokens : List Token)
  | tree (tree : Tree)
  | entries (cells : List (String × Lookahead × Production))
  | grammarError (error : GrammarError)
  | lexError (error : LexError)
  | parseError (error : ParseError)
  | notReady (requirement : Requirement)
  /-- The parser never halts. -/
  | endless

namespace Session

def initial : Session :=
  { lexical := .empty
    draft := .empty
    config := .empty
    dfa := none
    grammar := none
    table := none
    tokens := [] }

def compile (session : Session) : Session × Reply :=
  let dfa := Dfa.ofGrammar session.lexical
  ({ session with dfa := some dfa }, .compiled dfa.states.size (session.dfa = some dfa))

def build (session : Session) : Session × Reply :=
  match session.draft.build with
  | .ok grammar =>
      ({ session with grammar := some grammar },
        .built grammar.start grammar.rules.length (session.grammar = some grammar))
  | .error error => (session, .grammarError error)

def check (session : Session) : Reply :=
  match session.grammar with
  | none => .notReady .grammar
  | some grammar =>
      match grammar.checkTerminals session.lexical with
      | .ok () => .done
      | .error error => .grammarError error

def tabulate (session : Session) : Session × Reply :=
  match session.grammar with
  | none => (session, .notReady .grammar)
  | some grammar =>
      match ParseTable.build grammar with
      | .ok table => ({ session with table := some table }, .count table.size)
      | .error error => (session, .grammarError error)

def lex (session : Session) (text : List Char) : Session × Reply :=
  match session.dfa with
  | none => (session, .notReady .automaton)
  | some dfa =>
      match dfa.tokenize text with
      | .ok tokens => ({ session with tokens }, .tokens tokens)
      | .error error => (session, .lexError error)

def parse (session : Session) : Reply :=
  match session.table with
  | none => .notReady .table
  | some table =>
      match table.parse? session.config session.tokens with
      | some (.ok tree) => .tree tree
      | some (.error error) => .parseError error
      | none => .endless

def entries (session : Session) : Reply :=
  match session.table with
  | none => .notReady .table
  | some table => .entries table.entries

/-- Carries out a command. -/
def execute (session : Session) : Command → Session × Reply
  | .addToken token =>
      let lexical := session.lexical.add token
      ({ session with lexical }, .count lexical.tokens.length)
  | .setStart name => ({ session with draft := session.draft.setStart name }, .done)
  | .addRule name rule => ({ session with draft := session.draft.addRule name rule }, .done)
  | .skip kind =>
      let config := session.config.addSkip kind
      ({ session with config }, .skipped config.skip)
  | .skipNothing => ({ session with config := .empty }, .done)
  | .compile => session.compile
  | .build => session.build
  | .check => (session, session.check)
  | .tabulate => session.tabulate
  | .lex text => session.lex text
  | .parse => (session, session.parse)
  | .entries => (session, session.entries)

/-- Carries out commands one after another. -/
def executeAll (session : Session) : List Command → List Reply
  | [] => []
  | command :: rest =>
      let (after, reply) := session.execute command
      reply :: after.executeAll rest

end Session

end Predictive
