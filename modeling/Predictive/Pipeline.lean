/-
From grammars and a text to a parse tree in one go, with a log of what each stage
did. Stages that fail leave no closing line in the log; what they reported on the
way stays.
-/

import Predictive.Lexical.Lexer
import Predictive.Lexical.Subset
import Predictive.Parsing.Machine

namespace Predictive

inductive LogLevel where
  | debug
  /-- Single tokens, predictions, matches and collisions. -/
  | trace
  deriving DecidableEq, Repr

structure LogEntry where
  level : LogLevel
  message : String
  deriving DecidableEq, Repr

namespace LogEntry

def debug (message : String) : LogEntry := ⟨.debug, message⟩

def trace (message : String) : LogEntry := ⟨.trace, message⟩

/-- The entries that are kept at a level. -/
def keep (level : LogLevel) (entries : List LogEntry) : List LogEntry :=
  match level with
  | .debug => entries.filter fun entry => entry.level = .debug
  | .trace => entries

end LogEntry

namespace Grammar

def buildLog (grammar : Grammar) : List LogEntry :=
  [.debug ("built syntactic grammar with " ++ toString grammar.rules.length ++
    " rules, start `" ++ grammar.start ++ "`")]

end Grammar

namespace LexicalGrammar

/-- What is logged when the automata of a lexical grammar are built. -/
def compileLog (grammar : LexicalGrammar) : List LogEntry :=
  let nfa := Nfa.ofGrammar grammar
  let dfa := Dfa.ofNfa nfa
  [.debug ("compiled " ++ toString grammar.tokens.length ++
      " token patterns into an NFA with " ++ toString nfa.states.size ++ " states"),
    .debug ("subset construction produced " ++ toString dfa.states.size ++
      " DFA states from " ++ toString nfa.states.size ++ " NFA states")]

end LexicalGrammar

namespace ParseTable

/-- The collisions of one non-terminal, in the order of the claims. -/
def collisionLog (grammar : PlainGrammar) (id : Nat) (claims : List Claim) : List LogEntry :=
  (Claim.collisions grammar claims).map fun (occupant, claim) =>
    .trace ("conflict at [" ++ grammar.nameOf id ++ ", " ++ claim.lookahead.render ++ "]: " ++
      (grammar.production occupant.production).render ++ " vs " ++
      (grammar.production claim.production).render)

/-- What is logged when the table of a grammar is built, whether or not it has
conflicts. -/
def buildLog (source : Grammar) : List LogEntry :=
  let grammar := source.lower
  let count := toString grammar.nonTerminals.size
  let (first, firstPasses) := FirstSets.solve grammar
  let (follow, followPasses) := FollowSets.solve grammar first
  let collisions := (List.range grammar.nonTerminals.size).flatMap fun id =>
    collisionLog grammar id (claims grammar first follow id)
  [.debug ("lowered " ++ toString source.rules.length ++ " rules into " ++ count ++
      " non-terminals and " ++ toString grammar.productions.size ++ " productions"),
    .debug ("FIRST sets for " ++ count ++ " non-terminals reached a fixpoint after " ++
      toString firstPasses ++ " passes"),
    .debug ("FOLLOW sets for " ++ count ++ " non-terminals reached a fixpoint after " ++
      toString followPasses ++ " passes")] ++
    collisions ++
    [.debug ("LL(1) table for `" ++ grammar.startName ++ "`: " ++
      toString (fill grammar first follow).size ++ " cells, " ++
      toString (conflicts grammar first follow).length ++ " conflicts")]

end ParseTable

namespace Dfa

/-- What is logged when a text is cut into tokens. -/
def tokenizeLog (dfa : Dfa) (text : List Char) : List LogEntry :=
  let found := (dfa.lex text).filterMap Except.toOption
  found.map (fun token => .trace ("token " ++ token.render)) ++
    match dfa.tokenize text with
    | .ok tokens =>
        [.debug ("tokenized " ++ toString (Text.byteLength text) ++ " bytes into " ++
          toString tokens.length ++ " tokens")]
    | .error _ => []

end Dfa

namespace Machine.Event

def render : Machine.Event → String
  | .predict production lookahead =>
      "predict " ++ production.render ++ " on " ++ lookahead.render
  | .matched token =>
      "match " ++ token.kind ++ " at " ++ toString token.line ++ ":" ++ toString token.column

end Machine.Event

namespace ParseTable

/-- What is logged when tokens are parsed. -/
def parseLog (table : ParseTable) (config : ParserConfig) (tokens : List Token) :
    List LogEntry :=
  (table.parseEvents config tokens).map (fun event => .trace event.render) ++
    match table.parse? config tokens with
    | some (.ok _) =>
        let kept := (config.kept tokens).length
        [.debug ("parsed " ++ toString kept ++ " tokens (" ++
          toString (tokens.length - kept) ++ " skipped)")]
    | _ => []

end ParseTable

/-- Everything that is needed to parse texts. -/
structure Pipeline where
  lexical : LexicalGrammar
  draft : Draft
  config : ParserConfig
  /-- Whether terminals must be produced by token rules. -/
  checksTerminals : Bool

/-- A pipeline whose automaton and table are built. -/
structure Compiled where
  dfa : Dfa
  table : ParseTable
  config : ParserConfig

namespace Pipeline

/-- The terminals are checked only if the pipeline asks for it. -/
def check (pipeline : Pipeline) (grammar : Grammar) : Except GrammarError Unit :=
  if pipeline.checksTerminals then grammar.checkTerminals pipeline.lexical else .ok ()

/-- Builds what is needed, or gives the first reason why it cannot be built. -/
def compile (pipeline : Pipeline) : Except GrammarError Compiled := do
  let grammar ← pipeline.draft.build
  pipeline.check grammar
  let table ← ParseTable.build grammar
  pure ⟨.ofGrammar pipeline.lexical, table, pipeline.config⟩

end Pipeline

/-- Why a text has no parse tree. -/
inductive Failure where
  | lexical (error : LexError)
  | parse (error : ParseError)

namespace Compiled

/-- The parse tree of a text. There is no answer when the parser never halts. -/
def parse? (compiled : Compiled) (text : List Char) : Option (Except Failure Tree) :=
  match compiled.dfa.tokenize text with
  | .error error => some (.error (.lexical error))
  | .ok tokens =>
      (compiled.table.parse? compiled.config tokens).map fun
        | .ok tree => .ok tree
        | .error error => .error (.parse error)

/-- What is logged for one text. -/
def parseLog (compiled : Compiled) (text : List Char) : List LogEntry :=
  compiled.dfa.tokenizeLog text ++
    match compiled.dfa.tokenize text with
    | .ok tokens => compiled.table.parseLog compiled.config tokens
    | .error _ => []

end Compiled

namespace Pipeline

/-- What is logged while a pipeline is built and texts are parsed, and the error
that stopped it before the texts. -/
def log (pipeline : Pipeline) (texts : List (List Char)) : List LogEntry × Option GrammarError :=
  match pipeline.draft.build with
  | .error error => ([], some error)
  | .ok grammar =>
      match pipeline.check grammar with
      | .error error => (grammar.buildLog, some error)
      | .ok () =>
          let stages := grammar.buildLog ++ pipeline.lexical.compileLog ++
            ParseTable.buildLog grammar
          match ParseTable.build grammar with
          | .error error => (stages, some error)
          | .ok table =>
              let compiled : Compiled := ⟨.ofGrammar pipeline.lexical, table, pipeline.config⟩
              (stages ++ texts.flatMap compiled.parseLog, none)

end Pipeline

end Predictive
