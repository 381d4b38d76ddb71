/-
Automata from patterns. Every sub-pattern becomes a fragment, a start and an
accept state in one growing arena, and fragments are joined by epsilon edges.
States are never renumbered, and a fragment's states come after all that were
there before it.
-/

import Predictive.Lexical.Nfa
import Predictive.Lexical.Pattern

namespace Predictive

abbrev Arena := Array NfaState

/-- The states by which a compiled pattern is entered and left. -/
structure Fragment where
  start : Nat
  accept : Nat
  deriving DecidableEq, Repr

namespace Arena

/-- Adds an epsilon edge after those that a state has. -/
def link (arena : Arena) (source target : Nat) : Arena :=
  arena.modify source fun state => { state with epsilons := state.epsilons ++ [target] }

/-- Puts the tag of a token on a state. -/
def setTag (arena : Arena) (id : Nat) (tag : AcceptTag) : Arena :=
  arena.modify id fun state => { state with tag := some tag }

/-- Two new states with an arc from one to the other for each range. -/
def hop (arena : Arena) (ranges : List CharRange) : Arena × Fragment :=
  let start := arena.size
  let accept := arena.size + 1
  let arcs := ranges.map fun range => { range, target := accept }
  ((arena.push { NfaState.blank with arcs }).push .blank, { start, accept })

/-- A chain of new states that reads the characters of a text. -/
def chain (arena : Arena) : List Char → Arena
  | [] => arena.push .blank
  | char :: rest =>
      chain (arena.push { NfaState.blank with
        arcs := [{ range := ⟨char, char⟩, target := arena.size + 1 }] }) rest

/-- A new start and accept state around a fragment. -/
def bracket (arena : Arena) (inner : Fragment) : Arena × Fragment :=
  let start := arena.size
  let accept := arena.size + 1
  let grown : Arena := (arena.push .blank).push .blank
  (link (grown.link start inner.start) inner.accept accept, { start, accept })

/-- Joins each fragment's accept state to the start of the one after it. -/
def joinAll (arena : Arena) : List Fragment → Arena
  | first :: second :: rest => (arena.link first.accept second.start).joinAll (second :: rest)
  | _ => arena

/-- Leads from `outer.start` into each fragment and from each to `outer.accept`,
where the fragments already stand. -/
def fan (arena : Arena) (outer inner : Fragment) : Arena :=
  (arena.link outer.start inner.start).link inner.accept outer.accept

mutual

/-- Adds the states of a pattern to an arena. -/
def fragment (arena : Arena) : Pattern → Arena × Fragment
  | .literal text =>
      (arena.chain text.toList, ⟨arena.size, arena.size + text.toList.length⟩)
  | .range lo hi => arena.hop [⟨lo, hi⟩]
  | .set chars => arena.hop chars.ranges
  | .any domain => arena.hop [domain.range]
  | .anyExcept excluded domain => arena.hop (excluded.complementIn domain)
  | .sequence items =>
      match fragments arena items with
      | (grown, []) => (grown.push .blank, ⟨grown.size, grown.size⟩)
      | (grown, first :: rest) =>
          (grown.joinAll (first :: rest),
            ⟨first.start, ((first :: rest).getLast (List.cons_ne_nil _ _)).accept⟩)
  | .alternative items =>
      let outer : Fragment := ⟨arena.size, arena.size + 1⟩
      (branches ((arena.push .blank).push .blank) outer items, outer)
  | .optional inner =>
      let (grown, body) := fragment arena inner
      let (wrapped, outer) := grown.bracket body
      (wrapped.link outer.start outer.accept, outer)
  | .zeroOrMore inner =>
      let (grown, body) := fragment arena inner
      let (wrapped, outer) := grown.bracket body
      ((wrapped.link outer.start outer.accept).link body.accept body.start, outer)
  | .oneOrMore inner =>
      let (grown, body) := fragment arena inner
      let (wrapped, outer) := grown.bracket body
      (wrapped.link body.accept body.start, outer)

/-- Adds the states of each pattern in turn, still unjoined. -/
def fragments (arena : Arena) : List Pattern → Arena × List Fragment
  | [] => (arena, [])
  | item :: rest =>
      let (grown, first) := fragment arena item
      let (full, others) := fragments grown rest
      (full, first :: others)

/-- Adds each pattern as a branch between the states of `outer`. -/
def branches (arena : Arena) (outer : Fragment) : List Pattern → Arena
  | [] => arena
  | item :: rest =>
      let (grown, inner) := fragment arena item
      branches (grown.fan outer inner) outer rest

end

end Arena

namespace Nfa

/-- The automaton of a pattern, which produces tokens of a kind. -/
def ofToken (kind : String) (pattern : Pattern) : Nfa :=
  let (arena, whole) := Arena.fragment #[] pattern
  { states := arena.setTag whole.accept ⟨kind, 0, 0⟩
    start := whole.start
    accept := some whole.accept }

/-- The automaton of a pattern, which produces tokens named by its text. -/
def ofPattern (pattern : Pattern) : Nfa := ofToken pattern.render pattern

/-- Adds the tokens of a grammar under the start state, each with its tag. -/
def addTokens (start : Nat) (arena : Arena) (index : Nat) : List TokenRule → Arena
  | [] => arena
  | token :: rest =>
      let (grown, inner) := Arena.fragment arena token.pattern
      let tagged := (Arena.link grown start inner.start).setTag inner.accept
        ⟨token.name, token.priority, index⟩
      addTokens start tagged (index + 1) rest

/-- The automaton of a lexical grammar: its tokens under one fresh start state. -/
def ofGrammar (grammar : LexicalGrammar) : Nfa :=
  { states := addTokens 0 #[.blank] 0 grammar.tokens
    start := 0
    accept := none }

/-- The automata that patterns and lexical grammars are compiled to. -/
inductive Built : Nfa → Prop where
  | pattern (pattern : Pattern) : Built (ofPattern pattern)
  | token (kind : String) (pattern : Pattern) : Built (ofToken kind pattern)
  | grammar (grammar : LexicalGrammar) : Built (ofGrammar grammar)

end Nfa

end Predictive
