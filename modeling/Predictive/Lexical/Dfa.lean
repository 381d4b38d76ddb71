/-
Deterministic automata over characters. A state keeps its arcs in an array and a
character is looked up by halving; the search trusts the arcs to ascend. Arcs
that do not, and targets that are no states, can come from stored automata.
-/

import Predictive.Lexical.Nfa

namespace Predictive

structure DfaState where
  arcs : Array Arc
  /-- The token that is matched when a text ends here. -/
  accept : Option AcceptTag
  deriving DecidableEq, Repr

/-- States in the order of their discovery; state 0 is the first. -/
structure Dfa where
  states : Array DfaState
  deriving DecidableEq, Repr

namespace Search

/-- Halves the `size` items from `base` until one is left: the last probed item
that lies before the place sought, if any does. -/
def narrow {α : Type} (items : Array α) (before : α → Bool) (base size : Nat)
    (inside : base + size ≤ items.size) : Nat :=
  if large : 1 < size then
    let half := size / 2
    have bound : base + half < items.size := by omega
    if before items[base + half] then
      narrow items before (base + half) (size - half) (by omega)
    else narrow items before base (size - half) (by omega)
  else base
termination_by size

/-- The number of leading items that lie before the place sought, in an array
whose items before it all come first. -/
def partitionPoint {α : Type} (items : Array α) (before : α → Bool) : Nat :=
  let base := narrow items before 0 items.size (by omega)
  match items[base]? with
  | some item => if before item then base + 1 else base
  | none => 0

end Search

namespace DfaState

/-- The target of the first arc that does not end before the character, if that
arc holds it. -/
def next? (state : DfaState) (char : Char) : Option Nat :=
  let index := Search.partitionPoint state.arcs fun arc => arc.range.hi < char
  match state.arcs[index]? with
  | some arc => if arc.range.contains char then some arc.target else none
  | none => none

/-- Adds an arc at the end. It extends the last arc when that has the same target
and ends just before it. -/
def pushArc (arcs : Array Arc) (arc : Arc) : Array Arc :=
  match arcs.back? with
  | some last =>
      if last.target = arc.target ∧ last.range.hi.succ? = some arc.range.lo then
        arcs.pop.push ⟨⟨last.range.lo, arc.range.hi⟩, arc.target⟩
      else arcs.push arc
  | none => arcs.push arc

end DfaState

namespace Dfa

def arcsOf (dfa : Dfa) (id : Nat) : List Arc :=
  match dfa.states[id]? with
  | some state => state.arcs.toList
  | none => []

def acceptOf (dfa : Dfa) (id : Nat) : Option AcceptTag :=
  dfa.states[id]?.bind DfaState.accept

def isAccepting (dfa : Dfa) (id : Nat) : Bool := (dfa.acceptOf id).isSome

/-- The state after reading a character, if the automaton goes on. -/
def next? (dfa : Dfa) (id : Nat) (char : Char) : Option Nat :=
  dfa.states[id]?.bind fun state => state.next? char

/-- The state after reading a text. -/
def run? (dfa : Dfa) (id : Nat) : List Char → Option Nat
  | [] => some id
  | char :: rest => (dfa.next? id char).bind fun next => dfa.run? next rest

/-- Whether the automaton accepts a whole text. -/
def isMatch (dfa : Dfa) (text : List Char) : Bool :=
  match dfa.run? 0 text with
  | some id => dfa.isAccepting id
  | none => false

end Dfa

end Predictive
