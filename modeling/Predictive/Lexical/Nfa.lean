/-
Nondeterministic automata over characters. States are numbered, and lead on by
arcs labelled with character ranges or by epsilon edges that read nothing. A
state may carry the tag of a token; the automaton accepts where a tag is.
-/

import Predictive.Lexical.CharSet

namespace Predictive

/-- What a token rule contributes to the state where it is matched. -/
structure AcceptTag where
  kind : String
  priority : Nat
  /-- The place of the token rule in its grammar. -/
  index : Nat
  deriving DecidableEq, Repr

/-- A step to `target` on any character of `range`. -/
structure Arc where
  range : CharRange
  target : Nat
  deriving DecidableEq, Repr

structure NfaState where
  arcs : List Arc
  epsilons : List Nat
  tag : Option AcceptTag
  deriving DecidableEq, Repr

namespace NfaState

/-- A state without edges or tag. -/
def blank : NfaState := ⟨[], [], none⟩

instance : Inhabited NfaState := ⟨blank⟩

end NfaState

structure Nfa where
  states : Array NfaState
  start : Nat
  /-- The one accepting state of a single pattern. The automaton of a grammar has
  a tagged state for each token instead. -/
  accept : Option Nat
  deriving DecidableEq, Repr

namespace Nfa

/-- The state with a number; a number without a state gives the blank state. -/
def stateAt (nfa : Nfa) (id : Nat) : NfaState := nfa.states.getD id .blank

def arcsOf (nfa : Nfa) (id : Nat) : List Arc := (nfa.stateAt id).arcs

def epsilonsOf (nfa : Nfa) (id : Nat) : List Nat := (nfa.stateAt id).epsilons

def tagOf (nfa : Nfa) (id : Nat) : Option AcceptTag := (nfa.stateAt id).tag

def isAccepting (nfa : Nfa) (id : Nat) : Bool := (nfa.tagOf id).isSome

/-- The states that carry a tag, in ascending order. -/
def tagged (nfa : Nfa) : List Nat := (List.range nfa.states.size).filter nfa.isAccepting

/-- Marks those of some states that are not marked yet and pushes them on a stack, one
after the other. A number without a state is passed over. -/
def pushNew (marks : Array Bool) (stack : List Nat) : List Nat → Array Bool × List Nat
  | [] => (marks, stack)
  | id :: rest =>
      if marks[id]? = some false then pushNew (marks.setIfInBounds id true) (id :: stack) rest
      else pushNew marks stack rest

theorem count_false_set {marks : Array Bool} {id : Nat} (unmarked : marks[id]? = some false) :
    (marks.setIfInBounds id true).count false + 1 = marks.count false := by
  obtain ⟨inRange, value⟩ := Array.getElem?_eq_some_iff.mp unmarked
  have positive : 0 < marks.count false :=
    Array.count_pos_iff.mpr (value ▸ Array.getElem_mem inRange)
  rw [Array.setIfInBounds, dif_pos inRange, Array.count_set, value]
  simp only [beq_self_eq_true, if_true, Bool.true_eq_false, beq_iff_eq, if_false, Nat.add_zero]
  omega

theorem count_false_pushNew (marks : Array Bool) (stack ids : List Nat) :
    (pushNew marks stack ids).1.count false + (pushNew marks stack ids).2.length =
      marks.count false + stack.length := by
  fun_induction pushNew marks stack ids with
  | case1 marks stack => rfl
  | case2 marks stack id rest unmarked ih =>
      have one := count_false_set unmarked
      rw [ih, List.length_cons]
      omega
  | case3 marks stack id rest known ih => exact ih

/-- Takes the states off the stack, pushing in place of each the states that its epsilon
edges lead to, and lists them in the order in which they are taken. -/
def collect (nfa : Nfa) (marks : Array Bool) (stack : List Nat) : List Nat :=
  match stack with
  | [] => []
  | id :: rest =>
      let pushed := pushNew marks rest (nfa.epsilonsOf id)
      id :: collect nfa pushed.1 pushed.2
termination_by marks.count false + stack.length
decreasing_by
  rw [count_false_pushNew, List.length_cons]
  omega

/-- The states reached from the seeds by epsilon edges alone, in ascending order. -/
def closure (nfa : Nfa) (seeds : List Nat) : List Nat :=
  let pushed := pushNew (Array.replicate nfa.states.size false) [] seeds
  (nfa.collect pushed.1 pushed.2).mergeSort

/-- The closure of seeds that are all states of the automaton. -/
def closure? (nfa : Nfa) (seeds : List Nat) : Option (List Nat) :=
  if seeds.all (fun id => id < nfa.states.size) then some (nfa.closure seeds) else none

/-- The targets of the arcs that leave a set of states on a character. -/
def move (nfa : Nfa) (set : List Nat) (char : Char) : List Nat :=
  ((set.flatMap nfa.arcsOf).filter fun arc => arc.range.contains char).map Arc.target

/-- Whether a run from a closed set of states over a text ends in an accepting
state. A run that has no state left is given up. -/
def accepts (nfa : Nfa) (set : List Nat) : List Char → Bool
  | [] => set.any nfa.isAccepting
  | char :: rest =>
      let moved := nfa.move set char
      if moved.isEmpty then false else nfa.accepts (nfa.closure moved) rest

/-- Whether the automaton accepts a whole text. -/
def isMatch (nfa : Nfa) (text : List Char) : Bool := nfa.accepts (nfa.closure [nfa.start]) text

end Nfa

end Predictive
