/-
Walks in an automaton. Edges lead from state to state; a path spells the text that
its arcs read. These say what closures and runs compute, without computing it.
-/

import Predictive.Lexical.Nfa

namespace Predictive.Nfa

/-- Some number of epsilon edges lead from one state to another. -/
inductive EpsilonReaches (nfa : Nfa) : Nat → Nat → Prop where
  | refl (id : Nat) : EpsilonReaches nfa id id
  | step {first second third : Nat} (edge : second ∈ nfa.epsilonsOf first)
      (others : EpsilonReaches nfa second third) : EpsilonReaches nfa first third

/-- A path from one state to another that reads a text. -/
inductive Path (nfa : Nfa) : Nat → List Char → Nat → Prop where
  | refl (id : Nat) : Path nfa id [] id
  | epsilon {first second third : Nat} {text : List Char}
      (edge : second ∈ nfa.epsilonsOf first) (others : Path nfa second text third) :
      Path nfa first text third
  | arc {first third : Nat} {arc : Arc} {char : Char} {text : List Char}
      (edge : arc ∈ nfa.arcsOf first) (inside : arc.range.contains char = true)
      (others : Path nfa arc.target text third) : Path nfa first (char :: text) third

/-- Some edge leads from one state to the other; an arc counts whatever its range. -/
def Edge (nfa : Nfa) (source target : Nat) : Prop :=
  target ∈ nfa.epsilonsOf source ∨ ∃ arc ∈ nfa.arcsOf source, arc.target = target

/-- Some number of edges lead from one state to another. -/
inductive Reaches (nfa : Nfa) : Nat → Nat → Prop where
  | refl (id : Nat) : Reaches nfa id id
  | step {first second third : Nat} (edge : nfa.Edge first second)
      (others : Reaches nfa second third) : Reaches nfa first third

/-- A path over the text leads from the start to a state with this tag. -/
def Tagged (nfa : Nfa) (text : List Char) (tag : AcceptTag) : Prop :=
  ∃ id, nfa.Path nfa.start text id ∧ nfa.tagOf id = some tag

/-- Of the tags that a text leads to, this one has the highest priority and, among
those that have it, the lowest index. -/
structure Wins (nfa : Nfa) (text : List Char) (tag : AcceptTag) : Prop where
  reached : nfa.Tagged text tag
  best : ∀ other, nfa.Tagged text other →
    other.priority < tag.priority ∨ other.priority = tag.priority ∧ tag.index ≤ other.index

end Predictive.Nfa
