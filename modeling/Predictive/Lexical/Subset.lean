/-
Deterministic automata from nondeterministic ones. A state of the result stands
for a closed set of states; sets are numbered in the order in which they are
found, breadth first from the closure of the start state. The characters are cut
into stretches on which the set of arcs that can be taken does not change.
-/

import Predictive.Lexical.Dfa
import Predictive.Lexical.Fragment
import Predictive.OrderedSet

namespace Predictive.Subset

/-- Whether the first tag wins over the second: by higher priority, then by
earlier declaration. -/
def beats (left right : AcceptTag) : Bool :=
  right.priority < left.priority ||
    (left.priority == right.priority && left.index < right.index)

/-- The winner among tags. -/
def bestTag : List AcceptTag → Option AcceptTag
  | [] => none
  | tag :: rest =>
      some (rest.foldl (fun best other => if beats other best then other else best) tag)

/-- The tag of a set of states. -/
def tagOf (nfa : Nfa) (set : List Nat) : Option AcceptTag :=
  bestTag (set.filterMap nfa.tagOf)

/-- The characters at which the set of arcs that can be taken may change: where
an arc's range begins, and just after it ends. -/
def cuts (arcs : List Arc) : List Char :=
  OrderedSet.ofList (arcs.flatMap fun arc => arc.range.lo :: arc.range.hi.succ?.toList)

/-- The stretches between one cut and the next; the last one has no end. -/
def stretches : List Char → List CharRange
  | [] => []
  | [lo] => [⟨lo, Scalar.last⟩]
  | lo :: next :: rest =>
      match Scalar.pred? next with
      | some hi => ⟨lo, hi⟩ :: stretches (next :: rest)
      | none => stretches (next :: rest)

/-- The sets found so far and the arcs of the state that is being filled. -/
structure Filling where
  sets : Array (List Nat)
  arcs : Array Arc

/-- Adds the arc for one stretch, on which the targets are those of its first
character. A set that is not yet known is added behind the known ones. -/
def fillStretch (nfa : Nfa) (arcs : List Arc) (filling : Filling) (stretch : CharRange) :
    Filling :=
  let targets := (arcs.filter fun arc => arc.range.contains stretch.lo).map Arc.target
  if targets.isEmpty then filling
  else
    let set := nfa.closure targets
    match filling.sets.idxOf? set with
    | some id => { filling with arcs := DfaState.pushArc filling.arcs ⟨stretch, id⟩ }
    | none =>
        { sets := filling.sets.push set
          arcs := DfaState.pushArc filling.arcs ⟨stretch, filling.sets.size⟩ }

/-- Fills the state of a set. -/
def fill (nfa : Nfa) (sets : Array (List Nat)) (set : List Nat) : Array (List Nat) × DfaState :=
  let arcs := set.flatMap nfa.arcsOf
  let filling := (stretches (cuts arcs)).foldl (fillStretch nfa arcs) ⟨sets, #[]⟩
  (filling.sets, ⟨filling.arcs, tagOf nfa set⟩)

/-- The sets found so far and the states filled so far, in the same order. -/
structure Exploration where
  sets : Array (List Nat)
  states : Array DfaState

namespace Exploration

/-- Only the closure of the start state is known, and no state is filled. -/
def initial (nfa : Nfa) : Exploration := ⟨#[nfa.closure [nfa.start]], #[]⟩

/-- Fills the first set that waits for it. -/
def step (nfa : Nfa) (exploration : Exploration) : Exploration :=
  match exploration.sets[exploration.states.size]? with
  | some set =>
      let (sets, state) := fill nfa exploration.sets set
      ⟨sets, exploration.states.push state⟩
  | none => exploration

/-- Fills sets until none waits, within a number of steps. -/
def run (nfa : Nfa) : Nat → Exploration → Exploration
  | 0, exploration => exploration
  | fuel + 1, exploration =>
      if exploration.states.size < exploration.sets.size then
        run nfa fuel (exploration.step nfa)
      else exploration

end Exploration

/-- Every set that is reached and its state. There are no more sets than subsets
of the states, so as many steps suffice. -/
def explore (nfa : Nfa) : Exploration :=
  Exploration.run nfa (Nat.pow 2 nfa.states.size) (.initial nfa)

end Predictive.Subset

namespace Predictive.Dfa

/-- The deterministic automaton of a nondeterministic one. -/
def ofNfa (nfa : Nfa) : Dfa := ⟨(Subset.explore nfa).states⟩

/-- The deterministic automaton of a lexical grammar. -/
def ofGrammar (grammar : LexicalGrammar) : Dfa := ofNfa (.ofGrammar grammar)

end Predictive.Dfa
