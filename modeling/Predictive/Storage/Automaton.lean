/-
Stored deterministic automata. Reading checks the form only: targets need not be
states, ranges need not ascend, and there may be no states at all.
-/

import Predictive.Lexical.Dfa
import Predictive.Storage.Value

namespace Predictive.Storage

open Value

def encodeRange (range : CharRange) : Value :=
  .record [("start", .text (String.singleton range.lo)), ("end", .text (String.singleton range.hi))]

/-- Unlike other structures a range may have no further fields. -/
def decodeRange : Value → Option CharRange
  | .record fields => do
      guard (fields.all fun (name, _) => name == "start" || name == "end")
      let lo ← (← field? fields "start").char?
      let hi ← (← field? fields "end").char?
      pure ⟨lo, hi⟩
  | .list [lo, hi] => do
      let lo ← lo.char?
      let hi ← hi.char?
      pure ⟨lo, hi⟩
  | _ => none

def encodeArc (arc : Arc) : Value := .list [encodeRange arc.range, .ofNat arc.target]

def decodeArc (value : Value) : Option Arc := do
  let (range, target) ← value.pair? decodeRange (nat? wordLimit)
  pure ⟨range, target⟩

def encodeTag (tag : AcceptTag) : Value :=
  .record [("kind", .text tag.kind), ("priority", .ofNat tag.priority),
    ("token_index", .ofNat tag.index)]

def decodeTag (value : Value) : Option AcceptTag := do
  match ← value.fields? ["kind", "priority", "token_index"] with
  | [kind, priority, index] =>
      pure ⟨← kind.text?, ← priority.nat? wordLimit, ← index.nat? indexLimit⟩
  | _ => none

def encodeState (state : DfaState) : Value :=
  .record [("transitions", .ofList encodeArc state.arcs.toList),
    ("accept", .ofOption encodeTag state.accept)]

/-- A state that is stored as a record may leave its tag out. -/
def decodeState (value : Value) : Option DfaState := do
  let (arcs, accept) ←
    match value with
    | .record fields => do
        pure (← field? fields "transitions", (field? fields "accept").getD .null)
    | .list [arcs, accept] => some (arcs, accept)
    | _ => none
  pure ⟨(← arcs.list? decodeArc).toArray, ← accept.option? decodeTag⟩

def encodeDfa (dfa : Dfa) : Value :=
  .record [("states", .ofList encodeState dfa.states.toList)]

def decodeDfa (value : Value) : Option Dfa := do
  match ← value.fields? ["states"] with
  | [states] => pure ⟨(← states.list? decodeState).toArray⟩
  | _ => none

end Predictive.Storage
