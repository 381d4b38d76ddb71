/-
Grammars: a start symbol and named rules in the order of their declaration. A
draft becomes a grammar when no name is declared twice, the start symbol has a
rule and every reference is to a declared name; otherwise the first failure, in
that order, is reported.
-/

import Predictive.Grammar.Error
import Predictive.Grammar.Rule
import Predictive.Lexical.Pattern

namespace Predictive

namespace Rule

/-- The non-terminals that a rule refers to, from left to right. -/
def references (rule : Rule) : List String :=
  rule.symbols.filterMap fun
    | .nonTerminal name => some name
    | .terminal _ => none

/-- The terminals that a rule uses, from left to right. -/
def terminals (rule : Rule) : List String :=
  rule.symbols.filterMap fun
    | .terminal name => some name
    | .nonTerminal _ => none

end Rule

structure Grammar where
  start : String
  rules : List (String × Rule)
  distinct : (rules.map Prod.fst).Nodup
  startDefined : start ∈ rules.map Prod.fst
  closed : ∀ entry ∈ rules, ∀ name ∈ entry.2.references, name ∈ rules.map Prod.fst
  deriving DecidableEq

/-- Rules under construction. Without a start symbol the first rule is the start. -/
structure Draft where
  start : Option String
  rules : List (String × Rule)
  deriving DecidableEq

namespace Draft

def empty : Draft := ⟨none, []⟩

def setStart (draft : Draft) (name : String) : Draft := { draft with start := some name }

def addRule (draft : Draft) (name : String) (rule : Rule) : Draft :=
  { draft with rules := draft.rules ++ [(name, rule)] }

def names (draft : Draft) : List String := draft.rules.map Prod.fst

/-- The start symbol; a draft without rules names none and gets the empty name. -/
def startName (draft : Draft) : String :=
  draft.start.getD (draft.names.head?.getD "")

/-- The first name of a list that stands in `seen` or earlier in the list. -/
def firstRepeat (seen : List String) : List String → Option String
  | [] => none
  | name :: rest => if name ∈ seen then some name else firstRepeat (name :: seen) rest

/-- The first rule that refers to an undeclared name, with its leftmost such name. -/
def firstUndefined (declared : List String) (rules : List (String × Rule)) :
    Option (String × String) :=
  rules.findSome? fun (owner, rule) =>
    (rule.references.find? fun name => !declared.contains name).map fun name => (owner, name)

theorem nodup_of_firstRepeat {seen names : List String}
    (none : firstRepeat seen names = none) :
    names.Nodup ∧ ∀ name ∈ names, name ∉ seen := by
  induction names generalizing seen with
  | nil => exact ⟨List.nodup_nil, fun name member => by cases member⟩
  | cons head rest ih =>
      unfold firstRepeat at none
      split at none
      case isTrue => cases none
      case isFalse new =>
        obtain ⟨distinct, others⟩ := ih none
        refine ⟨List.nodup_cons.mpr ⟨fun member => ?_, distinct⟩, ?_⟩
        · exact others head member List.mem_cons_self
        · intro name member
          rcases List.mem_cons.mp member with rfl | inRest
          · exact new
          · exact fun old => others name inRest (List.mem_cons_of_mem _ old)

theorem closed_of_firstUndefined {declared : List String} {rules : List (String × Rule)}
    (none : firstUndefined declared rules = none) :
    ∀ entry ∈ rules, ∀ name ∈ entry.2.references, name ∈ declared := by
  intro entry member name reference
  have missing := List.findSome?_eq_none_iff.mp none entry member
  simp only [Option.map_eq_none_iff, List.find?_eq_none] at missing
  have declaredName := missing name reference
  simpa using declaredName

/-- The grammar of a draft, or the first thing that is wrong with it. -/
def build (draft : Draft) : Except GrammarError Grammar :=
  match repeats : firstRepeat [] draft.names with
  | some name => .error (.duplicateRule name)
  | none =>
      if started : draft.startName ∈ draft.names then
        match undefineds : firstUndefined draft.names draft.rules with
        | some (rule, name) => .error (.undefinedNonTerminal rule name)
        | none =>
            .ok
              { start := draft.startName
                rules := draft.rules
                distinct := (nodup_of_firstRepeat repeats).1
                startDefined := started
                closed := closed_of_firstUndefined undefineds }
      else .error (.missingStart draft.startName)

end Draft

namespace Grammar

def names (grammar : Grammar) : List String := grammar.rules.map Prod.fst

/-- The place of a rule in the order of declaration. -/
def position? (grammar : Grammar) (name : String) : Option Nat :=
  grammar.rules.findIdx? fun entry => entry.1 == name

def rule? (grammar : Grammar) (name : String) : Option Rule :=
  (grammar.rules.find? fun entry => entry.1 == name).map Prod.snd

/-- The terminals in the order of their first use. -/
def terminals (grammar : Grammar) : List String :=
  (grammar.rules.flatMap fun entry => entry.2.terminals).eraseDups

/-- The first rule that uses a terminal which no token rule produces, with its
leftmost such terminal. -/
def firstUnknown (grammar : Grammar) (lexical : LexicalGrammar) : Option (String × String) :=
  grammar.rules.findSome? fun (owner, rule) =>
    (rule.terminals.find? fun name => !lexical.defines name).map fun name => (owner, name)

/-- Checks that every terminal is produced by some token rule. -/
def checkTerminals (grammar : Grammar) (lexical : LexicalGrammar) : Except GrammarError Unit :=
  match grammar.firstUnknown lexical with
  | some (rule, name) => .error (.unknownTerminal rule name)
  | none => .ok ()

end Grammar

end Predictive
