/-
What the text of a rule says. The characters of a text fall into marks, and from the
marks a language is read with one frame for every open parenthesis: items stand side
by side, bars part branches, and an operator belongs to the item in front of it. A
rule means what its text says when no operator stands behind several items; every
other rule has the text of one in which the operator belongs to the last item only.
-/

import Mathlib.Tactic
import Predictive.Grammar.RuleLanguage

namespace Predictive

namespace RuleText

open Rule

/-! ### Marks -/

def Operator.text : Operator → String
  | .optional => "?"
  | .zeroOrMore => "*"
  | .oneOrMore => "+"

inductive Mark where
  | symbol (symbol : Symbol)
  /-- The empty string. -/
  | empty
  | opening
  | closing
  | bar
  | operator (operator : Operator)
  deriving DecidableEq, Repr

def markOf? : Char → Option Mark
  | 'ε' => some .empty
  | '(' => some .opening
  | ')' => some .closing
  | '|' => some .bar
  | '?' => some (.operator .optional)
  | '*' => some (.operator .zeroOrMore)
  | '+' => some (.operator .oneOrMore)
  | _ => none

def bare : List Char → List Mark
  | [] => []
  | char :: rest => [.symbol (.nonTerminal (String.ofList (char :: rest)))]

/-- The marks of a text, of which a word has been read, inside quotation marks or not. -/
def scan (quoted : Bool) (word : List Char) : List Char → List Mark
  | [] => bare word
  | char :: rest =>
      if char.isAlphanum then scan quoted (word ++ [char]) rest
      else if char = '"' then
        if quoted then .symbol (.terminal (String.ofList word)) :: scan false [] rest
        else bare word ++ scan true [] rest
      else bare word ++ (markOf? char).toList ++ scan false [] rest

def group (inside : Bool) (marks : List Mark) : List Mark :=
  if inside then .opening :: marks ++ [.closing] else marks

mutual

def marks : Rule → List Mark
  | .terminal name => [.symbol (.terminal name)]
  | .nonTerminal name => [.symbol (.nonTerminal name)]
  | .sequence [] => [.empty]
  | .sequence (item :: rest) => marksOfItems (item :: rest)
  | .alternative items => marksOfBranches items
  | .optional inner => group inner.groupsBeforeOperator (marks inner) ++ [.operator .optional]
  | .zeroOrMore inner => group inner.groupsBeforeOperator (marks inner) ++ [.operator .zeroOrMore]
  | .oneOrMore inner => group inner.groupsBeforeOperator (marks inner) ++ [.operator .oneOrMore]

def marksOfItems : List Rule → List Mark
  | [] => []
  | item :: rest => group item.groupsInSequence (marks item) ++ marksOfItems rest

def marksOfBranches : List Rule → List Mark
  | [] => []
  | [item] => marks item
  | item :: next :: rest => marks item ++ .bar :: marksOfBranches (next :: rest)

end

/-! ### The marks of a text -/

def Ends (rest : List Char) : Prop := ∀ char others, rest = char :: others → char.isAlphanum = false

/-- The text falls into the marks, whatever stands behind it. -/
def Spells (text : String) (spelled : List Mark) : Prop :=
  ∀ rest, Ends rest → scan false [] (text.toList ++ rest) = spelled ++ scan false [] rest

theorem ends_nil : Ends [] := nofun

theorem ends_cons {char : Char} (other : char.isAlphanum = false) (rest : List Char) :
    Ends (char :: rest) := by
  intro first others same
  cases same
  exact other

theorem scan_word {quoted : Bool} {letters : List Char} (word rest : List Char)
    (alphanumeric : ∀ char ∈ letters, char.isAlphanum = true) :
    scan quoted word (letters ++ rest) = scan quoted (word ++ letters) rest := by
  induction letters generalizing word with
  | nil => rw [List.append_nil, List.nil_append]
  | cons char letters ih =>
      rw [List.cons_append, scan, if_pos (alphanumeric char List.mem_cons_self),
        ih _ fun other member => alphanumeric other (List.mem_cons_of_mem _ member),
        List.append_assoc, List.singleton_append]

theorem scan_bare {rest : List Char} (ends : Ends rest) (word : List Char) :
    scan false word rest = bare word ++ scan false [] rest := by
  cases rest with
  | nil => rw [scan, scan, bare, List.append_nil]
  | cons char others =>
      have other : ¬char.isAlphanum = true := by rw [ends char others rfl]; nofun
      simp only [scan, if_neg other, Bool.false_eq_true, if_false, bare, List.nil_append]
      split
      case isTrue => rfl
      case isFalse => rw [List.append_assoc]

theorem scan_mark {char : Char} (other : char.isAlphanum = false) (unquoted : char ≠ '"')
    (rest : List Char) :
    scan false [] (char :: rest) = (markOf? char).toList ++ scan false [] rest := by
  rw [scan, if_neg (by rw [other]; nofun), if_neg unquoted, bare, List.nil_append]

theorem spells_terminal {name : String} (word : ∀ char ∈ name.toList, char.isAlphanum = true) :
    Spells ("\"" ++ name ++ "\"") [.symbol (.terminal name)] := by
  intro rest _
  have opened : ∀ others, scan false [] ('"' :: others) = scan true [] others := fun others => by
    rw [scan, if_neg (by decide), if_pos rfl, if_neg (by decide), bare, List.nil_append]
  have closed : ∀ letters others, scan true letters ('"' :: others) =
      .symbol (.terminal (String.ofList letters)) :: scan false [] others :=
    fun letters others => by rw [scan, if_neg (by decide), if_pos rfl, if_pos rfl]
  simp only [String.toList_append, List.append_assoc]
  change scan false [] ('"' :: (name.toList ++ '"' :: rest)) = _
  rw [opened, scan_word _ _ word, List.nil_append, closed, String.ofList_toList]
  rfl

theorem spells_nonTerminal {name : String} (some : name.toList ≠ [])
    (word : ∀ char ∈ name.toList, char.isAlphanum = true) :
    Spells name [.symbol (.nonTerminal name)] := by
  intro rest ends
  rw [scan_word _ _ word, scan_bare ends, List.nil_append]
  have whole : bare name.toList = [.symbol (.nonTerminal name)] := by
    cases letters : name.toList with
    | nil => exact (some letters).elim
    | cons char others => rw [bare, ← letters, String.ofList_toList]
  rw [whole]

theorem spells_empty : Spells "ε" [.empty] := by
  intro rest _
  exact scan_mark (by decide) (by decide) rest

theorem spells_nothing : Spells "" [] := fun _ _ => rfl

namespace Spells

variable {left right : String} {first second : List Mark}

theorem join (spells : Spells left first) (others : Spells right second) :
    Spells (left ++ " " ++ right) (first ++ second) := by
  intro rest ends
  simp only [String.toList_append, List.append_assoc]
  change scan false [] (left.toList ++ ' ' :: (right.toList ++ rest)) = _
  rw [spells _ (ends_cons (by decide) _), scan_mark (by decide) (by decide), others rest ends]
  rfl

theorem bar (spells : Spells left first) (others : Spells right second) :
    Spells (left ++ " | " ++ right) (first ++ .bar :: second) := by
  intro rest ends
  simp only [String.toList_append, List.append_assoc]
  change scan false [] (left.toList ++ ' ' :: '|' :: ' ' :: (right.toList ++ rest)) = _
  rw [spells _ (ends_cons (by decide) _), scan_mark (by decide) (by decide),
    scan_mark (by decide) (by decide), scan_mark (by decide) (by decide), others rest ends]
  rfl

theorem parenthesize (spells : Spells left first) (inside : Bool) :
    Spells (Rule.parenthesize inside left) (group inside first) := by
  cases inside with
  | false => exact spells
  | true =>
      intro rest _
      change scan false [] (("(" ++ left ++ ")").toList ++ rest) = _
      simp only [String.toList_append, List.append_assoc]
      change scan false [] ('(' :: (left.toList ++ ')' :: rest)) = _
      rw [scan_mark (by decide) (by decide), spells _ (ends_cons (by decide) _),
        scan_mark (by decide) (by decide), group, if_pos rfl]
      simp only [markOf?, Option.toList, List.cons_append, List.nil_append, List.append_assoc]

theorem operator (spells : Spells left first) (operator : Operator) :
    Spells (left ++ operator.text) (first ++ [.operator operator]) := by
  have single : ∃ char, operator.text.toList = [char] ∧ char.isAlphanum = false ∧ char ≠ '"' ∧
      markOf? char = some (.operator operator) := by
    cases operator with
    | optional => exact ⟨'?', rfl, by decide, by decide, rfl⟩
    | zeroOrMore => exact ⟨'*', rfl, by decide, by decide, rfl⟩
    | oneOrMore => exact ⟨'+', rfl, by decide, by decide, rfl⟩
  obtain ⟨char, letters, other, unquoted, stands⟩ := single
  intro rest _
  rw [String.toList_append, letters, List.append_assoc, List.singleton_append,
    spells _ (ends_cons other _), scan_mark other unquoted, stands, List.append_assoc]
  rfl

end Spells

mutual

theorem spells_render (rule : Rule) (worded : rule.Worded) : Spells rule.render (marks rule) := by
  cases rule with
  | terminal name =>
      obtain ⟨-, word⟩ := worded (.terminal name) (List.mem_singleton_self _)
      exact spells_terminal word
  | nonTerminal name =>
      obtain ⟨some, word⟩ := worded (.nonTerminal name) (List.mem_singleton_self _)
      exact spells_nonTerminal some word
  | sequence items =>
      cases items with
      | nil => exact spells_empty
      | cons item rest => exact spells_items (item :: rest) (List.cons_ne_nil _ _) worded
  | alternative items => exact spells_branches items worded
  | optional inner => exact ((spells_render inner worded).parenthesize _).operator .optional
  | zeroOrMore inner => exact ((spells_render inner worded).parenthesize _).operator .zeroOrMore
  | oneOrMore inner => exact ((spells_render inner worded).parenthesize _).operator .oneOrMore

theorem spells_items (items : List Rule) (some : items ≠ [])
    (worded : (Rule.sequence items).Worded) :
    Spells (" ".intercalate (Rule.renderItems items)) (marksOfItems items) := by
  cases items with
  | nil => exact (some rfl).elim
  | cons item rest =>
      obtain ⟨first, others⟩ := List.forall_mem_append.mp worded
      have shown := (spells_render item first).parenthesize item.groupsInSequence
      have later := spells_items rest
      rw [Rule.renderItems, marksOfItems]
      cases rest with
      | nil =>
          rw [Rule.renderItems, String.intercalate_singleton, marksOfItems, List.append_nil]
          exact shown
      | cons next rest =>
          have behind := later (List.cons_ne_nil _ _) others
          rw [Rule.renderItems] at behind ⊢
          rw [String.intercalate_cons_cons]
          exact shown.join behind

theorem spells_branches (items : List Rule) (worded : (Rule.alternative items).Worded) :
    Spells (" | ".intercalate (Rule.renderBranches items)) (marksOfBranches items) := by
  cases items with
  | nil => exact spells_nothing
  | cons item rest =>
      obtain ⟨first, others⟩ := List.forall_mem_append.mp worded
      have shown := spells_render item first
      have later := spells_branches rest others
      rw [Rule.renderBranches]
      cases rest with
      | nil =>
          rw [Rule.renderBranches, String.intercalate_singleton, marksOfBranches]
          exact shown
      | cons next rest =>
          rw [marksOfBranches]
          rw [Rule.renderBranches] at later ⊢
          rw [String.intercalate_cons_cons]
          exact shown.bar later

end

/-! ### The language of some marks -/

def Operator.apply : Operator → Language Symbol → Language Symbol
  | .optional, language => 1 + language
  | .zeroOrMore, language => KStar.kstar language
  | .oneOrMore, language => language * KStar.kstar language

/-- What has been read since a parenthesis was opened: the branches that are finished,
and of the branch under way the last item and what stands before it. -/
structure Frame where
  branches : Language Symbol
  before : Language Symbol
  last : Option (Language Symbol)

namespace Frame

def fresh (branches : Language Symbol) : Frame := ⟨branches, 1, none⟩

/-- More items side by side, given by the last one and all before it. -/
def push (frame : Frame) (before last : Language Symbol) : Frame :=
  { frame with before := frame.before * frame.last.getD 1 * before, last := some last }

def close (frame : Frame) : Language Symbol :=
  frame.branches + match frame.last with
    | some last => frame.before * last
    | none => 0

theorem push_push (frame : Frame) (first last before final : Language Symbol) :
    (frame.push first last).push before final = frame.push (first * last * before) final := by
  simp only [push, Option.getD_some, mul_assoc]

theorem close_push_fresh (branches before last : Language Symbol) :
    ((fresh branches).push before last).close = branches + before * last := by
  simp only [close, push, fresh, Option.getD_none, one_mul]

end Frame

/-- Reads one mark; the first frame belongs to the innermost parenthesis. -/
def step : Mark → List Frame → List Frame
  | .symbol symbol, frame :: outer => frame.push 1 {[symbol]} :: outer
  | .empty, frame :: outer => frame.push 1 1 :: outer
  | .opening, outer => .fresh 0 :: outer
  | .closing, frame :: next :: outer => next.push 1 frame.close :: outer
  | .bar, frame :: outer => .fresh frame.close :: outer
  | .operator operator, frame :: outer =>
      { frame with last := frame.last.map operator.apply } :: outer
  | _, frames => frames

def run (marks : List Mark) (frames : List Frame) : List Frame :=
  marks.foldl (fun frames mark => step mark frames) frames

theorem run_append (left right : List Mark) (frames : List Frame) :
    run (left ++ right) frames = run right (run left frames) :=
  List.foldl_append

def languageOfText (text : String) : Language Symbol :=
  match run (scan false [] text.toList) [.fresh 0] with
  | frame :: _ => frame.close
  | [] => 0

/-- The marks put items side by side that together have the language. A rule that is
shown as one item is one item. -/
def Adds (marks : List Mark) (several : Bool) (language : Language Symbol) : Prop :=
  ∃ before last, before * last = language ∧ (several = false → before = 1) ∧
    ∀ frame outer, run marks (frame :: outer) = frame.push before last :: outer

def Branches (marks : List Mark) (language : Language Symbol) : Prop :=
  ∀ branches outer, ∃ frame, run marks (.fresh branches :: outer) = frame :: outer ∧
    frame.close = branches + language

theorem Adds.branches {marks : List Mark} {several : Bool} {language : Language Symbol}
    (adds : Adds marks several language) : Branches marks language := by
  obtain ⟨before, last, rfl, -, runs⟩ := adds
  exact fun branches outer => ⟨_, runs _ _, Frame.close_push_fresh ..⟩

theorem Branches.parenthesized {marks : List Mark} {language : Language Symbol}
    (branches : Branches marks language) : Adds (group true marks) false language := by
  refine ⟨1, language, one_mul _, fun _ => rfl, fun frame outer => ?_⟩
  obtain ⟨inner, runs, closed⟩ := branches 0 (frame :: outer)
  rw [group, if_pos rfl, List.cons_append]
  change run (marks ++ [.closing]) (.fresh 0 :: frame :: outer) = _
  rw [run_append, runs]
  change frame.push 1 inner.close :: outer = _
  rw [closed, zero_add]

theorem Adds.append {left right : List Mark} {several others : Bool}
    {first second : Language Symbol} (adds : Adds left several first)
    (later : Adds right others second) : Adds (left ++ right) true (first * second) := by
  obtain ⟨before, last, rfl, -, runs⟩ := adds
  obtain ⟨between, final, rfl, -, runsLater⟩ := later
  refine ⟨before * last * between, final, mul_assoc .., nofun, fun frame outer => ?_⟩
  rw [run_append, runs, runsLater, Frame.push_push]

theorem Adds.operator {marks : List Mark} {language : Language Symbol}
    (adds : Adds marks false language) (operator : Operator) :
    Adds (marks ++ [.operator operator]) false (operator.apply language) := by
  obtain ⟨before, last, rfl, single, runs⟩ := adds
  obtain rfl := single rfl
  refine ⟨1, operator.apply last, by rw [one_mul, one_mul], fun _ => rfl, fun frame outer => ?_⟩
  rw [run_append, runs]
  rfl

theorem Branches.bar {left right : List Mark} {first second : Language Symbol}
    (branches : Branches left first) (others : Branches right second) :
    Branches (left ++ .bar :: right) (first + second) := by
  intro earlier outer
  obtain ⟨frame, runs, closed⟩ := branches earlier outer
  obtain ⟨final, runsLater, closedLater⟩ := others frame.close outer
  refine ⟨final, ?_, by rw [closedLater, closed, add_assoc]⟩
  rw [run_append, runs]
  exact runsLater

structure Reads (rule : Rule) : Prop where
  branches : Branches (marks rule) rule.language
  adds : Adds (group rule.groupsInSequence (marks rule)) rule.showsSeveral rule.language

theorem groupsInSequence_of_bare {rule : Rule} (bare : rule.groupsBeforeOperator = false) :
    rule.groupsInSequence = false := by
  cases rule with
  | alternative items => cases bare
  | _ => rfl

theorem Reads.operand {inner : Rule} (reads : Reads inner) (one : inner.isOneOperand = true) :
    Adds (group inner.groupsBeforeOperator (marks inner)) false inner.language := by
  cases groups : inner.groupsBeforeOperator with
  | true => exact reads.branches.parenthesized
  | false =>
      have single : inner.showsSeveral = false := by
        rw [Rule.isOneOperand, groups, Bool.false_or, Bool.not_eq_true'] at one
        exact one
      have adds := reads.adds
      rw [single, groupsInSequence_of_bare groups] at adds
      exact adds

theorem Adds.reads {rule : Rule} (bare : rule.groupsInSequence = false)
    (adds : Adds (marks rule) rule.showsSeveral rule.language) : Reads rule := by
  refine ⟨adds.branches, ?_⟩
  rw [bare]
  exact adds

theorem adds_symbol (symbol : Symbol) : Adds [.symbol symbol] false {[symbol]} :=
  ⟨1, {[symbol]}, one_mul _, fun _ => rfl, fun _ _ => rfl⟩

mutual

theorem reads_rule (rule : Rule) (grouped : rule.isGrouped = true) : Reads rule := by
  cases rule with
  | terminal name => exact (adds_symbol (.terminal name)).reads rfl
  | nonTerminal name => exact (adds_symbol (.nonTerminal name)).reads rfl
  | sequence items =>
      cases items with
      | nil =>
          have adds : Adds [.empty] false 1 := ⟨1, 1, one_mul _, fun _ => rfl, fun _ _ => rfl⟩
          exact adds.reads rfl
      | cons item rest => exact (adds_items (item :: rest) (List.cons_ne_nil _ _) grouped).reads rfl
  | alternative items =>
      have branches := branches_choice items grouped
      exact ⟨branches, branches.parenthesized⟩
  -- The mark of an operator changes the last item alone, so its operand is to be one item.
  | optional inner =>
      rw [Rule.isGrouped, Bool.and_eq_true] at grouped
      exact (((reads_rule inner grouped.2).operand grouped.1).operator .optional).reads rfl
  | zeroOrMore inner =>
      rw [Rule.isGrouped, Bool.and_eq_true] at grouped
      exact (((reads_rule inner grouped.2).operand grouped.1).operator .zeroOrMore).reads rfl
  | oneOrMore inner =>
      rw [Rule.isGrouped, Bool.and_eq_true] at grouped
      exact (((reads_rule inner grouped.2).operand grouped.1).operator .oneOrMore).reads rfl

theorem adds_items (items : List Rule) (some : items ≠ [])
    (grouped : Rule.areGrouped items = true) :
    Adds (marksOfItems items) (Rule.sequence items).showsSeveral
      (Rule.languageOfSequence items) := by
  cases items with
  | nil => exact (some rfl).elim
  | cons item rest =>
      rw [Rule.areGrouped, Bool.and_eq_true] at grouped
      have first := (reads_rule item grouped.1).adds
      have others := fun nonempty => adds_items rest nonempty grouped.2
      rw [marksOfItems, Rule.languageOfSequence]
      cases rest with
      | nil =>
          rw [marksOfItems, List.append_nil, Rule.languageOfSequence, mul_one]
          exact first
      | cons next rest => exact first.append (others (List.cons_ne_nil _ _))

theorem branches_choice (items : List Rule) (grouped : Rule.areGrouped items = true) :
    Branches (marksOfBranches items) (Rule.languageOfChoice items) := by
  cases items with
  | nil =>
      intro branches outer
      exact ⟨.fresh branches, rfl, rfl⟩
  | cons item rest =>
      rw [Rule.areGrouped, Bool.and_eq_true] at grouped
      have first := (reads_rule item grouped.1).branches
      have others := branches_choice rest grouped.2
      rw [Rule.languageOfChoice]
      cases rest with
      | nil =>
          rw [marksOfBranches, Rule.languageOfChoice, add_zero]
          exact first
      | cons next rest => exact first.bar others

end

/-- A grouped rule means what its text says. -/
theorem languageOfText_render {rule : Rule} (worded : rule.Worded)
    (grouped : rule.isGrouped = true) :
    languageOfText rule.render = rule.language := by
  have spelled := spells_render rule worded [] ends_nil
  rw [List.append_nil, scan, bare, List.append_nil] at spelled
  obtain ⟨frame, runs, closed⟩ := (reads_rule rule grouped).branches 0 []
  rw [languageOfText, spelled, runs]
  exact closed.trans (zero_add _)

/-! ### The rule in a text -/

variable {operator : Operator}

theorem render_operator (operator : Operator) (rule : Rule) : (operator.rule rule).render =
    parenthesize rule.groupsBeforeOperator rule.render ++ operator.text := by
  cases operator <;> rfl

theorem groupsInSequence_operator (operator : Operator) (rule : Rule) :
    (operator.rule rule).groupsInSequence = false := by
  cases operator <;> rfl

theorem symbols_operator (operator : Operator) (rule : Rule) :
    (operator.rule rule).symbols = rule.symbols := by
  cases operator <;> rfl

theorem isGrouped_operator (operator : Operator) (rule : Rule) :
    (operator.rule rule).isGrouped = (rule.isOneOperand && rule.isGrouped) := by
  cases operator <;> rfl

/-! ### An operator behind the last item -/

theorem groupsInSequence_onLast (rule : Rule) :
    (rule.onLast operator).groupsInSequence = false := by
  unfold onLast
  split
  case h_1 => exact groupsInSequence_operator ..
  case h_2 => rfl
  case h_3 => exact groupsInSequence_operator ..

theorem render_sequence {items : List Rule} (some : items ≠ []) :
    (Rule.sequence items).render = " ".intercalate (renderItems items) := by
  cases items with
  | nil => exact (some rfl).elim
  | cons item rest => rfl

theorem onLastOf_ne_nil {items : List Rule} (some : items ≠ []) :
    onLastOf operator items ≠ [] := by
  unfold onLastOf
  split
  case h_1 => exact some
  case h_2 => exact List.cons_ne_nil _ _
  case h_3 => exact List.cons_ne_nil _ _

theorem intercalate_renderItems {items : List Rule} (some : items ≠ []) (item : Rule) :
    " ".intercalate (renderItems (item :: items)) =
      parenthesize item.groupsInSequence item.render ++ " " ++
        " ".intercalate (renderItems items) := by
  cases items with
  | nil => exact (some rfl).elim
  | cons next rest => exact String.intercalate_cons_cons

mutual

theorem render_onLast (operator : Operator) (rule : Rule) : (rule.onLast operator).render =
    parenthesize rule.groupsInSequence rule.render ++ operator.text := by
  cases rule with
  | sequence items =>
      cases items with
      | nil => exact render_operator ..
      | cons item rest =>
          have some := List.cons_ne_nil item rest
          rw [onLast, render_sequence (onLastOf_ne_nil some)]
          exact intercalate_onLastOf operator (item :: rest) some
  | _ => exact render_operator ..

theorem intercalate_onLastOf (operator : Operator) (items : List Rule) (some : items ≠ []) :
    " ".intercalate (renderItems (onLastOf operator items)) =
      " ".intercalate (renderItems items) ++ operator.text := by
  cases items with
  | nil => exact (some rfl).elim
  | cons item rest =>
      have shown := render_onLast operator item
      have others := intercalate_onLastOf operator rest
      cases rest with
      | nil =>
          simp only [onLastOf, renderItems, String.intercalate_singleton, groupsInSequence_onLast]
          exact shown
      | cons next rest =>
          have nonempty := List.cons_ne_nil next rest
          rw [onLastOf, intercalate_renderItems (onLastOf_ne_nil nonempty),
            intercalate_renderItems nonempty, others nonempty]
          simp only [String.append_assoc]

end

mutual

theorem symbols_onLast (operator : Operator) (rule : Rule) :
    (rule.onLast operator).symbols = rule.symbols := by
  cases rule with
  | sequence items =>
      cases items with
      | nil => exact symbols_operator ..
      | cons item rest => exact symbols_onLastOf operator (item :: rest)
  | _ => exact symbols_operator ..

theorem symbols_onLastOf (operator : Operator) (items : List Rule) :
    symbolsOfAll (onLastOf operator items) = symbolsOfAll items := by
  cases items with
  | nil => rfl
  | cons item rest =>
      have first := symbols_onLast operator item
      have others := symbols_onLastOf operator rest
      cases rest with
      | nil => exact congrArg (· ++ []) first
      | cons next rest => exact congrArg (item.symbols ++ ·) others

end

mutual

theorem isGrouped_onLast (operator : Operator) (rule : Rule) (grouped : rule.isGrouped = true) :
    (rule.onLast operator).isGrouped = true := by
  cases rule with
  | sequence items =>
      cases items with
      | nil =>
          rw [onLast, isGrouped_operator]
          rfl
      | cons item rest => exact areGrouped_onLastOf operator (item :: rest) grouped
  | _ =>
      refine (isGrouped_operator ..).trans ?_
      rw [grouped]
      rfl

theorem areGrouped_onLastOf (operator : Operator) (items : List Rule)
    (grouped : areGrouped items = true) : areGrouped (onLastOf operator items) = true := by
  cases items with
  | nil => rfl
  | cons item rest =>
      rw [areGrouped, Bool.and_eq_true] at grouped
      have first := isGrouped_onLast operator item grouped.1
      have others := areGrouped_onLastOf operator rest grouped.2
      cases rest with
      | nil =>
          rw [onLastOf, areGrouped, first]
          rfl
      | cons next rest =>
          rw [onLastOf, areGrouped, grouped.1, others]
          rfl

end

/-! ### The rule that is read -/

theorem groupsInSequence_reading (rule : Rule) :
    rule.reading.groupsInSequence = rule.groupsInSequence := by
  have behind : ∀ operator inParentheses (inner : Rule),
      (attach operator inParentheses inner).groupsInSequence = false := by
    intro operator inParentheses inner
    cases inParentheses with
    | false => exact groupsInSequence_onLast inner
    | true => exact groupsInSequence_operator operator inner
  cases rule with
  | optional inner => exact behind ..
  | zeroOrMore inner => exact behind ..
  | oneOrMore inner => exact behind ..
  | _ => rfl

theorem groupsBeforeOperator_reading {rule : Rule} (groups : rule.groupsBeforeOperator = true) :
    rule.reading.groupsBeforeOperator = true := by
  unfold groupsBeforeOperator at groups
  split at groups
  case h_1 => rfl
  case h_2 => rfl
  case h_3 => cases groups

theorem render_attach (operator : Operator) {inner : Rule}
    (same : inner.reading.render = inner.render) :
    (attach operator inner.groupsBeforeOperator inner.reading).render =
      parenthesize inner.groupsBeforeOperator inner.render ++ operator.text := by
  cases groups : inner.groupsBeforeOperator with
  | false =>
      have item : inner.reading.groupsInSequence = false :=
        (groupsInSequence_reading inner).trans (groupsInSequence_of_bare groups)
      refine (render_onLast operator inner.reading).trans ?_
      rw [item, same]
  | true =>
      refine (render_operator operator inner.reading).trans ?_
      rw [groupsBeforeOperator_reading groups, same]

theorem symbols_attach (operator : Operator) (inParentheses : Bool) (inner : Rule) :
    (attach operator inParentheses inner).symbols = inner.symbols := by
  cases inParentheses with
  | false => exact symbols_onLast operator inner
  | true => exact symbols_operator operator inner

theorem isGrouped_attach (operator : Operator) {inner : Rule}
    (grouped : inner.reading.isGrouped = true) :
    (attach operator inner.groupsBeforeOperator inner.reading).isGrouped = true := by
  cases groups : inner.groupsBeforeOperator with
  | false => exact isGrouped_onLast operator _ grouped
  | true =>
      refine (isGrouped_operator operator inner.reading).trans ?_
      rw [isOneOperand, groupsBeforeOperator_reading groups, grouped]
      rfl

mutual

theorem render_reading (rule : Rule) : rule.reading.render = rule.render := by
  cases rule with
  | terminal name => rfl
  | nonTerminal name => rfl
  | sequence items =>
      cases items with
      | nil => rfl
      | cons item rest => exact congrArg (" ".intercalate ·) (renderItems_readings (item :: rest))
  | alternative items => exact congrArg (" | ".intercalate ·) (renderBranches_readings items)
  | optional inner => exact render_attach .optional (render_reading inner)
  | zeroOrMore inner => exact render_attach .zeroOrMore (render_reading inner)
  | oneOrMore inner => exact render_attach .oneOrMore (render_reading inner)

theorem renderItems_readings (items : List Rule) :
    renderItems (readings items) = renderItems items := by
  cases items with
  | nil => rfl
  | cons item rest =>
      rw [readings, renderItems, renderItems, groupsInSequence_reading, render_reading item,
        renderItems_readings rest]

theorem renderBranches_readings (items : List Rule) :
    renderBranches (readings items) = renderBranches items := by
  cases items with
  | nil => rfl
  | cons item rest =>
      rw [readings, renderBranches, renderBranches, render_reading item,
        renderBranches_readings rest]

end

mutual

theorem symbols_reading (rule : Rule) : rule.reading.symbols = rule.symbols := by
  cases rule with
  | terminal name => rfl
  | nonTerminal name => rfl
  | sequence items => exact symbolsOfAll_readings items
  | alternative items => exact symbolsOfAll_readings items
  | optional inner => exact (symbols_attach ..).trans (symbols_reading inner)
  | zeroOrMore inner => exact (symbols_attach ..).trans (symbols_reading inner)
  | oneOrMore inner => exact (symbols_attach ..).trans (symbols_reading inner)

theorem symbolsOfAll_readings (items : List Rule) :
    symbolsOfAll (readings items) = symbolsOfAll items := by
  cases items with
  | nil => rfl
  | cons item rest =>
      rw [readings, symbolsOfAll, symbolsOfAll, symbols_reading item, symbolsOfAll_readings rest]

end

mutual

theorem isGrouped_reading (rule : Rule) : rule.reading.isGrouped = true := by
  cases rule with
  | terminal name => rfl
  | nonTerminal name => rfl
  | sequence items => exact areGrouped_readings items
  | alternative items => exact areGrouped_readings items
  | optional inner => exact isGrouped_attach .optional (isGrouped_reading inner)
  | zeroOrMore inner => exact isGrouped_attach .zeroOrMore (isGrouped_reading inner)
  | oneOrMore inner => exact isGrouped_attach .oneOrMore (isGrouped_reading inner)

theorem areGrouped_readings (items : List Rule) : areGrouped (readings items) = true := by
  cases items with
  | nil => rfl
  | cons item rest =>
      rw [readings, areGrouped, isGrouped_reading item, areGrouped_readings rest]
      rfl

end

/-- The text of any rule says the language of its reading. -/
theorem languageOfText_reading {rule : Rule} (worded : rule.Worded) :
    languageOfText rule.render = rule.reading.language := by
  have alike : rule.reading.Worded := by
    rw [Rule.Worded, symbols_reading]
    exact worded
  rw [← render_reading, languageOfText_render alike (isGrouped_reading rule)]

end RuleText

/-! ### Rules of one text -/

namespace Rule

open RuleText

/-- Rules of one text have readings of that text and of one language, which for a grouped
rule is its own. -/
theorem language_eq_of_render_eq {left right : Rule} (leftWorded : left.Worded)
    (rightWorded : right.Worded) (same : left.render = right.render) :
    (left.reading.render = left.render ∧ left.reading.language = right.reading.language) ∧
      (left.isGrouped = true → left.reading.language = left.language) ∧
      (left.isGrouped = true → right.isGrouped = true → left.language = right.language) := by
  have said : languageOfText left.render = languageOfText right.render := congrArg _ same
  refine ⟨⟨render_reading left, ?_⟩, fun grouped => ?_, fun grouped others => ?_⟩
  · rw [← languageOfText_reading leftWorded, said, languageOfText_reading rightWorded]
  · rw [← languageOfText_reading leftWorded, languageOfText_render leftWorded grouped]
  · rw [← languageOfText_render leftWorded grouped, said,
      languageOfText_render rightWorded others]

/-- Sequences of one item have no parentheses, and need none. -/
theorem language_eq_of_render_eq_nested :
    let flat : Rule := .sequence [.terminal "a",
      .zeroOrMore (.sequence [.terminal "b", .terminal "c"])]
    let nested : Rule := .sequence [.sequence [.terminal "a"],
      .zeroOrMore (.sequence [.sequence [.terminal "b"], .terminal "c"])]
    flat ≠ nested ∧ flat.render = nested.render ∧ flat.language = nested.language := by
  intro flat nested
  have same : flat.render = nested.render := by decide
  obtain ⟨-, -, languages⟩ := language_eq_of_render_eq (show flat.Worded by decide)
    (show nested.Worded by decide) same
  exact ⟨by decide, same, languages rfl rfl⟩

/-- An operator behind a sequence whose one item is a longer sequence has the text of an
operator behind its last item. -/
theorem render_eq_and_language_ne :
    ¬∀ left right : Rule, left.Worded → right.Worded → left.render = right.render →
      left.language = right.language := by
  intro claimed
  let whole : Rule := .zeroOrMore (.sequence [.sequence [.terminal "a", .terminal "b"]])
  let last : Rule := .sequence [.terminal "a", .zeroOrMore (.terminal "b")]
  have same : whole.language = last.language :=
    claimed whole last (by decide) (by decide) (by decide)
  have short : [.terminal "a"] ∈ last.language := by
    refine Language.mem_mul.mpr ⟨_, rfl, [], ?_, rfl⟩
    exact Language.mem_mul.mpr ⟨[], Language.nil_mem_kstar _, [], rfl, rfl⟩
  have rounds : ∀ word ∈ languageOfSequence [.sequence [.terminal "a", .terminal "b"]],
      Symbol.terminal "b" ∈ word := by
    intro word member
    obtain ⟨left, first, right, _, rfl⟩ := Language.mem_mul.mp member
    obtain ⟨_, _, later, second, rfl⟩ := Language.mem_mul.mp first
    obtain ⟨_, rfl, _, _, rfl⟩ := Language.mem_mul.mp second
    simp
  rw [← same] at short
  obtain ⟨words, joined, members⟩ := Language.mem_kstar.mp short
  cases words with
  | nil => cases joined
  | cons word others =>
      have second : Symbol.terminal "b" ∈ [Symbol.terminal "a"] := by
        rw [joined, List.flatten_cons]
        exact List.mem_append_left _ (rounds word (members word List.mem_cons_self))
      exact absurd second (by decide)

end Rule

end Predictive
