/-
How the calculator's operators are spelled. A token is cut from the text between two
recorded offsets, and offsets stop at their limit. An operator is one byte long, so
its token either has the operator as its text, or stands at the limit; and there the
same match is found again at every call, so all tokens behind it are of its kind.
-/

import Predictive.Calculator
import Predictive.Proofs.Lexical.CanonicalForm
import Predictive.Proofs.Parsing.Location

namespace Predictive

namespace MaximalMunch

variable {grammar : LexicalGrammar} {cursor : Position} {text lexeme rest : List Char}
  {tokens : List Token}

/-! ### One token at any offset -/

structure Cut (grammar : LexicalGrammar) (cursor : Position) (lexeme rest : List Char)
    (rule : TokenRule) (token : Token) (after : Scanner) : Prop where
  longest : Longest grammar lexeme rest
  named : ∃ index, Named grammar lexeme index rule
  kind : token.kind = rule.name
  running : after.ended = false
  stop : after.cursor = cursor.advanceOver lexeme
  /-- Up to the limit the whole lexeme is taken. -/
  whole : cursor.offset + Text.byteLength lexeme ≤ Offset.limit → token.text = String.ofList lexeme
  /-- At the limit nothing is taken. -/
  stalled : cursor.offset = Offset.limit → after.rest = lexeme ++ rest

theorem offset_advanceOver_limit (atLimit : cursor.offset = Offset.limit) (text : List Char) :
    (cursor.advanceOver text).offset = Offset.limit := by
  rw [offset_advanceOver_eq_add (Nat.le_of_eq atLimit), atLimit]
  exact Nat.min_eq_right (Nat.le_add_right _ _)

theorem offset_advanceOver_le (bounded : cursor.offset ≤ Offset.limit) (text : List Char) :
    (cursor.advanceOver text).offset ≤ Offset.limit := by
  rw [offset_advanceOver_eq_add bounded]
  exact Offset.add_le_limit _ _

theorem next_of_longestMatch {dfa : Dfa} {stop : Position} {tag : AcceptTag}
    (found : Scanner.longestMatch dfa 0 cursor none text = some (stop, tag)) :
    Scanner.next dfa ⟨text, cursor, false⟩ =
      let cut := (Text.splitBytes? (stop.offset - cursor.offset) text).getD ([], [])
      (some (.ok ⟨tag.kind, String.ofList cut.1, ⟨cursor.offset, stop.offset⟩, cursor.line,
        cursor.column⟩), ⟨cut.2, stop, false⟩) := by
  cases text with
  | nil => cases found
  | cons first others => simp only [Scanner.next, Bool.false_eq_true, if_false, found]

theorem exists_cut {token : Token} {after : Scanner}
    (found : Scanner.next (.ofGrammar grammar) ⟨text, cursor, false⟩ = (some (.ok token), after)) :
    ∃ lexeme rest rule, text = lexeme ++ rest ∧
      Cut grammar cursor lexeme rest rule token after := by
  have best := longestMatch_ofGrammar grammar cursor text
  cases isMatch : Scanner.longestMatch (.ofGrammar grammar) 0 cursor none text with
  | none =>
      cases text with
      | nil => cases found
      | cons first others => cases (next_of_fault isMatch).symm.trans found
  | some pair =>
      obtain ⟨stop, tag⟩ := pair
      rw [isMatch] at best
      obtain ⟨lexeme, rest, index, rule, rfl, rfl, longest, named, kind⟩ := best
      rw [next_of_longestMatch isMatch] at found
      cases found
      refine ⟨lexeme, rest, rule, rfl, longest, ⟨index, named⟩, kind, rfl, rfl, ?_, ?_⟩
      · intro fits
        have size : (cursor.advanceOver lexeme).offset - cursor.offset =
            Text.byteLength lexeme := by
          rw [offset_advanceOver fits, Nat.add_sub_cancel_left]
        simp only [size, Text.splitBytes?_byteLength, Option.getD_some]
      · intro atLimit
        have size : (cursor.advanceOver lexeme).offset - cursor.offset = Text.byteLength [] := by
          rw [offset_advanceOver_limit atLimit, atLimit]
          exact Nat.sub_self _
        have none := Text.splitBytes?_byteLength [] (lexeme ++ rest)
        simp only [size, List.nil_append] at none ⊢
        rw [none, Option.getD_some]

theorem items_succ_ok {dfa : Dfa} {fuel : Nat} {scanner : Scanner} {token : Token}
    (found : Scanner.items dfa (fuel + 1) scanner = (token :: tokens).map .ok) :
    Scanner.next dfa scanner = (some (.ok token), (scanner.next dfa).2) ∧
      Scanner.items dfa fuel (scanner.next dfa).2 = tokens.map .ok := by
  unfold Scanner.items at found
  split at found
  case h_1 item after same =>
    obtain ⟨rfl, later⟩ := List.cons.inj (found.trans List.map_cons)
    rw [same]
    exact ⟨rfl, later⟩
  case h_2 => cases found

/-- At the limit every token has the kind of the match in front. -/
theorem kind_of_limit {rule : TokenRule} {fuel index : Nat} (longest : Longest grammar lexeme rest)
    (named : Named grammar lexeme index rule) (atLimit : cursor.offset = Offset.limit)
    (found : Scanner.items (.ofGrammar grammar) fuel ⟨lexeme ++ rest, cursor, false⟩ =
      tokens.map .ok) : ∀ token ∈ tokens, token.kind = rule.name := by
  induction fuel generalizing cursor tokens with
  | zero =>
      cases List.map_eq_nil_iff.mp found.symm
      nofun
  | succ fuel ih =>
      cases tokens with
      | nil => nofun
      | cons first others =>
          obtain ⟨called, later⟩ := items_succ_ok found
          obtain ⟨other, otherRest, rival, same, cut⟩ := exists_cut called
          obtain ⟨otherIndex, otherNamed⟩ := cut.named
          obtain ⟨rfl, rfl⟩ := longest.unique cut.longest same
          have kind := cut.kind
          rw [otherNamed.unique named] at kind
          generalize next : (Scanner.next (.ofGrammar grammar) ⟨lexeme ++ rest, cursor, false⟩).2 =
            after at cut later
          obtain ⟨left, stop, ended⟩ := after
          cases cut.running
          cases cut.stop
          cases cut.stalled atLimit
          intro token member
          rcases List.mem_cons.mp member with rfl | inOthers
          · exact kind
          · exact ih (offset_advanceOver_limit atLimit lexeme) later token inOthers

end MaximalMunch

namespace Calculator

open MaximalMunch

/-! ### Operator tokens -/

structure Spelled (token : Token) : Prop where
  add : token.kind = "ADD" → token.text = "+" ∨ token.text = "-"
  mul : token.kind = "MUL" → token.text = "*" ∨ token.text = "/"

/-- Tokens are spelled up to one behind which all are of its kind. -/
inductive Written : List Token → Prop where
  | nil : Written []
  | cons {token : Token} {rest : List Token} (spelled : Spelled token) (others : Written rest) :
      Written (token :: rest)
  | stalled {token : Token} {rest : List Token} (same : ∀ later ∈ rest, later.kind = token.kind) :
      Written (token :: rest)

theorem mem_of_matches_oneOf {chars lexeme : List Char}
    (accepted : (Pattern.oneOf chars).Matches lexeme) : ∃ char ∈ chars, lexeme = [char] := by
  cases accepted with
  | set member => exact ⟨_, CharSet.contains_ofChars_iff.mp member, rfl⟩

theorem pattern_of_name {rule : TokenRule} (member : rule ∈ lexical.tokens) :
    (rule.name = "ADD" → rule.pattern = .oneOf ['+', '-']) ∧
      (rule.name = "MUL" → rule.pattern = .oneOf ['*', '/']) := by
  simp only [lexical, List.mem_cons, List.not_mem_nil, or_false] at member
  rcases member with rfl | rfl | rfl | rfl | rfl | rfl <;> simp

theorem spelled_of_cut {cursor : Position} {lexeme rest : List Char} {rule : TokenRule}
    {token : Token} {after : Scanner} (cut : Cut lexical cursor lexeme rest rule token after)
    (below : cursor.offset < Offset.limit) : Spelled token := by
  obtain ⟨index, named⟩ := cut.named
  obtain ⟨add, mul⟩ := pattern_of_name (List.mem_of_getElem? named.declared)
  have short : ∀ {left right : Char}, left.utf8Size = 1 → right.utf8Size = 1 →
      rule.pattern = .oneOf [left, right] →
        token.text = String.ofList [left] ∨ token.text = String.ofList [right] := by
    intro left right leftSize rightSize pattern
    obtain ⟨char, member, rfl⟩ := mem_of_matches_oneOf (pattern ▸ named.accepted)
    rcases List.mem_pair.mp member with rfl | rfl
    · exact Or.inl (cut.whole (by rw [Text.byteLength_cons, leftSize]; exact below))
    · exact Or.inr (cut.whole (by rw [Text.byteLength_cons, rightSize]; exact below))
  rw [← cut.kind] at add mul
  exact ⟨fun kind => short rfl rfl (add kind), fun kind => short rfl rfl (mul kind)⟩

theorem written_items {fuel : Nat} {text : List Char} {cursor : Position} {tokens : List Token}
    (bounded : cursor.offset ≤ Offset.limit)
    (found : Scanner.items (.ofGrammar lexical) fuel ⟨text, cursor, false⟩ = tokens.map .ok) :
    Written tokens := by
  induction fuel generalizing text cursor tokens with
  | zero =>
      cases List.map_eq_nil_iff.mp found.symm
      exact .nil
  | succ fuel ih =>
      cases tokens with
      | nil => exact .nil
      | cons token others =>
          obtain ⟨called, later⟩ := items_succ_ok found
          obtain ⟨lexeme, rest, rule, rfl, cut⟩ := exists_cut called
          rcases Nat.lt_or_eq_of_le bounded with below | atLimit
          · generalize Scanner.next (.ofGrammar lexical) ⟨lexeme ++ rest, cursor, false⟩ = result
              at cut later
            obtain ⟨_, left, stop, ended⟩ := result
            cases cut.running
            cases cut.stop
            exact .cons (spelled_of_cut cut below) (ih (offset_advanceOver_le bounded lexeme) later)
          -- Nothing is taken at the limit, so the match in front is found from now on.
          · obtain ⟨index, named⟩ := cut.named
            have same := kind_of_limit cut.longest named atLimit found
            refine .stalled fun other member => ?_
            rw [same other (List.mem_cons_of_mem _ member), cut.kind]

theorem written_of_tokenize {text : List Char} {tokens : List Token}
    (tokenized : Dfa.tokenize (.ofGrammar lexical) text = .ok tokens) : Written tokens :=
  written_items (Nat.zero_le _) (Coverage.eq_map_of_firstError tokenized)

theorem Spelled.of_operand {token : Token} (notAdd : token.kind ≠ "ADD")
    (notMul : token.kind ≠ "MUL") : Spelled token :=
  ⟨fun same => (notAdd same).elim, fun same => (notMul same).elim⟩

/-- When the tokens that are kept do not end in an operator, they are all spelled. -/
theorem Written.spelled {tokens : List Token} (written : Written tokens)
    (ends : ∀ last, (config.kept tokens).getLast? = some last →
      last.kind ≠ "ADD" ∧ last.kind ≠ "MUL") : ∀ token ∈ config.kept tokens, Spelled token := by
  induction written with
  | nil => nofun
  | @cons token rest spelled others ih =>
      have kept : config.kept (token :: rest) = config.kept rest ∨
          config.kept (token :: rest) = token :: config.kept rest := by
        rw [ParserConfig.kept, List.filter_cons]
        split
        case isTrue => exact Or.inr rfl
        case isFalse => exact Or.inl rfl
      rcases kept with same | same
      · rw [same] at ends ⊢
        exact ih ends
      · rw [same] at ends ⊢
        have restEnds : ∀ last, (config.kept rest).getLast? = some last →
            last.kind ≠ "ADD" ∧ last.kind ≠ "MUL" := by
          intro last found
          apply ends
          rw [List.getLast?_cons, found, Option.getD_some]
        intro other member
        rcases List.mem_cons.mp member with rfl | inRest
        · exact spelled
        · exact ih restEnds other inRest
  | @stalled token rest same =>
      intro other member
      have kind : ∀ item ∈ config.kept (token :: rest), item.kind = token.kind := by
        intro item inKept
        rcases List.mem_cons.mp (List.mem_filter.mp inKept).1 with rfl | inRest
        · rfl
        · exact same item inRest
      have found := List.getLast?_eq_some_getLast (List.ne_nil_of_mem member)
      obtain ⟨notAdd, notMul⟩ := ends _ found
      rw [kind _ (List.getLast_mem _), ← kind other member] at notAdd notMul
      exact .of_operand notAdd notMul

end Calculator

end Predictive
