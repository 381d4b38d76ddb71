/-
The lexer tokenizes by longest match. A run of the automaton of a grammar stops
where no rule can match any more and accepts with the best rule that matches, so
the last accepting state on the way is the longest match; and below the limit of
offsets the bytes between two places are the characters that were read.
-/

import Mathlib.Tactic
import Predictive.Lexical.MaximalMunch
import Predictive.Proofs.Lexical.Construction
import Predictive.Proofs.Lexical.Subset

namespace Predictive

/-! ### Runs of the automaton of a grammar -/

namespace Dfa

theorem run?_append (dfa : Dfa) (id : Nat) (left right : List Char) :
    dfa.run? id (left ++ right) = (dfa.run? id left).bind fun next => dfa.run? next right := by
  induction left generalizing id with
  | nil => rfl
  | cons char rest ih =>
      simp only [List.cons_append, run?, Option.bind_assoc, ih]

def accepted? (dfa : Dfa) (text : List Char) : Option AcceptTag :=
  (dfa.run? 0 text).bind dfa.acceptOf

end Dfa

namespace MaximalMunch

variable {grammar : LexicalGrammar} {text : List Char}

theorem mem_tags_iff {set : List Nat}
    (ends : ∀ id, id ∈ set ↔ (Nfa.ofGrammar grammar).Ends [(Nfa.ofGrammar grammar).start] text id)
    {tag : AcceptTag} :
    tag ∈ set.filterMap (Nfa.ofGrammar grammar).tagOf ↔
      ∃ index rule, grammar.tokens[index]? = some rule ∧ rule.pattern.Matches text ∧
        tag = ⟨rule.name, rule.priority, index⟩ := by
  rw [← Nfa.ofGrammar_tagged_iff]
  exact Nfa.mem_tags_iff ends

theorem accepted?_eq_bestTag (grammar : LexicalGrammar) (text : List Char) :
    ∃ tags, (Dfa.ofGrammar grammar).accepted? text = Subset.bestTag tags ∧
      ∀ tag, tag ∈ tags ↔ ∃ index rule, grammar.tokens[index]? = some rule ∧
        rule.pattern.Matches text ∧ tag = ⟨rule.name, rule.priority, index⟩ := by
  have runs := Dfa.run?_ofNfa_start (Nfa.ofGrammar grammar) text
  unfold Dfa.accepted? Dfa.ofGrammar
  cases ran : (Dfa.ofNfa (Nfa.ofGrammar grammar)).run? 0 text with
  | none =>
      rw [ran] at runs
      have ends : ∀ id, id ∈ [] ↔
          (Nfa.ofGrammar grammar).Ends [(Nfa.ofGrammar grammar).start] text id :=
        fun id => ⟨nofun, fun reached => (runs id reached).elim⟩
      exact ⟨[], rfl, fun tag => mem_tags_iff ends⟩
  | some id =>
      rw [ran] at runs
      obtain ⟨set, accepts, ends⟩ := runs
      exact ⟨_, accepts, fun tag => mem_tags_iff ends⟩

theorem accepted?_ofGrammar (grammar : LexicalGrammar) (text : List Char) :
    match (Dfa.ofGrammar grammar).accepted? text with
    | some tag => ∃ index rule, Named grammar text index rule ∧ tag.kind = rule.name
    | none => ¬Matched grammar text := by
  obtain ⟨tags, accepts, members⟩ := accepted?_eq_bestTag grammar text
  rw [accepts]
  cases best : Subset.bestTag tags with
  | none =>
      rintro ⟨rule, member, matched⟩
      obtain ⟨index, found⟩ := List.mem_iff_getElem?.mp member
      have tagged := (members _).mpr ⟨index, rule, found, matched, rfl⟩
      rw [Subset.bestTag_eq_none best] at tagged
      cases tagged
  | some tag =>
      obtain ⟨member, unbeaten⟩ := Subset.bestTag_eq_some best
      obtain ⟨index, rule, found, matched, rfl⟩ := (members tag).mp member
      refine ⟨index, rule, ⟨found, matched, ?_⟩, rfl⟩
      intro other rival rivalFound rivalMatched
      have notBeaten := unbeaten _ ((members _).mpr ⟨other, rival, rivalFound, rivalMatched, rfl⟩)
      rw [Subset.beats_iff] at notBeaten
      simp only at notBeaten
      omega

/-! ### The longest match -/

/-- What is known about the longest match after reading some text from a place. -/
def Best (dfa : Dfa) (start : Position) (read : List Char) :
    Option (Position × AcceptTag) → Prop
  | none => ∀ beginning, beginning <+: read → beginning ≠ [] → dfa.accepted? beginning = none
  | some (stop, tag) => ∃ lexeme, lexeme <+: read ∧ lexeme ≠ [] ∧
      stop = start.advanceOver lexeme ∧ dfa.accepted? lexeme = some tag ∧
        ∀ longer, longer <+: read → lexeme.length < longer.length → dfa.accepted? longer = none

theorem Best.extend {dfa : Dfa} {start : Position} {read more : List Char}
    {best : Option (Position × AcceptTag)} (known : Best dfa start read best)
    (refused : ∀ longer, longer <+: read ++ more → read.length < longer.length →
      dfa.accepted? longer = none) : Best dfa start (read ++ more) best := by
  have either : ∀ beginning, beginning <+: read ++ more →
      beginning <+: read ∨ dfa.accepted? beginning = none := by
    intro beginning isPrefix
    by_cases short : beginning.length ≤ read.length
    · exact Or.inl (List.prefix_of_prefix_length_le isPrefix (List.prefix_append ..) short)
    · exact Or.inr (refused beginning isPrefix (Nat.lt_of_not_le short))
  match best with
  | none =>
      intro beginning isPrefix nonempty
      exact (either beginning isPrefix).elim (fun inRead => known beginning inRead nonempty) id
  | some (stop, tag) =>
      obtain ⟨lexeme, inRead, nonempty, same, accepts, longest⟩ := known
      refine ⟨lexeme, inRead.trans (List.prefix_append ..), nonempty, same, accepts, ?_⟩
      intro longer isPrefix longerLength
      exact (either longer isPrefix).elim (fun inRead => longest longer inRead longerLength) id

theorem Best.enter {dfa : Dfa} {start : Position} {read : List Char} {char : Char} {next : Nat}
    {best : Option (Position × AcceptTag)} (known : Best dfa start read best)
    (arrived : dfa.run? 0 (read ++ [char]) = some next) :
    Best dfa start (read ++ [char])
      (match dfa.acceptOf next with
      | some tag => some (start.advanceOver (read ++ [char]), tag)
      | none => best) := by
  cases accepts : dfa.acceptOf next with
  | some tag =>
      refine ⟨read ++ [char], List.prefix_refl _, ?_, rfl, ?_, ?_⟩
      · exact List.append_ne_nil_of_right_ne_nil _ (List.cons_ne_nil _ _)
      · rw [Dfa.accepted?, arrived, Option.bind_some, accepts]
      · intro longer isPrefix longerLength
        exact (Nat.not_lt_of_le isPrefix.length_le longerLength).elim
  | none =>
      apply known.extend
      intro longer isPrefix longerLength
      have same : longer = read ++ [char] := by
        apply isPrefix.eq_of_length_le
        rw [List.length_append]
        exact longerLength
      rw [same, Dfa.accepted?, arrived, Option.bind_some, accepts]

theorem Best.stuck {dfa : Dfa} {start : Position} {read : List Char} {char : Char}
    {best : Option (Position × AcceptTag)} (known : Best dfa start read best)
    (stops : dfa.run? 0 (read ++ [char]) = none) (rest : List Char) :
    Best dfa start (read ++ char :: rest) best := by
  apply known.extend
  intro longer isPrefix longerLength
  obtain ⟨after, rfl⟩ : read ++ [char] <+: longer := by
    refine List.prefix_of_prefix_length_le ⟨rest, ?_⟩ isPrefix ?_
    · exact List.append_assoc read [char] rest
    · rw [List.length_append]
      exact longerLength
  rw [Dfa.accepted?, Dfa.run?_append, stops]
  rfl

/-- Driving the automaton finds the longest match. -/
theorem longestMatch_best {dfa : Dfa} {start : Position} (text : List Char) {read : List Char}
    {id : Nat} {best : Option (Position × AcceptTag)} (reached : dfa.run? 0 read = some id)
    (known : Best dfa start read best) :
    Best dfa start (read ++ text)
      (Scanner.longestMatch dfa id (start.advanceOver read) best text) := by
  induction text generalizing read id best with
  | nil =>
      rw [List.append_nil]
      exact known
  | cons char rest ih =>
      have onward : dfa.run? 0 (read ++ [char]) = dfa.next? id char := by
        rw [Dfa.run?_append, reached, Option.bind_some, Dfa.run?]
        cases dfa.next? id char <;> rfl
      unfold Scanner.longestMatch
      split
      case h_1 stops => exact known.stuck (onward.trans stops) rest
      case h_2 next goes =>
        have arrived : dfa.run? 0 (read ++ [char]) = some next := onward.trans goes
        have regrouped : read ++ char :: rest = (read ++ [char]) ++ rest :=
          (List.append_assoc read [char] rest).symm
        have position : start.advanceOver (read ++ [char]) =
            (start.advanceOver read).advance char := by
          rw [Position.advanceOver_append]
          rfl
        rw [regrouped, ← position]
        exact ih arrived (known.enter arrived)

theorem longestMatch_start (dfa : Dfa) (start : Position) (text : List Char) :
    Best dfa start text (Scanner.longestMatch dfa 0 start none text) := by
  have nothing : Best dfa start [] none := fun beginning isPrefix nonempty =>
    (nonempty (List.prefix_nil.mp isPrefix)).elim
  exact longestMatch_best text rfl nothing

theorem longestMatch_ofGrammar (grammar : LexicalGrammar) (start : Position) (text : List Char) :
    match Scanner.longestMatch (.ofGrammar grammar) 0 start none text with
    | some (stop, tag) => ∃ lexeme rest index rule, text = lexeme ++ rest ∧
        stop = start.advanceOver lexeme ∧ Longest grammar lexeme rest ∧
          Named grammar lexeme index rule ∧ tag.kind = rule.name
    | none => ∀ beginning, beginning <+: text → beginning ≠ [] → ¬Matched grammar beginning := by
  have refused : ∀ {beginning}, (Dfa.ofGrammar grammar).accepted? beginning = none →
      ¬Matched grammar beginning := by
    intro beginning none
    have accepts := accepted?_ofGrammar grammar beginning
    rwa [none] at accepts
  have best := longestMatch_start (.ofGrammar grammar) start text
  match Scanner.longestMatch (.ofGrammar grammar) 0 start none text, best with
  | none, best =>
      exact fun beginning isPrefix nonempty => refused (best beginning isPrefix nonempty)
  | some (stop, tag), ⟨lexeme, ⟨rest, whole⟩, nonempty, same, accepts, longest⟩ =>
      have named := accepted?_ofGrammar grammar lexeme
      rw [accepts] at named
      obtain ⟨index, rule, named, kind⟩ := named
      refine ⟨lexeme, rest, index, rule, whole.symm, same, ⟨nonempty, ?_, ?_⟩, named, kind⟩
      · exact ⟨rule, List.mem_of_getElem? named.declared, named.accepted⟩
      · exact fun longer isPrefix longerLength =>
          refused (longest longer (whole ▸ isPrefix) longerLength)

/-! ### The scanner -/

theorem offset_advanceOver_eq_add {start : Position} (bounded : start.offset ≤ Offset.limit)
    (text : List Char) :
    (start.advanceOver text).offset = Offset.add start.offset (Text.byteLength text) := by
  induction text generalizing start with
  | nil => exact (Nat.min_eq_left bounded).symm
  | cons char rest ih =>
      have advanced : (start.advance char).offset = Offset.add start.offset char.utf8Size := by
        rw [Position.advance]
        split <;> rfl
      have stillBounded : (start.advance char).offset ≤ Offset.limit := by
        rw [advanced]
        exact Offset.add_le_limit _ _
      rw [Position.advanceOver_cons, ih stillBounded, advanced, Offset.add_add,
        Text.byteLength_cons]

theorem offset_advanceOver {start : Position} {text : List Char}
    (fits : start.offset + Text.byteLength text ≤ Offset.limit) :
    (start.advanceOver text).offset = start.offset + Text.byteLength text := by
  rw [offset_advanceOver_eq_add (by omega), Offset.add_eq_of_le fits]

theorem next_of_found {dfa : Dfa} {cursor stop : Position} {piece rest : List Char}
    {tag : AcceptTag}
    (found : Scanner.longestMatch dfa 0 cursor none (piece ++ rest) = some (stop, tag))
    (size : stop.offset - cursor.offset = Text.byteLength piece) :
    Scanner.next dfa ⟨piece ++ rest, cursor, false⟩ =
      (some (.ok ⟨tag.kind, String.ofList piece, ⟨cursor.offset, stop.offset⟩, cursor.line,
        cursor.column⟩), ⟨rest, stop, false⟩) := by
  have cut := Text.splitBytes?_byteLength piece rest
  cases whole : piece ++ rest with
  | nil =>
      rw [whole] at found
      cases found
  | cons first others =>
      rw [whole] at found cut
      simp only [Scanner.next, Bool.false_eq_true, if_false, found, size, cut, Option.getD_some]

theorem items_of_match {dfa : Dfa} {fuel : Nat} {cursor : Position} {lexeme rest : List Char}
    {tag : AcceptTag}
    (found : Scanner.longestMatch dfa 0 cursor none (lexeme ++ rest) =
      some (cursor.advanceOver lexeme, tag)) (nonempty : lexeme ≠ [])
    (enough : (lexeme ++ rest).length < fuel + 1)
    (fits : cursor.offset + Text.byteLength (lexeme ++ rest) ≤ Offset.limit) :
    Scanner.items dfa (fuel + 1) ⟨lexeme ++ rest, cursor, false⟩ =
        .ok (tokenAt cursor tag.kind lexeme) ::
          Scanner.items dfa fuel ⟨rest, cursor.advanceOver lexeme, false⟩ ∧
      rest.length < fuel ∧
        (cursor.advanceOver lexeme).offset + Text.byteLength rest ≤ Offset.limit := by
  rw [Text.byteLength_append] at fits
  rw [List.length_append] at enough
  have positive := List.length_pos_iff.mpr nonempty
  have stop : (cursor.advanceOver lexeme).offset = cursor.offset + Text.byteLength lexeme :=
    offset_advanceOver (by omega)
  have size : (cursor.advanceOver lexeme).offset - cursor.offset = Text.byteLength lexeme := by
    rw [stop, Nat.add_sub_cancel_left]
  refine ⟨?_, by omega, by omega⟩
  rw [Scanner.items, next_of_found found size]
  rfl

theorem next_of_fault {dfa : Dfa} {cursor : Position} {first : Char} {rest : List Char}
    (nothing : Scanner.longestMatch dfa 0 cursor none (first :: rest) = none) :
    Scanner.next dfa ⟨first :: rest, cursor, false⟩ =
      (some (.error (.located (.unexpectedChar first) cursor first.utf8Size)),
        ⟨first :: rest, cursor, true⟩) := by
  simp only [Scanner.next, Bool.false_eq_true, if_false, nothing]

/-- What a scanner yields is the tokenization of the text that is left. -/
theorem tokenizes_items (grammar : LexicalGrammar) (fuel : Nat) {text : List Char}
    {cursor : Position} (enough : text.length < fuel)
    (fits : cursor.offset + Text.byteLength text ≤ Offset.limit) :
    Tokenizes grammar cursor text
      (firstError (Scanner.items (.ofGrammar grammar) fuel ⟨text, cursor, false⟩)) := by
  induction fuel generalizing text cursor with
  | zero => exact (Nat.not_lt_zero _ enough).elim
  | succ fuel ih =>
      have found := longestMatch_ofGrammar grammar cursor text
      cases isMatch : Scanner.longestMatch (.ofGrammar grammar) 0 cursor none text with
      | none =>
          rw [isMatch] at found
          cases text with
          | nil => exact .done cursor
          | cons first rest =>
              rw [Scanner.items, next_of_fault isMatch]
              exact .fault found
      | some pair =>
          obtain ⟨stop, tag⟩ := pair
          rw [isMatch] at found
          obtain ⟨lexeme, rest, index, rule, rfl, rfl, longest, named, kind⟩ := found
          obtain ⟨items, restEnough, restFits⟩ :=
            items_of_match isMatch longest.nonempty enough fits
          rw [items, kind]
          exact .token longest named (ih restEnough restFits)

/-! ### Tokenization is determined -/

theorem Longest.unique {lexeme rest other otherRest : List Char}
    (longest : Longest grammar lexeme rest) (otherLongest : Longest grammar other otherRest)
    (same : lexeme ++ rest = other ++ otherRest) : lexeme = other ∧ rest = otherRest := by
  have bounded : ∀ {left right leftRest rightRest : List Char}, Longest grammar left leftRest →
      Longest grammar right rightRest → left ++ leftRest = right ++ rightRest →
        right.length ≤ left.length := by
    intro left right leftRest rightRest isLongest isOther equal
    apply Nat.le_of_not_lt
    intro longer
    exact isLongest.longest right ⟨rightRest, equal.symm⟩ longer isOther.accepted
  have lengths : lexeme.length = other.length :=
    Nat.le_antisymm (bounded otherLongest longest same.symm) (bounded longest otherLongest same)
  exact List.append_inj same lengths

theorem Named.unique {index other : Nat} {rule rival : TokenRule}
    (named : Named grammar text index rule) (otherNamed : Named grammar text other rival) :
    rule = rival := by
  have first := named.best other rival otherNamed.declared otherNamed.accepted
  have second := otherNamed.best index rule named.declared named.accepted
  have same : index = other := by omega
  have declared := named.declared
  rw [same, otherNamed.declared] at declared
  exact (Option.some.inj declared).symm

theorem Tokenizes.unique {position : Position} {left right : Except LexError (List Token)}
    (tokenized : Tokenizes grammar position text left)
    (other : Tokenizes grammar position text right) : left = right := by
  induction tokenized generalizing right with
  | done position =>
      generalize empty : ([] : List Char) = text at other
      cases other with
      | done => rfl
      | token longest =>
          exact (longest.nonempty (List.append_eq_nil_iff.mp empty.symm).1).elim
      | fault => cases empty
  | @token position lexeme rest index rule result longest named others ih =>
      generalize whole : lexeme ++ rest = text at other
      cases other with
      | done => exact (longest.nonempty (List.append_eq_nil_iff.mp whole).1).elim
      | token otherLongest otherNamed otherRest =>
          obtain ⟨rfl, rfl⟩ := longest.unique otherLongest whole
          rw [named.unique otherNamed, ih otherRest]
      | fault nothing =>
          exact (nothing lexeme ⟨rest, whole⟩ longest.nonempty longest.accepted).elim
  | @fault position first rest nothing =>
      generalize whole : first :: rest = text at other
      cases other with
      | done => cases whole
      | token longest =>
          refine (nothing _ ?_ longest.nonempty longest.accepted).elim
          rw [whole]
          exact List.prefix_append ..
      | fault =>
          cases whole
          rfl

/-- Tokenizing by the automaton of a grammar is longest-match tokenization by its
patterns. -/
theorem tokenize_eq_iff_tokenizes (grammar : LexicalGrammar) (text : List Char)
    (fits : Text.byteLength text ≤ Offset.limit) (result : Except LexError (List Token)) :
    Dfa.tokenize (.ofGrammar grammar) text = result ↔
      Tokenizes grammar .origin text result := by
  have tokenized : Tokenizes grammar .origin text (Dfa.tokenize (.ofGrammar grammar) text) := by
    apply tokenizes_items grammar (text.length + 1) (Nat.lt_succ_self _)
    rwa [Position.origin, Nat.zero_add]
  constructor
  · rintro rfl
    exact tokenized
  · exact fun other => tokenized.unique other

/-- A match that is given up halfway, and two rules for one text. -/
def overlapping : LexicalGrammar :=
  ⟨[⟨"short", .literal "a", 0⟩, ⟨"long", .literal "abc", 0⟩, ⟨"plain", .range 'b' 'c', 0⟩,
    ⟨"special", .literal "b", 1⟩]⟩

set_option maxRecDepth 4000 in
theorem tokenizes_overlapping :
    Text.byteLength ['a', 'b', 'b'] ≤ Offset.limit ∧
      Tokenizes overlapping .origin ['a', 'b', 'b']
        (.ok [tokenAt .origin "short" ['a'], tokenAt ⟨1, 1, 2⟩ "special" ['b'],
          tokenAt ⟨2, 1, 3⟩ "special" ['b']]) := by
  have fits : Text.byteLength ['a', 'b', 'b'] ≤ Offset.limit := by decide
  have computed : Dfa.tokenize (.ofGrammar overlapping) ['a', 'b', 'b'] =
      .ok [tokenAt .origin "short" ['a'], tokenAt ⟨1, 1, 2⟩ "special" ['b'],
        tokenAt ⟨2, 1, 3⟩ "special" ['b']] := by cbv
  exact ⟨fits, (tokenize_eq_iff_tokenizes overlapping _ fits _).mp computed⟩

end MaximalMunch

end Predictive
