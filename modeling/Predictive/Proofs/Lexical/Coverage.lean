/-
Tokens cover the text, whatever the automaton: no state, arc or target is trusted.
Each item that is yielded takes a nonempty piece from the front of what is left, so
the pieces lie side by side from the first byte on, and up to the limit of offsets
the places counted on the way are the places that a scan of the text from its start
finds.
-/

import Predictive.Proofs.Lexical.MaximalMunch

namespace Predictive

/-! ### Places in a text -/

namespace Text

/-- The characters on the bytes of a span, when both its ends lie between characters. -/
def slice? (text : List Char) (span : Span) : Option (List Char) :=
  (splitBytes? span.start text).bind fun (_, behind) =>
    (splitBytes? span.length behind).map Prod.fst

theorem slice?_append (before inside after : List Char) :
    slice? (before ++ (inside ++ after)) ⟨byteLength before, byteLength (before ++ inside)⟩ =
      some inside := by
  have length : Span.length ⟨byteLength before, byteLength (before ++ inside)⟩ =
      byteLength inside := by
    rw [Span.length, byteLength_append, Nat.add_sub_cancel_left]
  simp only [slice?, splitBytes?_byteLength, Option.bind_some, length, Option.map_some]

end Text

namespace Position

/-- A place just behind a text: its bytes, the newlines in it and the characters
since the last of them. -/
structure Behind (before : List Char) (position : Position) : Prop where
  offset : position.offset = Text.byteLength before
  line : position.line = 1 + before.count '\n'
  column : position.column = 1 + (before.reverse.takeWhile (· ≠ '\n')).length

theorem advanceWithin_append (position : Position) (before after : List Char) :
    position.advanceWithin (Text.byteLength before) (before ++ after) =
      position.advanceOver before := by
  induction before generalizing position with
  | nil =>
      cases after with
      | nil => rfl
      | cons char rest =>
          have positive : 0 < char.utf8Size := Char.utf8Size_pos char
          simp only [List.nil_append, Text.byteLength_nil, advanceWithin, advanceOver_nil]
          rw [if_neg (by omega)]
  | cons char rest ih =>
      rw [List.cons_append, advanceWithin, Text.byteLength_cons,
        if_pos (Nat.le_add_right _ _), Nat.add_sub_cancel_left, ih, advanceOver_cons]

theorem ofOffset_byteLength (before after : List Char) :
    ofOffset (String.ofList (before ++ after)) (Text.byteLength before) =
      origin.advanceOver before := by
  rw [ofOffset, String.toList_ofList, advanceWithin_append]

theorem Behind.advance {before : List Char} {position : Position} {char : Char}
    (behind : position.Behind before)
    (fits : Text.byteLength (before ++ [char]) < Offset.limit) :
    (position.advance char).Behind (before ++ [char]) := by
  have short := Text.length_le_byteLength (before ++ [char])
  rw [List.length_append, List.length_singleton] at short
  have grown : Text.byteLength (before ++ [char]) = Text.byteLength before + char.utf8Size := by
    rw [Text.byteLength_append, Text.byteLength_cons, Text.byteLength_nil, Nat.add_zero]
  have bytes : Offset.add position.offset char.utf8Size = Text.byteLength (before ++ [char]) := by
    rw [behind.offset, grown]
    exact Offset.add_eq_of_le (by omega)
  unfold Position.advance
  by_cases newline : char = '\n'
  · subst newline
    have lines : before.count '\n' ≤ before.length := List.count_le_length
    have next : Offset.add position.line 1 = position.line + 1 :=
      Offset.add_eq_of_le (by rw [behind.line]; omega)
    rw [if_pos rfl]
    constructor
    · exact bytes
    · rw [next, behind.line, List.count_append, List.count_singleton_self, Nat.add_assoc]
    · rw [List.reverse_concat, List.takeWhile_cons_of_neg (by simp)]
      rfl
  · have columns : (before.reverse.takeWhile (· ≠ '\n')).length ≤ before.length := by
      have front := (List.takeWhile_prefix (l := before.reverse) (· ≠ '\n')).length_le
      rwa [List.length_reverse] at front
    have next : Offset.add position.column 1 = position.column + 1 :=
      Offset.add_eq_of_le (by rw [behind.column]; omega)
    rw [if_neg newline]
    constructor
    · exact bytes
    · rw [behind.line, List.count_append, List.count_singleton, if_neg (by simpa using newline),
        Nat.add_zero]
    · rw [next, behind.column, List.reverse_concat,
        List.takeWhile_cons_of_pos (by simpa using newline), List.length_cons, Nat.add_assoc]

theorem origin_advanceOver_behind (before : List Char)
    (fits : Text.byteLength before < Offset.limit) :
    (origin.advanceOver before).Behind before := by
  induction before using List.reverseRecOn with
  | nil => exact ⟨rfl, rfl, rfl⟩
  | append_singleton before char ih =>
      rw [advanceOver_append]
      have less : Text.byteLength before ≤ Text.byteLength (before ++ [char]) := by
        rw [Text.byteLength_append]
        exact Nat.le_add_right _ _
      exact (ih (Nat.lt_of_le_of_lt less fits)).advance fits

end Position

namespace Coverage

open MaximalMunch (tokenAt longestMatch_start items_of_match next_of_fault offset_advanceOver)

/-! ### What a scanner yields -/

def spelling (tokens : List Token) : List Char := tokens.flatMap fun token => token.text.toList

/-- Items that take a text from a place on piece by piece, none of them empty, up to
its end or to a character that no token begins with. -/
inductive Tiles : Position → List Char → List (Except LexError Token) → Prop where
  | done (position : Position) : Tiles position [] []
  | token {position : Position} {lexeme rest : List Char} {items : List (Except LexError Token)}
      (kind : String) (nonempty : lexeme ≠ [])
      (others : Tiles (position.advanceOver lexeme) rest items) :
      Tiles position (lexeme ++ rest) (.ok (tokenAt position kind lexeme) :: items)
  | fault (position : Position) (first : Char) (rest : List Char) :
      Tiles position (first :: rest)
        [.error (.located (.unexpectedChar first) position first.utf8Size)]

theorem tiles_items (dfa : Dfa) (fuel : Nat) {text : List Char} {cursor : Position}
    (enough : text.length < fuel)
    (fits : cursor.offset + Text.byteLength text ≤ Offset.limit) :
    Tiles cursor text (Scanner.items dfa fuel ⟨text, cursor, false⟩) := by
  induction fuel generalizing text cursor with
  | zero => exact (Nat.not_lt_zero _ enough).elim
  | succ fuel ih =>
      have found := longestMatch_start dfa cursor text
      cases isMatch : Scanner.longestMatch dfa 0 cursor none text with
      | none =>
          cases text with
          | nil => exact .done cursor
          | cons first rest =>
              rw [Scanner.items, next_of_fault isMatch]
              cases fuel <;> exact .fault cursor first rest
      | some pair =>
          obtain ⟨stop, tag⟩ := pair
          rw [isMatch] at found
          obtain ⟨lexeme, ⟨rest, rfl⟩, nonempty, rfl, -, -⟩ := found
          obtain ⟨items, restEnough, restFits⟩ := items_of_match isMatch nonempty enough fits
          rw [items]
          exact .token tag.kind nonempty (ih restEnough restFits)

/-! ### Where the tokens stand -/

@[simp]
theorem spelling_nil : spelling [] = [] := rfl

@[simp]
theorem spelling_cons (token : Token) (tokens : List Token) :
    spelling (token :: tokens) = token.text.toList ++ spelling tokens := rfl

theorem spelling_append (left right : List Token) :
    spelling (left ++ right) = spelling left ++ spelling right :=
  List.flatMap_append

@[simp]
theorem toList_tokenAt (position : Position) (kind : String) (lexeme : List Char) :
    (tokenAt position kind lexeme).text.toList = lexeme :=
  String.toList_ofList

theorem endPosition_tokenAt (position : Position) (kind : String) (lexeme : List Char) :
    (tokenAt position kind lexeme).endPosition = position.advanceOver lexeme := by
  rw [Token.endPosition, toList_tokenAt]
  rfl

/-- The items are tokens for the front of the text, and nothing but an error in front
of the first character that is left follows them. -/
theorem Tiles.exists_tokens {position : Position} {text : List Char}
    {items : List (Except LexError Token)} (tiles : Tiles position text items) :
    ∃ tokens rest, text = spelling tokens ++ rest ∧
      (rest = [] ∧ items = tokens.map .ok ∨
        ∃ first others, rest = first :: others ∧ items = tokens.map .ok ++ [.error
          (.located (.unexpectedChar first) (position.advanceOver (spelling tokens))
            first.utf8Size)]) := by
  induction tiles with
  | done position => exact ⟨[], [], rfl, Or.inl ⟨rfl, rfl⟩⟩
  | fault position first rest =>
      exact ⟨[], first :: rest, rfl, Or.inr ⟨first, rest, rfl, rfl⟩⟩
  | @token position lexeme _ _ kind nonempty others ih =>
      obtain ⟨tokens, rest, rfl, ending⟩ := ih
      refine ⟨tokenAt position kind lexeme :: tokens, rest, ?_, ?_⟩
      · rw [spelling_cons, toList_tokenAt, List.append_assoc]
      · rcases ending with ⟨finished, rfl⟩ | ⟨first, behind, left, rfl⟩
        · exact Or.inl ⟨finished, rfl⟩
        · rw [spelling_cons, toList_tokenAt, Position.advanceOver_append]
          exact Or.inr ⟨first, behind, left, rfl⟩

theorem Tiles.token_at {position : Position} {text : List Char} {left : List Token}
    {token : Token} {right : List (Except LexError Token)}
    (tiles : Tiles position text (left.map .ok ++ .ok token :: right)) :
    ∃ kind lexeme after, text = spelling left ++ (lexeme ++ after) ∧ lexeme ≠ [] ∧
      token = tokenAt (position.advanceOver (spelling left)) kind lexeme := by
  induction left generalizing position text with
  | nil =>
      cases tiles with
      | @token _ lexeme rest _ kind nonempty others =>
          exact ⟨kind, lexeme, rest, rfl, nonempty, rfl⟩
  | cons earlier left ih =>
      cases tiles with
      | @token _ lexeme rest _ _ nonempty others =>
          obtain ⟨kind, inner, after, rfl, innerNonempty, same⟩ := ih others
          rw [spelling_cons, toList_tokenAt, Position.advanceOver_append]
          exact ⟨kind, inner, after, (List.append_assoc ..).symm, innerNonempty, same⟩

theorem Tiles.adjacent {position : Position} {text : List Char} {left : List Token}
    {token next : Token} {right : List (Except LexError Token)}
    (tiles : Tiles position text (left.map .ok ++ .ok token :: .ok next :: right)) :
    next.span.start = token.span.stop ∧ next.position = token.endPosition := by
  obtain ⟨kind, lexeme, -, -, -, same⟩ := tiles.token_at
  have regrouped : left.map .ok ++ .ok token :: .ok next :: right =
      (left ++ [token]).map .ok ++ .ok next :: right := by
    rw [List.map_append, List.append_assoc]
    rfl
  rw [regrouped] at tiles
  obtain ⟨nextKind, nextLexeme, -, -, -, nextSame⟩ := tiles.token_at
  have reached : position.advanceOver (spelling (left ++ [token])) =
      (position.advanceOver (spelling left)).advanceOver lexeme := by
    rw [spelling_append, Position.advanceOver_append, spelling_cons, spelling_nil,
      List.append_nil, same, toList_tokenAt]
  rw [reached] at nextSame
  rw [nextSame, same, endPosition_tokenAt]
  exact ⟨rfl, rfl⟩

/-! ### Tokens cover the text -/

/-- A token of a text, with the text before it: its characters are those on its bytes,
and its place is the one behind the text before it, which a scan of the whole text
up to its offset finds as well. -/
structure Standing (text before : List Char) (token : Token) : Prop where
  nonempty : token.text ≠ ""
  slice : Text.slice? text token.span = some token.text.toList
  behind : token.position.Behind before
  scanned : Position.ofOffset (String.ofList text) token.span.start = token.position

/-- How items end: with the last token when nothing is left, or else with one error
on exactly the first character that is left. -/
inductive Ending (tokens : List Token) : List Char → List (Except LexError Token) → Prop where
  | complete : Ending tokens [] (tokens.map .ok)
  | stopped {first : Char} {others : List Char} {error : LexError}
      (fault : error.fault = .unexpectedChar first)
      (span : error.span = ⟨Text.byteLength (spelling tokens),
        Text.byteLength (spelling tokens) + first.utf8Size⟩)
      (behind : Position.Behind (spelling tokens) ⟨error.span.start, error.line, error.column⟩) :
      Ending tokens (first :: others) (tokens.map .ok ++ [.error error])

/-- Tokens that cover a text up to a rest, and the items that report them. -/
structure Covers (text : List Char) (items : List (Except LexError Token)) (tokens : List Token)
    (rest : List Char) : Prop where
  whole : text = spelling tokens ++ rest
  ending : Ending tokens rest items
  standing : ∀ left token right, tokens = left ++ token :: right →
    Standing text (spelling left) token
  adjacent : ∀ left token next right, tokens = left ++ token :: next :: right →
    next.span.start = token.span.stop ∧ next.position = token.endPosition

theorem standing_tokenAt {before lexeme after : List Char} (nonempty : lexeme ≠ [])
    (fits : Text.byteLength (before ++ (lexeme ++ after)) ≤ Offset.limit) (kind : String) :
    Standing (before ++ (lexeme ++ after)) before
      (tokenAt (Position.origin.advanceOver before) kind lexeme) := by
  have positive := Text.byteLength_pos nonempty
  rw [Text.byteLength_append, Text.byteLength_append] at fits
  have behind := Position.origin_advanceOver_behind before (by omega)
  have stop : (tokenAt (Position.origin.advanceOver before) kind lexeme).span =
      ⟨Text.byteLength before, Text.byteLength (before ++ lexeme)⟩ := by
    have lexemeFits : (Position.origin.advanceOver before).offset + Text.byteLength lexeme ≤
        Offset.limit := by
      rw [behind.offset]
      omega
    simp only [tokenAt, offset_advanceOver lexemeFits, behind.offset, Text.byteLength_append]
  constructor
  · intro empty
    apply nonempty
    rw [← toList_tokenAt (Position.origin.advanceOver before) kind lexeme, empty]
    rfl
  · rw [stop, toList_tokenAt]
    exact Text.slice?_append before lexeme after
  · exact behind
  · rw [stop]
    exact Position.ofOffset_byteLength before (lexeme ++ after)

theorem ending_located {tokens : List Token} {first : Char} {others : List Char}
    (fits : Text.byteLength (spelling tokens ++ first :: others) ≤ Offset.limit) :
    Ending tokens (first :: others) (tokens.map .ok ++ [.error
      (.located (.unexpectedChar first) (Position.origin.advanceOver (spelling tokens))
        first.utf8Size)]) := by
  have positive : 0 < first.utf8Size := Char.utf8Size_pos first
  rw [Text.byteLength_append, Text.byteLength_cons] at fits
  have behind := Position.origin_advanceOver_behind (spelling tokens) (by omega)
  apply Ending.stopped
  · rfl
  · have size : Offset.ofSize first.utf8Size = first.utf8Size := Nat.min_eq_left (by omega)
    rw [LexError.located, Span.sized, size, behind.offset, Offset.add_eq_of_le (by omega)]
  · exact behind

end Coverage

namespace Dfa

open Coverage

/-- Up to the limit of offsets, the tokens that any automaton yields cover the text. -/
theorem lex_covers (dfa : Dfa) (text : List Char) (fits : Text.byteLength text ≤ Offset.limit) :
    ∃ tokens rest, Covers text (dfa.lex text) tokens rest := by
  have tiles : Tiles .origin text (dfa.lex text) := by
    apply tiles_items dfa (text.length + 1) (Nat.lt_succ_self _)
    rwa [Position.origin, Nat.zero_add]
  obtain ⟨tokens, rest, whole, ending⟩ := tiles.exists_tokens
  have reported : ∃ last, dfa.lex text = tokens.map .ok ++ last := by
    rcases ending with ⟨-, items⟩ | ⟨first, others, -, items⟩
    · exact ⟨[], by rw [items, List.append_nil]⟩
    · exact ⟨_, items⟩
  obtain ⟨last, items⟩ := reported
  refine ⟨tokens, rest, whole, ?_, ?_, ?_⟩
  · rcases ending with ⟨rfl, complete⟩ | ⟨first, others, rfl, stopped⟩
    · rw [complete]
      exact .complete
    · rw [stopped]
      exact ending_located (whole ▸ fits)
  · intro left token right same
    rw [items, same, List.map_append, List.append_assoc] at tiles
    obtain ⟨kind, lexeme, after, rfl, nonempty, rfl⟩ := tiles.token_at
    exact standing_tokenAt nonempty fits kind
  · intro left token next right same
    rw [items, same, List.map_append, List.append_assoc] at tiles
    exact tiles.adjacent

/-- An automaton that gives up a pair of accents halfway, with an arc to no state. -/
def accented : Dfa :=
  ⟨#[⟨#[⟨⟨'\n', '\n'⟩, 1⟩, ⟨⟨'a', 'z'⟩, 1⟩, ⟨⟨'é', 'é'⟩, 2⟩], none⟩,
    ⟨#[⟨⟨'\n', '\n'⟩, 1⟩, ⟨⟨'a', 'z'⟩, 1⟩, ⟨⟨'é', 'é'⟩, 9⟩], some ⟨"word", 0, 0⟩⟩,
    ⟨#[⟨⟨'é', 'é'⟩, 3⟩], some ⟨"accent", 0, 1⟩⟩,
    ⟨#[⟨⟨'!', '!'⟩, 2⟩], none⟩]⟩

theorem accented_covers :
    Text.byteLength "a\nbéé?".toList ≤ Offset.limit ∧
      accented.lex "a\nbéé?".toList =
        [.ok ⟨"word", "a\nb", ⟨0, 3⟩, 1, 1⟩, .ok ⟨"accent", "é", ⟨3, 5⟩, 2, 2⟩,
          .ok ⟨"accent", "é", ⟨5, 7⟩, 2, 3⟩,
          .error ⟨.unexpectedChar '?', ⟨7, 8⟩, 2, 4⟩] ∧
      ∃ tokens rest, Covers "a\nbéé?".toList (accented.lex "a\nbéé?".toList) tokens rest := by
  have fits : Text.byteLength "a\nbéé?".toList ≤ Offset.limit := by decide
  refine ⟨fits, ?_, lex_covers accented _ fits⟩
  decide +kernel

end Dfa

end Predictive
