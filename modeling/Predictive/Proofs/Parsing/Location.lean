/-
Where a parse error is reported. The tokens of a text tile it, so each of them stands
on the bytes that it names, and the place behind the last one, which may be a skipped
one, is the end of the text. The parser reports one of these places and no other,
whatever automaton and table it is given.
-/

import Predictive.Proofs.Lexical.Coverage
import Predictive.Proofs.Parsing.Failure

namespace Predictive

namespace Text

def IsBoundary (text : List Char) (offset : Nat) : Prop :=
  (splitBytes? offset text).isSome = true

theorem isBoundary_byteLength (before after : List Char) :
    IsBoundary (before ++ after) (byteLength before) := by
  rw [IsBoundary, splitBytes?_byteLength]
  rfl

theorem isBoundary_of_slice? {text inside : List Char} {span : Span}
    (slice : slice? text span = some inside) (nonempty : inside ≠ []) :
    IsBoundary text span.start ∧ IsBoundary text span.stop := by
  obtain ⟨⟨before, behind⟩, front, cut⟩ := Option.bind_eq_some_iff.mp slice
  obtain ⟨⟨piece, after⟩, back, same⟩ := Option.map_eq_some_iff.mp cut
  have outer := append_of_splitBytes? front
  have inner := append_of_splitBytes? back
  change piece = inside at same
  rw [same] at inner
  have positive := byteLength_pos nonempty
  have stop : span.stop = byteLength (before ++ inside) := by
    have length : span.length = span.stop - span.start := rfl
    rw [byteLength_append]
    omega
  constructor
  · rw [outer.1, ← outer.2]
    exact isBoundary_byteLength before behind
  · rw [outer.1, inner.1, stop, ← List.append_assoc]
    exact isBoundary_byteLength (before ++ inside) after

end Text

namespace Coverage

variable {text : List Char} {tokens : List Token}

theorem eq_map_of_firstError {items : List (Except LexError Token)}
    (succeeded : firstError items = .ok tokens) : items = tokens.map .ok := by
  induction items generalizing tokens with
  | nil =>
      cases succeeded
      rfl
  | cons item rest ih =>
      cases item with
      | error fault => cases succeeded
      | ok token =>
          unfold firstError at succeeded
          cases others : firstError rest with
          | error fault =>
              rw [others] at succeeded
              cases succeeded
          | ok values =>
              rw [others] at succeeded
              cases succeeded
              rw [ih others, List.map_cons]

theorem tiles_of_tokenize {dfa : Dfa} (fits : Text.byteLength text ≤ Offset.limit)
    (tokenized : dfa.tokenize text = .ok tokens) : Tiles .origin text (tokens.map .ok) := by
  have items : dfa.lex text = tokens.map .ok := eq_map_of_firstError tokenized
  rw [← items]
  apply tiles_items dfa (text.length + 1) (Nat.lt_succ_self _)
  rwa [Position.origin, Nat.zero_add]

theorem Tiles.finish {position : Position} (tiles : Tiles position text (tokens.map .ok)) :
    (tokens.getLast?.map Token.endPosition).getD position = position.advanceOver text := by
  induction tokens generalizing position text with
  | nil =>
      cases tiles
      rfl
  | cons token rest ih =>
      cases tiles with
      | @token _ lexeme others _ kind nonempty later =>
          rw [Position.advanceOver_append, ← ih later]
          cases rest with
          | nil => exact endPosition_tokenAt position kind lexeme
          | cons next after =>
              rw [List.getLast?_cons_cons, List.getLast?_cons]
              rfl

theorem Tiles.standing {token : Token} (tiles : Tiles .origin text (tokens.map .ok))
    (fits : Text.byteLength text ≤ Offset.limit) (member : token ∈ tokens) :
    ∃ before, Standing text before token := by
  obtain ⟨left, right, split⟩ := List.append_of_mem member
  rw [split, List.map_append, List.map_cons] at tiles
  obtain ⟨kind, lexeme, after, whole, nonempty, same⟩ := tiles.token_at
  rw [whole] at fits ⊢
  rw [same]
  exact ⟨_, standing_tokenAt nonempty fits kind⟩

end Coverage

namespace Machine

variable {machine : Machine} {state next : ParseState}

theorem Reaches.input_suffix (reaches : machine.Reaches state next) :
    next.input <:+ state.input := by
  induction reaches with
  | refl => exact List.suffix_rfl
  | tail _ moves ih =>
      rcases moves with stayed | shifted
      · rw [input_of_stay stayed]
        exact ih
      · obtain ⟨token, input⟩ := input_of_shift shifted
        rw [input] at ih
        exact (List.suffix_cons token _).trans ih

end Machine

namespace ParseError

/-- The bounds of the error's span lie between characters, and its line and column are
those that a scan of the text up to its start finds. -/
structure Located (text : List Char) (error : ParseError) : Prop where
  starts : Text.IsBoundary text error.span.start
  stops : Text.IsBoundary text error.span.stop
  line : error.line = (Position.ofOffset (String.ofList text) error.span.start).line
  column : error.column = (Position.ofOffset (String.ofList text) error.span.start).column

/-- The span of an error in front of the tokens that are left: the bytes of the first of
them, or nothing at the end of the text when none is left. -/
def Marks (text : List Char) (left : List Token) (error : ParseError) : Prop :=
  match error.found? with
  | some found =>
      left.head? = some found ∧ error.span = found.span ∧
        Text.slice? text error.span = some found.text.toList
  | none => left = [] ∧ error.span = .emptyAt (Text.byteLength text)

variable {text before : List Char} {left : List Token} {found : Token} {error : ParseError}

theorem located_of_standing (standing : Coverage.Standing text before found)
    (span : error.span = found.span) (line : error.line = found.line)
    (column : error.column = found.column) : error.Located text := by
  have nonempty : found.text.toList ≠ [] := by
    intro empty
    exact standing.nonempty (String.toList_eq_nil_iff.mp empty)
  have bounds := Text.isBoundary_of_slice? standing.slice nonempty
  rw [← span] at bounds
  constructor
  · exact bounds.1
  · exact bounds.2
  · rw [span, standing.scanned, line]
    rfl
  · rw [span, standing.scanned, column]
    rfl

theorem located_unexpectedEnd (expected : List Lookahead) {position : Position}
    (fits : Text.byteLength text ≤ Offset.limit)
    (finish : position = Position.origin.advanceOver text) :
    Located text (.unexpectedEnd expected position) ∧
      Marks text [] (.unexpectedEnd expected position) := by
  have bytes : position.offset = Text.byteLength text := by
    rw [finish, MaximalMunch.offset_advanceOver (by rwa [Position.origin, Nat.zero_add]),
      Position.origin, Nat.zero_add]
  have boundary : Text.IsBoundary text position.offset := by
    have whole := Text.isBoundary_byteLength text []
    rwa [List.append_nil, ← bytes] at whole
  have scanned : Position.ofOffset (String.ofList text) position.offset = position := by
    have whole := Position.ofOffset_byteLength text []
    rwa [List.append_nil, ← bytes, ← finish] at whole
  constructor
  · constructor
    · exact boundary
    · exact boundary
    · exact (congrArg Position.line scanned).symm
    · exact (congrArg Position.column scanned).symm
  · constructor
    · rfl
    · exact congrArg Span.emptyAt bytes

end ParseError

namespace ParseTable

open Coverage

/-- A parse error of the tokens of a text is reported on the bytes of the token in front of
which the parser stops, or else at the end of the text, also behind skipped tokens. -/
theorem parse?_error_located (dfa : Dfa) (table : ParseTable) (config : ParserConfig)
    (text : List Char) (tokens : List Token) (error : ParseError)
    (fits : Text.byteLength text ≤ Offset.limit) (tokenized : dfa.tokenize text = .ok tokens)
    (failed : table.parse? config tokens = some (.error error)) :
    error.Located text ∧ ∃ left,
      left <:+ config.kept tokens ∧
        (Machine.ofTokens table tokens).StopsBefore (config.kept tokens) left error ∧
          error.Marks text left := by
  have tiles := tiles_of_tokenize fits tokenized
  obtain ⟨count, halts⟩ := Machine.halts_of_run failed
  obtain ⟨last, reaches, halted⟩ := halts.exists_last
  have suffix : last.input <:+ config.kept tokens := reaches.input_suffix
  have stops : (Machine.ofTokens table tokens).StopsBefore (config.kept tokens) last.input error :=
    ⟨last, reaches, rfl, halted⟩
  have standing : ∀ found rest, last.input = found :: rest →
      ∃ before, Standing text before found := by
    intro found rest input
    have inKept : found ∈ config.kept tokens :=
      suffix.subset (input ▸ List.mem_cons_self)
    exact tiles.standing fits (List.mem_of_mem_filter inKept)
  rcases Machine.unexpected_or_trailing halted with unexpected | trailing
  · obtain ⟨expected, same⟩ := unexpected
    cases input : last.input with
    | nil =>
        rw [Machine.unexpected, input] at same
        subst same
        obtain ⟨located, marks⟩ :=
          ParseError.located_unexpectedEnd expected fits tiles.finish
        exact ⟨located, [], List.nil_suffix, input ▸ stops, marks⟩
    | cons found rest =>
        rw [Machine.unexpected, input] at same
        subst same
        obtain ⟨before, stands⟩ := standing found rest input
        rw [input] at suffix stops
        exact ⟨ParseError.located_of_standing stands rfl rfl rfl, _, suffix, stops, rfl, rfl,
          stands.slice⟩
  · obtain ⟨found, rest, below, same, input, top⟩ := trailing
    subst same
    obtain ⟨before, stands⟩ := standing found rest input
    rw [input] at suffix stops
    exact ⟨ParseError.located_of_standing stands rfl rfl rfl, _, suffix, stops, rfl, rfl,
      stands.slice⟩

/-- Tokens for the brackets, with an accented letter for what may stand between them and
blanks that run over lines. -/
def bracketDfa : Dfa :=
  ⟨#[⟨#[⟨⟨'\n', '\n'⟩, 3⟩, ⟨⟨' ', ' '⟩, 3⟩, ⟨⟨'(', '('⟩, 1⟩, ⟨⟨'é', 'é'⟩, 2⟩], none⟩,
    ⟨#[], some ⟨"(", 0, 0⟩⟩, ⟨#[], some ⟨"x", 0, 1⟩⟩,
    ⟨#[⟨⟨'\n', '\n'⟩, 3⟩, ⟨⟨' ', ' '⟩, 3⟩], some ⟨"blank", 0, 2⟩⟩]⟩

def unclosed : List Token :=
  [⟨"(", "(", ⟨0, 1⟩, 1, 1⟩, ⟨"x", "é", ⟨1, 3⟩, 1, 2⟩, ⟨"blank", "\n ", ⟨3, 5⟩, 1, 3⟩]

/-- The end is found behind the blanks, although these are not parsed. -/
theorem parse?_unclosed_located :
    build brackets = .ok bracketTable ∧ Text.byteLength "(é\n ".toList ≤ Offset.limit ∧
      bracketDfa.tokenize "(é\n ".toList = .ok unclosed ∧
      bracketTable.parse? ⟨["blank"]⟩ unclosed =
        some (.error (.unexpectedEnd [.token ")"] ⟨5, 2, 2⟩)) ∧
      ParseError.Located "(é\n ".toList (.unexpectedEnd [.token ")"] ⟨5, 2, 2⟩) ∧
      ∃ left, left <:+ ParserConfig.kept ⟨["blank"]⟩ unclosed ∧
        (Machine.ofTokens bracketTable unclosed).StopsBefore
            (ParserConfig.kept ⟨["blank"]⟩ unclosed) left
            (.unexpectedEnd [.token ")"] ⟨5, 2, 2⟩) ∧
          ParseError.Marks "(é\n ".toList left (.unexpectedEnd [.token ")"] ⟨5, 2, 2⟩) := by
  have free : conflicts brackets.lower (.compute brackets.lower)
      (.compute brackets.lower (.compute brackets.lower)) = [] := by decide +kernel
  have fits : Text.byteLength "(é\n ".toList ≤ Offset.limit := by decide
  have tokenized : bracketDfa.tokenize "(é\n ".toList = .ok unclosed := by decide +kernel
  have failed : bracketTable.parse? ⟨["blank"]⟩ unclosed =
      some (.error (.unexpectedEnd [.token ")"] ⟨5, 2, 2⟩)) := by decide +kernel
  exact ⟨ofSets_eq_ok_iff.mpr ⟨free, rfl⟩, fits, tokenized, failed,
    parse?_error_located bracketDfa bracketTable ⟨["blank"]⟩ _ _ _ fits tokenized failed⟩

end ParseTable

end Predictive
