/-
Longest-match tokenization, said by the languages of the patterns and without any
automaton: at each place the longest beginning that some token rule matches is the
next token, and of the rules that match it the best one names it.
-/

import Predictive.Lexical.Language
import Predictive.Lexical.Lexer

namespace Predictive.MaximalMunch

/-- Some token rule matches the text. -/
def Matched (grammar : LexicalGrammar) (text : List Char) : Prop :=
  ∃ token ∈ grammar.tokens, token.pattern.Matches text

/-- The rule at `index` names tokens with this text: it matches, and no other rule
that does has a higher priority, or the same one and an earlier place. -/
structure Named (grammar : LexicalGrammar) (text : List Char) (index : Nat) (token : TokenRule) :
    Prop where
  declared : grammar.tokens[index]? = some token
  accepted : token.pattern.Matches text
  best : ∀ (other : Nat) (rival : TokenRule), grammar.tokens[other]? = some rival →
    rival.pattern.Matches text →
      rival.priority < token.priority ∨ rival.priority = token.priority ∧ index ≤ other

/-- `lexeme` is the longest nonempty beginning of `lexeme ++ rest` that is matched. -/
structure Longest (grammar : LexicalGrammar) (lexeme rest : List Char) : Prop where
  nonempty : lexeme ≠ []
  accepted : Matched grammar lexeme
  longest : ∀ longer, longer <+: lexeme ++ rest → lexeme.length < longer.length →
    ¬ Matched grammar longer

/-- The token of a lexeme that begins at a place. -/
def tokenAt (position : Position) (kind : String) (lexeme : List Char) : Token where
  kind := kind
  text := String.ofList lexeme
  span := ⟨position.offset, (position.advanceOver lexeme).offset⟩
  line := position.line
  column := position.column

/-- The tokens of a text that begins at a place, or the first place where no
nonempty beginning of the rest is matched. -/
inductive Tokenizes (grammar : LexicalGrammar) :
    Position → List Char → Except LexError (List Token) → Prop where
  | done (position : Position) : Tokenizes grammar position [] (.ok [])
  | token {position : Position} {lexeme rest : List Char} {index : Nat} {rule : TokenRule}
      {result : Except LexError (List Token)}
      (longest : Longest grammar lexeme rest) (named : Named grammar lexeme index rule)
      (others : Tokenizes grammar (position.advanceOver lexeme) rest result) :
      Tokenizes grammar position (lexeme ++ rest)
        (result.map (tokenAt position rule.name lexeme :: ·))
  | fault {position : Position} {first : Char} {rest : List Char}
      (nothing : ∀ beginning, beginning <+: first :: rest → beginning ≠ [] →
        ¬ Matched grammar beginning) :
      Tokenizes grammar position (first :: rest)
        (.error (.located (.unexpectedChar first) position first.utf8Size))

end Predictive.MaximalMunch
