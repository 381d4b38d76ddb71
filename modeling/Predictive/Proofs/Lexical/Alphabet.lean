/-
The characters that token rules are about. A text that a pattern matches holds only
characters that the pattern mentions, so no rule matches across a character that it does
not mention. A text in which each character is mentioned by one rule alone, and neighbours
by different rules, has a token for each character.
-/

import Predictive.Proofs.Lexical.MaximalMunch

namespace Predictive

namespace Pattern

mutual

/-- Whether some part of the pattern matches the character. -/
def mentions (char : Char) : Pattern → Bool
  | .literal text => text.toList.contains char
  | .range lo hi => lo ≤ char && char ≤ hi
  | .set chars => chars.contains char
  | .any domain => domain.contains char
  | .anyExcept excluded domain => domain.contains char && !excluded.contains char
  | .sequence items => someMentions char items
  | .alternative items => someMentions char items
  | .optional inner => mentions char inner
  | .zeroOrMore inner => mentions char inner
  | .oneOrMore inner => mentions char inner

def someMentions (char : Char) : List Pattern → Bool
  | [] => false
  | item :: rest => mentions char item || someMentions char rest

end

theorem someMentions_of_mem {char : Char} {item : Pattern} {items : List Pattern}
    (member : item ∈ items) (mentioned : item.mentions char = true) :
    someMentions char items = true := by
  induction items with
  | nil => cases member
  | cons first rest ih =>
      rw [someMentions, Bool.or_eq_true]
      rcases List.mem_cons.mp member with rfl | inRest
      · exact Or.inl mentioned
      · exact Or.inr (ih inRest)

theorem mentions_of_matches {pattern : Pattern} {text : List Char}
    (accepted : pattern.Matches text) : ∀ char ∈ text, pattern.mentions char = true := by
  induction accepted with
  | literal =>
      intro char inText
      exact List.contains_iff_mem.mpr inText
  | range inside =>
      intro char inText
      rw [List.mem_singleton.mp inText, mentions, Bool.and_eq_true]
      exact ⟨decide_eq_true inside.1, decide_eq_true inside.2⟩
  | set member =>
      intro char inText
      rw [List.mem_singleton.mp inText, mentions]
      exact member
  | any inside =>
      intro char inText
      rw [List.mem_singleton.mp inText, mentions]
      exact inside
  | anyExcept inside outside =>
      intro char inText
      rw [List.mem_singleton.mp inText, mentions, inside, outside]
      rfl
  | sequenceNil => nofun
  | sequenceCons first others ihFirst ihOthers =>
      intro char inText
      rw [mentions, someMentions, Bool.or_eq_true]
      rcases List.mem_append.mp inText with inLeft | inRight
      · exact Or.inl (ihFirst char inLeft)
      · exact Or.inr (ihOthers char inRight)
  | alternative member chosen ih =>
      exact fun char inText => someMentions_of_mem member (ih char inText)
  | optionalNone => nofun
  | optionalSome once ih => exact ih
  | zeroOrMoreNil => nofun
  | zeroOrMoreCons first others ihFirst ihOthers =>
      exact fun char inText => (List.mem_append.mp inText).elim (ihFirst char) (ihOthers char)
  | oneOrMore first others ihFirst ihOthers =>
      exact fun char inText => (List.mem_append.mp inText).elim (ihFirst char) (ihOthers char)

end Pattern

namespace MaximalMunch

variable {grammar : LexicalGrammar}

def mentioners (grammar : LexicalGrammar) (char : Char) : List Nat :=
  (List.range grammar.tokens.length).filter fun index =>
    grammar.tokens[index]?.any fun rule => rule.pattern.mentions char

theorem mem_mentioners {index : Nat} {rule : TokenRule} {text : List Char} {char : Char}
    (declared : grammar.tokens[index]? = some rule) (accepted : rule.pattern.Matches text)
    (inText : char ∈ text) : index ∈ mentioners grammar char := by
  have inRange := (List.getElem?_eq_some_iff.mp declared).1
  rw [mentioners, List.mem_filter, List.mem_range, declared]
  exact ⟨inRange, Pattern.mentions_of_matches accepted char inText⟩

/-- A character that a rule matches and no other rule mentions. -/
structure Letter (grammar : LexicalGrammar) where
  char : Char
  index : Nat
  rule : TokenRule
  declared : grammar.tokens[index]? = some rule
  accepted : rule.pattern.Matches [char]
  alone : mentioners grammar char = [index]

namespace Letter

variable {text : List Char} (letter : Letter grammar)

theorem named : Named grammar [letter.char] letter.index letter.rule := by
  refine ⟨letter.declared, letter.accepted, ?_⟩
  intro other rival declared accepted
  have mentioned := mem_mentioners declared accepted List.mem_cons_self
  rw [letter.alone, List.mem_singleton] at mentioned
  subst mentioned
  cases letter.declared.symm.trans declared
  exact Or.inr ⟨rfl, Nat.le_refl _⟩

theorem longest {rest : List Char}
    (apart : ∀ next ∈ rest.head?, letter.index ∉ mentioners grammar next) :
    Longest grammar [letter.char] rest := by
  refine ⟨List.cons_ne_nil _ _, ⟨_, List.mem_of_getElem? letter.declared, letter.accepted⟩, ?_⟩
  intro longer isPrefix isLonger found
  obtain ⟨rule, member, accepted⟩ := found
  obtain ⟨index, declared⟩ := List.mem_iff_getElem?.mp member
  match longer with
  | [] => cases isLonger
  | [first] => exact Nat.lt_irrefl _ isLonger
  | first :: second :: others =>
      obtain ⟨rfl, inRest⟩ := List.cons_prefix_cons.mp isPrefix
      have here := mem_mentioners declared accepted List.mem_cons_self
      rw [letter.alone, List.mem_singleton] at here
      have there := mem_mentioners declared accepted (List.mem_cons_of_mem _ List.mem_cons_self)
      cases rest with
      | nil => cases List.prefix_nil.mp inRest
      | cons next more =>
          obtain ⟨rfl, -⟩ := List.cons_prefix_cons.mp inRest
          exact apart second rfl (here ▸ there)

end Letter

def spell (position : Position) : List (Letter grammar) → List Token
  | [] => []
  | letter :: rest =>
      tokenAt position letter.rule.name [letter.char] :: spell (position.advance letter.char) rest

theorem tokenizes_letters (letters : List (Letter grammar))
    (apart : letters.IsChain fun left right => left.index ≠ right.index) (position : Position) :
    Tokenizes grammar position (letters.map Letter.char) (.ok (spell position letters)) := by
  induction letters generalizing position with
  | nil => exact .done position
  | cons letter rest ih =>
      have differs : ∀ next ∈ (rest.map Letter.char).head?,
          letter.index ∉ mentioners grammar next := by
        intro next isNext
        cases rest with
        | nil => cases isNext
        | cons following others =>
            cases isNext
            rw [following.alone, List.mem_singleton]
            exact (List.isChain_cons_cons.mp apart).1
      exact .token (letter.longest differs) letter.named (ih apart.of_cons _)

end MaximalMunch

end Predictive
