/-
What the FIRST and FOLLOW sets say about derivations. A replacement never makes a
string begin or vanish in a way that it could not before, so what begins a string
is what some derivation brings to its front. What follows a non-terminal is what
some derivation puts right behind it, and the end of input follows those that a
derivation from the start symbol leaves at the end.
-/

import Predictive.Proofs.Grammar.Follow
import Predictive.Proofs.Grammar.Language

namespace Predictive

namespace PlainGrammar

variable {grammar : PlainGrammar} {kind : String}

/-! ### Beginning and vanishing -/

theorem vanishes_append_iff {left right : List Symbol} :
    grammar.Vanishes (left ++ right) ↔ grammar.Vanishes left ∧ grammar.Vanishes right :=
  ⟨fun whole => ⟨whole.left, whole.right⟩, fun both => both.1.append both.2⟩

theorem begins_append_iff {left right : List Symbol} :
    grammar.Begins kind (left ++ right) ↔
      grammar.Begins kind left ∨ grammar.Vanishes left ∧ grammar.Begins kind right := by
  constructor
  · intro begins
    induction left with
    | nil => exact Or.inr ⟨.nil, begins⟩
    | cons symbol rest ih =>
        cases begins with
        | here => exact Or.inl (.here rest)
        | inside _ member inner => exact Or.inl (.inside rest member inner)
        | behind empty later =>
            exact (ih later).imp (.behind empty) fun ⟨others, right⟩ => ⟨empty.append others, right⟩
  · rintro (begins | ⟨empty, begins⟩)
    · exact begins.append right
    · exact .behind_vanishing empty begins

theorem Vanishes.of_produces {first second : List Symbol} (once : grammar.Produces first second)
    (empty : grammar.Vanishes second) : grammar.Vanishes first := by
  cases once with
  | @replace production left right member =>
      rw [vanishes_append_iff, vanishes_append_iff] at empty
      exact empty.1.1.append (.cons member empty.1.2 empty.2)

theorem Begins.of_produces {first second : List Symbol} (once : grammar.Produces first second)
    (begins : grammar.Begins kind second) : grammar.Begins kind first := by
  cases once with
  | @replace production left right member =>
      rw [begins_append_iff, begins_append_iff, vanishes_append_iff] at begins
      rw [begins_append_iff]
      rcases begins with (inLeft | ⟨empty, inRhs⟩) | ⟨⟨empty, rhsEmpty⟩, inRight⟩
      · exact Or.inl inLeft
      · exact Or.inr ⟨empty, .inside right member inRhs⟩
      · exact Or.inr ⟨empty, .behind (.cons member rhsEmpty .nil) inRight⟩

theorem derives_of_production {name : String} {rhs : List Symbol}
    (member : ⟨name, rhs⟩ ∈ grammar.productions) (before after : List Symbol) :
    grammar.Derives (before ++ .nonTerminal name :: after) (before ++ rhs ++ after) :=
  .step (.replace before after member) (.refl _)

theorem Vanishes.derives {symbols : List Symbol} (empty : grammar.Vanishes symbols) :
    grammar.Derives symbols [] := by
  induction empty with
  | nil => exact .refl []
  | @cons name rhs rest member inner others ihInner ihOthers =>
      have within := ihInner.context [] rest
      rw [List.nil_append, List.nil_append] at within
      exact (derives_of_production member [] rest).trans (within.trans ihOthers)

theorem vanishes_iff_derives {symbols : List Symbol} :
    grammar.Vanishes symbols ↔ grammar.Derives symbols [] := by
  constructor
  · exact Vanishes.derives
  · generalize final : ([] : List Symbol) = form
    intro derives
    induction derives with
    | refl => exact final ▸ .nil
    | step once _ ih => exact .of_produces once (ih final)

theorem begins_iff_derives {symbols : List Symbol} :
    grammar.Begins kind symbols ↔ ∃ rest, grammar.Derives symbols (.terminal kind :: rest) := by
  constructor
  · intro begins
    induction begins with
    | here rest => exact ⟨rest, .refl _⟩
    | @inside name rhs rest member inner ih =>
        obtain ⟨others, derives⟩ := ih
        have within := derives.context [] rest
        exact ⟨others ++ rest, (derives_of_production member [] rest).trans within⟩
    | @behind name rest empty later ih =>
        obtain ⟨others, derives⟩ := ih
        have gone := empty.derives.context [] rest
        exact ⟨others, gone.trans derives⟩
  · rintro ⟨rest, derives⟩
    -- Backwards from the last form: undoing a replacement keeps what begins the string.
    generalize final : Symbol.terminal kind :: rest = form at derives
    induction derives with
    | refl => exact final ▸ .here rest
    | step once _ ih => exact .of_produces once (ih final)

/-! ### Following -/

theorem append_eq_append_cons {left right before after : List Symbol} {symbol : Symbol}
    (same : left ++ right = before ++ symbol :: after) :
    (∃ rest, left = before ++ symbol :: rest ∧ after = rest ++ right) ∨
      ∃ front, before = left ++ front ∧ right = front ++ symbol :: after := by
  rcases List.append_eq_append_iff.mp same with
    ⟨front, beforeSame, rightSame⟩ | ⟨rest, leftSame, restSame⟩
  · exact Or.inr ⟨front, beforeSame, rightSame⟩
  · rcases List.cons_eq_append_iff.mp restSame with ⟨rfl, rightSame⟩ | ⟨others, rfl, afterSame⟩
    · refine Or.inr ⟨[], ?_, rightSame⟩
      rw [leftSame, List.append_nil, List.append_nil]
    · exact Or.inl ⟨others, leftSame, afterSame⟩

/-- A symbol of a form was there before the last replacement, which may have been
made behind it, or comes from the production. -/
theorem Produces.occurrence {first second before after : List Symbol} {symbol : Symbol}
    (once : grammar.Produces first second) (same : second = before ++ symbol :: after) :
    (∃ front rest, first = front ++ symbol :: rest ∧ (rest = after ∨ grammar.Produces rest after)) ∨
      ∃ name front rest left right, ⟨name, front ++ symbol :: rest⟩ ∈ grammar.productions ∧
        first = left ++ .nonTerminal name :: right ∧ after = rest ++ right := by
  cases once with
  | @replace production left right member =>
      rw [List.append_assoc] at same
      rcases append_eq_append_cons same with ⟨rest, rfl, rfl⟩ | ⟨front, -, others⟩
      · refine Or.inl ⟨before, rest ++ .nonTerminal production.lhs :: right, ?_, Or.inr ?_⟩
        · rw [List.append_assoc, List.cons_append]
        · rw [← List.append_assoc]
          exact .replace rest right member
      · rcases append_eq_append_cons others with ⟨rest, whole, rfl⟩ | ⟨inner, -, rfl⟩
        · exact Or.inr ⟨production.lhs, front, rest, left, right, whole ▸ member, rfl, rfl⟩
        · refine Or.inl ⟨left ++ .nonTerminal production.lhs :: inner, after, ?_, Or.inl rfl⟩
          rw [List.append_assoc, List.cons_append]

/-- What stands behind a non-terminal in a form derived from `owner` is known to
follow it: what begins the rest of the form, and behind a rest that vanishes
whatever follows the owner. -/
structure Traced (grammar : PlainGrammar) (owner : String) (form : List Symbol) : Prop where
  beside : ∀ {before after : List Symbol} {name kind : String},
    form = before ++ .nonTerminal name :: after → grammar.Begins kind after →
      grammar.Follows (.token kind) name
  inherited : ∀ {before after : List Symbol} {name : String} {lookahead : Lookahead},
    form = before ++ .nonTerminal name :: after → grammar.Vanishes after →
      grammar.Follows lookahead owner → grammar.Follows lookahead name

namespace Traced

variable {owner : String}

theorem single (owner : String) : grammar.Traced owner [.nonTerminal owner] := by
  have alone : ∀ {before after : List Symbol} {name : String},
      [Symbol.nonTerminal owner] = before ++ .nonTerminal name :: after →
        name = owner ∧ after = [] := by
    intro before after name same
    cases before with
    | nil =>
        cases same
        exact ⟨rfl, rfl⟩
    | cons head rest =>
        exact absurd (List.cons.inj same).2 (by simp)
  refine ⟨?_, ?_⟩
  · intro before after name kind same begins
    obtain ⟨-, rfl⟩ := alone same
    cases begins
  · intro before after name lookahead same empty follows
    obtain ⟨rfl, -⟩ := alone same
    exact follows

theorem produces {first second : List Symbol} (traced : grammar.Traced owner first)
    (once : grammar.Produces first second) : grammar.Traced owner second := by
  refine ⟨?_, ?_⟩
  · intro before after name kind same begins
    rcases once.occurrence same with ⟨front, rest, old, behind⟩ | ⟨_, _, _, _, _, member, old, rfl⟩
    · refine traced.beside old ?_
      rcases behind with rfl | replaced
      · exact begins
      · exact .of_produces replaced begins
    · -- The rest of the production stands before what stood behind the replaced symbol.
      rcases begins_append_iff.mp begins with inRest | ⟨empty, inRight⟩
      · exact .beside member inRest
      · exact .inherited member empty (traced.beside old inRight)
  · intro before after name lookahead same empty follows
    rcases once.occurrence same with ⟨front, rest, old, behind⟩ | ⟨_, _, _, _, _, member, old, rfl⟩
    · refine traced.inherited old ?_ follows
      rcases behind with rfl | replaced
      · exact empty
      · exact .of_produces replaced empty
    · obtain ⟨restEmpty, rightEmpty⟩ := vanishes_append_iff.mp empty
      exact .inherited member restEmpty (traced.inherited old rightEmpty follows)

theorem derives {first second : List Symbol} (traced : grammar.Traced owner first)
    (many : grammar.Derives first second) : grammar.Traced owner second := by
  induction many with
  | refl => exact traced
  | step once _ ih => exact ih (traced.produces once)

end Traced

/-- Where what stands behind a non-terminal in a production vanishes, that
non-terminal gets to stand where the production's own one stood. -/
theorem Derives.inherit {form before front rest after : List Symbol} {name target : String}
    (derives : grammar.Derives form (before ++ .nonTerminal name :: rest))
    (member : ⟨name, front ++ .nonTerminal target :: after⟩ ∈ grammar.productions)
    (empty : grammar.Vanishes after) :
    grammar.Derives form ((before ++ front) ++ .nonTerminal target :: rest) := by
  have replaced := derives.trans (derives_of_production member before rest)
  have gone := empty.derives.context (before ++ front ++ [.nonTerminal target]) rest
  simp only [List.append_assoc, List.cons_append, List.nil_append] at replaced gone ⊢
  exact replaced.trans gone

theorem Follows.derives (consistent : grammar.Consistent) {lookahead : Lookahead} {name : String}
    (follows : grammar.Follows lookahead name) :
    match lookahead with
    | .token kind => ∃ owner ∈ grammar.names, ∃ before after, grammar.Derives [.nonTerminal owner]
        (before ++ .nonTerminal name :: .terminal kind :: after)
    | .endOfInput => ∃ before, grammar.Derives [.nonTerminal grammar.startName]
        (before ++ [.nonTerminal name]) := by
  induction follows with
  | start => exact ⟨[], .refl _⟩
  | @beside owner target kind before after member begins =>
      obtain ⟨rest, derives⟩ := begins_iff_derives.mp begins
      have replaced := derives_of_production member [] []
      have within := derives.context (before ++ [.nonTerminal target]) []
      simp only [List.append_assoc, List.cons_append, List.nil_append, List.append_nil]
        at replaced within
      exact ⟨owner, consistent.owned _ member, before, rest, replaced.trans within⟩
  | @inherited _ target lookahead _ after member empty follows ih =>
      cases lookahead with
      | token kind =>
          obtain ⟨owner, declared, before, rest, derives⟩ := ih
          exact ⟨owner, declared, _, rest, derives.inherit member empty⟩
      | endOfInput =>
          obtain ⟨before, derives⟩ := ih
          exact ⟨_, derives.inherit member empty⟩

theorem follows_token_iff_derives (consistent : grammar.Consistent) {name : String} :
    grammar.Follows (.token kind) name ↔ ∃ owner ∈ grammar.names, ∃ before after,
      grammar.Derives [.nonTerminal owner]
        (before ++ .nonTerminal name :: .terminal kind :: after) := by
  constructor
  · exact Follows.derives consistent
  · rintro ⟨owner, -, before, after, derives⟩
    exact ((Traced.single owner).derives derives).beside rfl (.here after)

theorem follows_endOfInput_iff_derives (consistent : grammar.Consistent) {name : String} :
    grammar.Follows .endOfInput name ↔
      ∃ before, grammar.Derives [.nonTerminal grammar.startName]
        (before ++ [.nonTerminal name]) := by
  constructor
  · exact Follows.derives consistent
  · rintro ⟨before, derives⟩
    exact ((Traced.single grammar.startName).derives derives).inherited rfl .nil .start

theorem Follows.mem_names (consistent : grammar.Consistent)
    (started : grammar.startName ∈ grammar.names) {lookahead : Lookahead} {name : String}
    (follows : grammar.Follows lookahead name) : name ∈ grammar.names := by
  cases follows with
  | start => exact started
  | beside member => exact consistent.closed _ member _ List.mem_append_cons_self
  | inherited member => exact consistent.closed _ member _ List.mem_append_cons_self

theorem findIdx?_names (grammar : PlainGrammar) (name : String) :
    (grammar.names.findIdx? fun other => other == name) = grammar.idOf? name := by
  rw [names, List.findIdx?_map, idOf?, ← List.findIdx?_toArray, Array.toArray_toList]
  rfl

end PlainGrammar

namespace FirstSets

theorem ofSymbols_nonTerminal (first : FirstSets) (name : String) :
    first.ofSymbols [.nonTerminal name] = (first.ofName name, first.isNullable name) := by
  unfold ofSymbols
  split
  case isTrue nullable =>
    rw [nullable]
    rfl
  case isFalse solid => rw [Bool.eq_false_iff.mpr solid]

/-- The passes for the FIRST sets come to an end, and the sets are exact: a string of
symbols has the terminals that derivations bring to its front, and is nullable when
it derives the empty string. -/
theorem ofSymbols_compute_iff_derives (source : Grammar) :
    Settles (pass source.lower) (solve source.lower).2 (initial source.lower)
        (compute source.lower) ∧
      (∀ symbols : List Symbol,
        (∀ kind, kind ∈ ((compute source.lower).ofSymbols symbols).1 ↔
          ∃ rest, source.lower.Derives symbols (.terminal kind :: rest)) ∧
        (((compute source.lower).ofSymbols symbols).2 = true ↔ source.lower.Derives symbols [])) ∧
      ∀ name : String,
        (∀ kind, kind ∈ (compute source.lower).ofName name ↔
          ∃ rest, source.lower.Derives [.nonTerminal name] (.terminal kind :: rest)) ∧
        ((compute source.lower).isNullable name = true ↔
          source.lower.Derives [.nonTerminal name] []) := by
  have consistent := source.lower_consistent
  have exact : ∀ symbols : List Symbol,
      (∀ kind, kind ∈ ((compute source.lower).ofSymbols symbols).1 ↔
        ∃ rest, source.lower.Derives symbols (.terminal kind :: rest)) ∧
      (((compute source.lower).ofSymbols symbols).2 = true ↔ source.lower.Derives symbols []) :=
    fun symbols =>
      ⟨fun kind => (mem_compute_ofSymbols_iff consistent).trans PlainGrammar.begins_iff_derives,
        (compute_ofSymbols_nullable_iff consistent).trans PlainGrammar.vanishes_iff_derives⟩
  refine ⟨compute_settles consistent, exact, fun name => ?_⟩
  have single := exact [.nonTerminal name]
  rwa [ofSymbols_nonTerminal] at single

end FirstSets

namespace FollowSets

variable {grammar : PlainGrammar} {first : FirstSets}

theorem names_absorb (follow : FollowSets) (lhs target : Nat) (rest : List Symbol) :
    (absorb first follow lhs target rest).names = follow.names := by
  simp only [absorb]
  split <;> rfl

theorem names_absorbString (lhs : Nat) (symbols : List Symbol) (follow : FollowSets) :
    (absorbString grammar first lhs follow symbols).names = follow.names := by
  induction symbols generalizing follow with
  | nil => rfl
  | cons symbol rest ih =>
      cases symbol with
      | terminal kind => exact ih follow
      | nonTerminal name =>
          unfold absorbString
          split
          case h_1 target found => rw [ih, names_absorb]
          case h_2 => exact ih follow

theorem names_pass (follow : FollowSets) : (pass grammar first follow).names = follow.names := by
  unfold pass
  induction grammar.productions.toList generalizing follow with
  | nil => rfl
  | cons production rest ih =>
      rw [List.foldl_cons, ih]
      split
      · exact names_absorbString _ _ _
      · rfl

theorem mem_ofName_compute_iff (consistent : grammar.Consistent)
    (started : grammar.nameOf? grammar.start = some grammar.startName) {name : String}
    {lookahead : Lookahead} :
    lookahead ∈ (compute grammar (.compute grammar)).ofName name ↔
      grammar.Follows lookahead name := by
  have names : (compute grammar (.compute grammar)).names = grammar.names :=
    (compute_settles consistent started).keeps (fun follow => follow.names = grammar.names)
      (fun same => (names_pass _).trans same) rfl
  rw [ofName, names, PlainGrammar.findIdx?_names]
  cases found : grammar.idOf? name with
  | some id => exact mem_compute_iff consistent started (consistent.idOf?_eq_some_iff.mp found)
  | none =>
      refine ⟨nofun, fun follows => ?_⟩
      have declared := follows.mem_names consistent (PlainGrammar.mem_names_iff.mpr ⟨_, started⟩)
      obtain ⟨id, known⟩ := consistent.exists_idOf? declared
      rw [found] at known
      cases known

/-- The passes for the FOLLOW sets come to an end, and the sets are exact: a token
follows a non-terminal when it stands right behind it in a form that some
non-terminal derives, and the end of input follows it when the start symbol derives
a form that ends with it. -/
theorem mem_compute_iff_derives (source : Grammar) :
    Settles (pass source.lower (.compute source.lower))
        (solve source.lower (.compute source.lower)).2 (initial source.lower)
        (compute source.lower (.compute source.lower)) ∧
      ∀ name : String,
        (∀ kind, .token kind ∈ (compute source.lower (.compute source.lower)).ofName name ↔
          ∃ owner ∈ source.lower.names, ∃ before after,
            source.lower.Derives [.nonTerminal owner]
              (before ++ .nonTerminal name :: .terminal kind :: after)) ∧
        (.endOfInput ∈ (compute source.lower (.compute source.lower)).ofName name ↔
          ∃ before, source.lower.Derives [.nonTerminal source.start]
            (before ++ [.nonTerminal name])) := by
  have consistent := source.lower_consistent
  have started : source.lower.nameOf? source.lower.start = some source.lower.startName := by
    rw [source.startName_lower]
    exact source.nameOf?_lower_start
  refine ⟨compute_settles consistent started, fun name => ⟨fun kind => ?_, ?_⟩⟩
  · rw [mem_ofName_compute_iff consistent started]
    exact PlainGrammar.follows_token_iff_derives consistent
  · rw [mem_ofName_compute_iff consistent started,
      PlainGrammar.follows_endOfInput_iff_derives consistent, source.startName_lower]

end FollowSets

end Predictive
