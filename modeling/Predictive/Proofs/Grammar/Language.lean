/-
Lowering keeps the language. The terminal strings of a plain grammar are counted
by the replacements that produce them; a string of symbols that realizes a rule
body then yields exactly the strings of that body, one operator at a time.
-/

import Predictive.Grammar.Derivation
import Predictive.Proofs.Grammar.Realization

namespace Predictive

namespace PlainGrammar

variable {grammar : PlainGrammar}

/-- A string of symbols becomes a string of terminals by `cost` replacements, each
of which is finished before the symbol behind it is looked at. -/
inductive Yields (grammar : PlainGrammar) : Nat → List Symbol → List String → Prop where
  | nil : Yields grammar 0 [] []
  | terminal {cost : Nat} {rest : List Symbol} {word : List String} (name : String)
      (others : Yields grammar cost rest word) :
      Yields grammar cost (.terminal name :: rest) (name :: word)
  | nonTerminal {inside outside : Nat} {name : String} {rhs rest : List Symbol}
      {left right : List String} (member : ⟨name, rhs⟩ ∈ grammar.productions)
      (inner : Yields grammar inside rhs left) (others : Yields grammar outside rest right) :
      Yields grammar (inside + outside + 1) (.nonTerminal name :: rest) (left ++ right)

namespace Yields

theorem append {first second : Nat} {left right : List Symbol} {leftWord rightWord : List String}
    (inLeft : grammar.Yields first left leftWord)
    (inRight : grammar.Yields second right rightWord) :
    grammar.Yields (first + second) (left ++ right) (leftWord ++ rightWord) := by
  induction inLeft with
  | nil => rwa [Nat.zero_add]
  | terminal name others ih => exact .terminal name ih
  | @nonTerminal inside outside name rhs rest leftInner rightInner member inner others _ ih =>
      have whole := Yields.nonTerminal member inner ih
      rw [← List.append_assoc] at whole
      rwa [show inside + outside + 1 + second = inside + (outside + second) + 1 by omega]

theorem split {cost : Nat} {left right : List Symbol} {word : List String}
    (yields : grammar.Yields cost (left ++ right) word) :
    ∃ first second leftWord rightWord, cost = first + second ∧ word = leftWord ++ rightWord ∧
      grammar.Yields first left leftWord ∧ grammar.Yields second right rightWord := by
  induction left generalizing cost word with
  | nil => exact ⟨0, cost, [], word, (Nat.zero_add _).symm, rfl, .nil, yields⟩
  | cons symbol rest ih =>
      cases yields with
      | terminal name others =>
          obtain ⟨first, second, leftWord, rightWord, rfl, rfl, inLeft, inRight⟩ := ih others
          exact ⟨first, second, name :: leftWord, rightWord, rfl, rfl, .terminal name inLeft,
            inRight⟩
      | @nonTerminal inside outside name rhs _ inner outer member within others =>
          obtain ⟨first, second, leftWord, rightWord, rfl, rfl, inLeft, inRight⟩ := ih others
          exact ⟨inside + first + 1, second, inner ++ leftWord, rightWord, by omega,
            (List.append_assoc _ _ _).symm, .nonTerminal member within inLeft, inRight⟩

theorem terminals (word : List String) : grammar.Yields 0 (word.map .terminal) word := by
  induction word with
  | nil => exact .nil
  | cons name rest ih => exact .terminal name ih

theorem eq_nil {cost : Nat} {word : List String} (yields : grammar.Yields cost [] word) :
    cost = 0 ∧ word = [] := by
  cases yields
  exact ⟨rfl, rfl⟩

theorem production {cost : Nat} {name : String} {word : List String}
    (yields : grammar.Yields cost [.nonTerminal name] word) :
    ∃ less < cost, ∃ rhs ∈ grammar.bodiesOf name, grammar.Yields less rhs word := by
  cases yields with
  | @nonTerminal inside outside _ rhs _ left right member inner others =>
      obtain ⟨rfl, rfl⟩ := others.eq_nil
      rw [List.append_nil]
      exact ⟨inside, by omega, rhs, mem_bodiesOf.mpr member, inner⟩

theorem single {cost : Nat} {name : String} {rhs : List Symbol} {word : List String}
    (member : rhs ∈ grammar.bodiesOf name) (inner : grammar.Yields cost rhs word) :
    grammar.Yields (cost + 1) [.nonTerminal name] word := by
  have whole := Yields.nonTerminal (mem_bodiesOf.mp member) inner .nil
  rwa [List.append_nil] at whole

end Yields

namespace Derives

theorem trans {first second third : List Symbol} (left : grammar.Derives first second)
    (right : grammar.Derives second third) : grammar.Derives first third := by
  induction left with
  | refl => exact right
  | step once _ ih => exact .step once (ih right)

theorem context {first second : List Symbol} (before after : List Symbol)
    (derives : grammar.Derives first second) :
    grammar.Derives (before ++ first ++ after) (before ++ second ++ after) := by
  induction derives with
  | refl => exact .refl _
  | step once _ ih =>
      refine .step ?_ ih
      cases once with
      | replace left right member =>
          have replaced := Produces.replace (before ++ left) (right ++ after) member
          simpa only [List.append_assoc, List.cons_append] using replaced

end Derives

/-- Replacing in any order or from left to right gives the same terminal strings. -/
theorem derives_iff_yields {form : List Symbol} {word : List String} :
    grammar.Derives form (word.map .terminal) ↔ ∃ cost, grammar.Yields cost form word := by
  constructor
  · generalize target : word.map Symbol.terminal = final
    intro derives
    induction derives with
    | refl form => exact ⟨0, target ▸ .terminals word⟩
    | @step first second third once _ ih =>
        obtain ⟨cost, yields⟩ := ih target
        cases once with
        | @replace production left right member =>
            obtain ⟨_, _, _, _, -, rfl, inFront, inRight⟩ := yields.split
            obtain ⟨_, _, _, _, -, rfl, inLeft, inner⟩ := inFront.split
            have whole := inLeft.append (.nonTerminal member inner inRight)
            rw [← List.append_assoc] at whole
            exact ⟨_, whole⟩
  · rintro ⟨cost, yields⟩
    induction yields with
    | nil => exact .refl _
    | terminal name others ih =>
        have inContext := ih.context [.terminal name] []
        simp only [List.append_nil, List.singleton_append] at inContext
        exact inContext
    | @nonTerminal inside outside name rhs rest left right member inner others ihInner ihOthers =>
        have replaced := Produces.replace [] rest member
        refine .step replaced ?_
        rw [List.nil_append, List.map_append]
        have inLeft := ihInner.context [] rest
        have inRight := ihOthers.context (left.map .terminal) []
        simp only [List.nil_append, List.append_nil] at inLeft inRight
        exact inLeft.trans inRight

end PlainGrammar

/-! ### From rule bodies to strings of symbols and back -/

variable {source : Grammar}

theorem RealizesEach.exists_body {plain : PlainGrammar} {items : List Rule}
    {bodies : List (List Symbol)} (each : RealizesEach source plain items bodies) {item : Rule}
    (member : item ∈ items) : ∃ body ∈ bodies, Realizes source plain item body := by
  induction items generalizing bodies with
  | nil => cases member
  | cons head rest ih =>
      cases each with
      | cons first others =>
          rcases List.mem_cons.mp member with rfl | inRest
          · exact ⟨_, List.mem_cons_self, first⟩
          · obtain ⟨body, inBodies, realizes⟩ := ih others inRest
            exact ⟨body, List.mem_cons_of_mem _ inBodies, realizes⟩

theorem RealizesEach.exists_item {plain : PlainGrammar} {items : List Rule}
    {bodies : List (List Symbol)} (each : RealizesEach source plain items bodies)
    {body : List Symbol} (member : body ∈ bodies) :
    ∃ item ∈ items, Realizes source plain item body := by
  induction bodies generalizing items with
  | nil => cases member
  | cons head rest ih =>
      cases each with
      | cons first others =>
          rcases List.mem_cons.mp member with rfl | inRest
          · exact ⟨_, List.mem_cons_self, first⟩
          · obtain ⟨item, inItems, realizes⟩ := ih others inRest
            exact ⟨item, List.mem_cons_of_mem _ inItems, realizes⟩

namespace Grammar

theorem denotes_of_topBranches {rule item : Rule} {word : List String}
    (member : item ∈ Lowering.topBranches rule) (denotes : source.Denotes item word) :
    source.Denotes rule word := by
  cases rule with
  | alternative items => exact .alternative member denotes
  | _ => exact List.mem_singleton.mp member ▸ denotes

theorem yields_of_denotes {rule : Rule} {word : List String} (denotes : source.Denotes rule word) :
    ∀ symbols, Realizes source source.lower rule symbols →
      ∃ cost, source.lower.Yields cost symbols word := by
  induction denotes with
  | terminal name =>
      intro symbols realizes
      cases realizes
      exact ⟨0, .terminal name .nil⟩
  | @nonTerminal name body word member inner ih =>
      intro symbols realizes
      cases realizes
      have each := source.lower_realizes (name, body) member
      by_cases branching : ∃ items, body = .alternative items
      · obtain ⟨items, rfl⟩ := branching
        exact ih _ (.alternative each)
      · have whole : body ∈ Lowering.topBranches body := by
          cases body with
          | alternative items => exact absurd ⟨items, rfl⟩ branching
          | _ => exact List.mem_singleton_self _
        obtain ⟨rhs, inBodies, realizes⟩ := each.exists_body whole
        obtain ⟨cost, yields⟩ := ih rhs realizes
        exact ⟨cost + 1, .single inBodies yields⟩
  | sequenceNil =>
      intro symbols realizes
      cases realizes with
      | sequence each =>
          cases each
          exact ⟨0, .nil⟩
  | sequenceCons first others ihFirst ihOthers =>
      intro symbols realizes
      cases realizes with
      | sequence each =>
          cases each with
          | cons head rest =>
              obtain ⟨leftCost, inLeft⟩ := ihFirst _ head
              obtain ⟨rightCost, inRight⟩ := ihOthers _ (.sequence rest)
              exact ⟨leftCost + rightCost, inLeft.append inRight⟩
  | alternative member chosen ih =>
      intro symbols realizes
      cases realizes with
      | alternative each =>
          obtain ⟨rhs, inBodies, realizes⟩ := each.exists_body member
          obtain ⟨cost, yields⟩ := ih rhs realizes
          exact ⟨cost + 1, .single inBodies yields⟩
  | optionalNone =>
      intro symbols realizes
      cases realizes with
      | optional branches once => exact ⟨1, .single (by rw [branches]; simp) .nil⟩
  | optionalSome chosen ih =>
      intro symbols realizes
      cases realizes with
      | optional branches once =>
          obtain ⟨cost, yields⟩ := ih _ once
          exact ⟨cost + 1, .single (by rw [branches]; simp) yields⟩
  | zeroOrMoreNil =>
      intro symbols realizes
      cases realizes with
      | zeroOrMore branches once => exact ⟨1, .single (by rw [branches]; simp) .nil⟩
  | zeroOrMoreCons first others ihFirst ihOthers =>
      intro symbols realizes
      cases realizes with
      | zeroOrMore branches once =>
          obtain ⟨leftCost, inLeft⟩ := ihFirst _ once
          obtain ⟨rightCost, inRight⟩ := ihOthers _ (.zeroOrMore branches once)
          exact ⟨_, .single (by rw [branches]; simp) (inLeft.append inRight)⟩
  | oneOrMore first others ihFirst ihOthers =>
      intro symbols realizes
      cases realizes with
      | oneOrMore branches tailBranches once =>
          obtain ⟨leftCost, inLeft⟩ := ihFirst _ once
          obtain ⟨rightCost, inRight⟩ := ihOthers _ (.zeroOrMore tailBranches once)
          exact ⟨_, .single (by rw [branches]; simp) (inLeft.append inRight)⟩

/-- What strings that cost less than `limit` are known to denote. -/
def KnownBelow (source : Grammar) (limit : Nat) : Prop :=
  ∀ cost < limit, ∀ rule symbols word, Realizes source source.lower rule symbols →
    source.lower.Yields cost symbols word → source.Denotes rule word

theorem denotes_zeroOrMore {limit cost : Nat} {inner : Rule} {body : List Symbol} {name : String}
    {word : List String} (known : source.KnownBelow limit) (within : cost ≤ limit)
    (branches : source.lower.bodiesOf name = [body ++ [.nonTerminal name], []])
    (once : Realizes source source.lower inner body)
    (yields : source.lower.Yields cost [.nonTerminal name] word) :
    source.Denotes (.zeroOrMore inner) word := by
  obtain ⟨less, below, rhs, member, inside⟩ := yields.production
  rw [branches, List.mem_cons, List.mem_singleton] at member
  rcases member with rfl | rfl
  · obtain ⟨first, second, left, right, rfl, rfl, inLeft, inRight⟩ := inside.split
    exact .zeroOrMoreCons (known first (by omega) _ _ _ once inLeft)
      (known second (by omega) _ _ _ (.zeroOrMore branches once) inRight)
  · obtain ⟨-, rfl⟩ := inside.eq_nil
    exact .zeroOrMoreNil

mutual

/-- What the string of a rule body yields is a string of the body: a replacement
costs one, and without one the rule gets smaller. -/
theorem denotes_of_yields_of_known {limit cost : Nat} (rule : Rule) {symbols : List Symbol}
    {word : List String} (known : source.KnownBelow limit) (within : cost ≤ limit)
    (realizes : Realizes source source.lower rule symbols)
    (yields : source.lower.Yields cost symbols word) : source.Denotes rule word := by
  match rule with
  | .terminal name =>
      cases realizes
      cases yields with
      | terminal _ others =>
          obtain ⟨-, rfl⟩ := others.eq_nil
          exact .terminal name
  | .nonTerminal name =>
      cases realizes with
      | nonTerminal declared =>
          obtain ⟨⟨_, body⟩, member, rfl⟩ := List.mem_map.mp declared
          obtain ⟨less, below, rhs, inBodies, inside⟩ := yields.production
          obtain ⟨item, inBranches, realizes⟩ :=
            (source.lower_realizes _ member).exists_item inBodies
          exact .nonTerminal member (denotes_of_topBranches inBranches
            (known less (by omega) item rhs word realizes inside))
  | .sequence items =>
      cases realizes with
      | sequence each => exact denotes_of_yields_each items known within each yields
  | .alternative items =>
      cases realizes with
      | alternative each =>
          obtain ⟨less, below, rhs, inBodies, inside⟩ := yields.production
          obtain ⟨item, member, realizes⟩ := each.exists_item inBodies
          exact .alternative member (known less (by omega) item rhs word realizes inside)
  | .optional inner =>
      cases realizes with
      | optional branches once =>
          obtain ⟨less, below, rhs, member, inside⟩ := yields.production
          rw [branches, List.mem_cons, List.mem_singleton] at member
          rcases member with rfl | rfl
          · exact .optionalSome (known less (by omega) _ _ _ once inside)
          · obtain ⟨-, rfl⟩ := inside.eq_nil
            exact .optionalNone
  | .zeroOrMore inner =>
      cases realizes with
      | zeroOrMore branches once => exact denotes_zeroOrMore known within branches once yields
  | .oneOrMore inner =>
      cases realizes with
      | oneOrMore branches tailBranches once =>
          obtain ⟨less, below, rhs, member, inside⟩ := yields.production
          rw [branches, List.mem_singleton] at member
          subst member
          obtain ⟨first, second, left, right, rfl, rfl, inLeft, inRight⟩ := inside.split
          exact .oneOrMore (known first (by omega) _ _ _ once inLeft)
            (denotes_zeroOrMore known (by omega) tailBranches once inRight)

theorem denotes_of_yields_each {limit cost : Nat} (items : List Rule)
    {bodies : List (List Symbol)} {word : List String} (known : source.KnownBelow limit)
    (within : cost ≤ limit) (each : RealizesEach source source.lower items bodies)
    (yields : source.lower.Yields cost bodies.flatten word) :
    source.Denotes (.sequence items) word := by
  match items with
  | [] =>
      cases each
      obtain ⟨-, rfl⟩ := yields.eq_nil
      exact .sequenceNil
  | item :: rest =>
      cases each with
      | cons first others =>
          obtain ⟨leftCost, rightCost, left, right, rfl, rfl, inLeft, inRight⟩ := yields.split
          exact .sequenceCons
            (denotes_of_yields_of_known item known (by omega) first inLeft)
            (denotes_of_yields_each rest known (by omega) others inRight)

end

theorem knownBelow (source : Grammar) (limit : Nat) : source.KnownBelow limit := by
  induction limit with
  | zero => exact fun cost impossible => absurd impossible (Nat.not_lt_zero _)
  | succ limit known =>
      intro cost below rule symbols word realizes yields
      exact denotes_of_yields_of_known rule known (Nat.le_of_lt_succ below) realizes yields

theorem yields_iff_denotes {rule : Rule} {symbols : List Symbol} {word : List String}
    (realizes : Realizes source source.lower rule symbols) :
    (∃ cost, source.lower.Yields cost symbols word) ↔ source.Denotes rule word := by
  constructor
  · rintro ⟨cost, yields⟩
    exact source.knownBelow (cost + 1) cost (Nat.lt_succ_self _) rule symbols word realizes yields
  · intro denotes
    exact yields_of_denotes denotes symbols realizes

/-- Lowering keeps the terminal strings of every rule. -/
theorem generates_lower_iff_denotes (source : Grammar) (name : String)
    (declared : name ∈ source.names) (word : List String) :
    source.lower.Generates name word ↔ source.Denotes (.nonTerminal name) word :=
  PlainGrammar.derives_iff_yields.trans (yields_iff_denotes (.nonTerminal declared))

/-- A rule whose name looks like the first synthetic one of another rule. -/
def lookalike : Grammar where
  start := "S"
  rules :=
    [("S", .sequence [.zeroOrMore (.terminal "a"), .nonTerminal "S#1"]),
      ("S#1", .oneOrMore (.terminal "b"))]
  distinct := by decide
  startDefined := by decide
  closed := by decide

theorem generates_lookalike :
    "S" ∈ lookalike.names ∧ lookalike.lower.Generates "S" ["a", "a", "b"] := by
  refine ⟨by decide, (generates_lower_iff_denotes lookalike "S" (by decide) _).mpr ?_⟩
  have once : lookalike.Denotes (.zeroOrMore (.terminal "a")) ["a", "a"] :=
    .zeroOrMoreCons (.terminal "a") (.zeroOrMoreCons (.terminal "a") .zeroOrMoreNil)
  have tail : lookalike.Denotes (.nonTerminal "S#1") ["b"] :=
    .nonTerminal (List.mem_cons_of_mem _ (List.mem_singleton_self _))
      (.oneOrMore (.terminal "b") .zeroOrMoreNil)
  exact .nonTerminal List.mem_cons_self (.sequenceCons once (.sequenceCons tail .sequenceNil))

end Grammar

end Predictive
