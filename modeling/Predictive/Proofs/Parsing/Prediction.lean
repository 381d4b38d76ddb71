/-
The table of a grammar without conflicts says exactly which production a lookahead
calls for: one that the lookahead can begin, or one that vanishes where the
lookahead can follow. Different productions of a non-terminal are never called
for by one lookahead.
-/

import Predictive.Parsing.Table
import Predictive.Proofs.Grammar.Follow
import Predictive.Proofs.Grammar.Realization

namespace Predictive

namespace PlainGrammar

/-- The lookahead is a token that can begin the string. -/
def Opens (grammar : PlainGrammar) (lookahead : Lookahead) (symbols : List Symbol) : Prop :=
  ∃ kind, lookahead = .token kind ∧ grammar.Begins kind symbols

/-- The lookahead calls for the production. -/
def Predicts (grammar : PlainGrammar) (lookahead : Lookahead) (production : Production) : Prop :=
  grammar.Opens lookahead production.rhs ∨
    grammar.Vanishes production.rhs ∧ grammar.Follows lookahead production.lhs

variable {grammar : PlainGrammar}

theorem production_of_getElem? {number : Nat} {production : Production}
    (found : grammar.productions[number]? = some production) :
    grammar.production number = production := by
  rw [PlainGrammar.production, Array.getD_eq_getD_getElem?, found, Option.getD_some]

end PlainGrammar

namespace Claim

variable {claims : List Claim} {lookahead : Lookahead}

theorem occupant?_eq_some {occupant : Claim} (found : occupant? claims lookahead = some occupant) :
    occupant ∈ claims ∧ occupant.lookahead = lookahead := by
  have same := List.find?_some found
  exact ⟨List.mem_of_find?_eq_some found, of_decide_eq_true same⟩

theorem exists_occupant? {claim : Claim} (member : claim ∈ claims) :
    ∃ occupant, occupant? claims claim.lookahead = some occupant := by
  refine Option.isSome_iff_exists.mp (List.find?_isSome.mpr ⟨claim, member, ?_⟩)
  exact decide_eq_true rfl

theorem occupant?_eq_none (absent : lookahead ∉ lookaheads claims) :
    occupant? claims lookahead = none := by
  refine List.find?_eq_none.mpr fun claim member same => absent ?_
  rw [← of_decide_eq_true same]
  exact OrderedSet.mem_ofList.mpr (List.mem_map_of_mem member)

theorem lookup_row (claims : List Claim) (lookahead : Lookahead) :
    (row claims).lookup lookahead = (occupant? claims lookahead).map Claim.production := by
  have inSome : ∀ candidates : List Lookahead,
      (lookahead ∉ candidates → occupant? claims lookahead = none) →
      (candidates.filterMap fun other =>
        (occupant? claims other).map fun occupant =>
          (other, occupant.production)).lookup lookahead =
        (occupant? claims lookahead).map Claim.production := by
    intro candidates known
    induction candidates with
    | nil =>
        rw [known List.not_mem_nil]
        rfl
    | cons head rest ih =>
        by_cases same : lookahead = head
        · subst same
          cases found : occupant? claims lookahead with
          | none =>
              rw [List.filterMap_cons_none (by rw [found]; rfl), ih fun _ => found, found]
          | some occupant =>
              rw [List.filterMap_cons_some (by rw [found]; rfl), List.lookup_cons_self]
              rfl
        · have later : lookahead ∉ rest → occupant? claims lookahead = none := by
            intro absent
            exact known fun member => (List.mem_cons.mp member).elim same absent
          cases found : occupant? claims head with
          | none => rw [List.filterMap_cons_none (by rw [found]; rfl), ih later]
          | some occupant =>
              rw [List.filterMap_cons_some (by rw [found]; rfl), List.lookup_cons,
                beq_false_of_ne same]
              exact ih later
  exact inSome (lookaheads claims) occupant?_eq_none

theorem production_eq_of_conflict? {grammar : PlainGrammar} (id : Nat) {claim occupant : Claim}
    (free : conflict? grammar id claims claim.lookahead = none) (member : claim ∈ claims)
    (found : occupant? claims claim.lookahead = some occupant) :
    grammar.production occupant.production = grammar.production claim.production := by
  by_cases same : grammar.production occupant.production = grammar.production claim.production
  · exact same
  · exfalso
    have collides : (occupant, claim) ∈ collisions grammar claims := by
      refine List.mem_filterMap.mpr ⟨claim, member, ?_⟩
      have clash : clashes grammar occupant claim = true := decide_eq_true same
      simp only [found, clash, if_true]
    have inCell : (occupant, claim) ∈ (collisions grammar claims).filter
        fun pair => pair.2.lookahead = claim.lookahead :=
      List.mem_filter.mpr ⟨collides, decide_eq_true rfl⟩
    unfold conflict? at free
    split at free
    case h_1 none => exact List.not_mem_nil (none ▸ inCell)
    case h_2 => cases free

end Claim

namespace ParseTable

variable {grammar : PlainGrammar} {first : FirstSets} {follow : FollowSets} {table : ParseTable}

theorem ofSets_eq_ok_iff :
    ofSets grammar first follow = .ok table ↔
      conflicts grammar first follow = [] ∧ table = fill grammar first follow := by
  unfold ofSets
  split
  case h_1 none => simp only [none, Except.ok.injEq, true_and, eq_comm]
  case h_2 some => exact ⟨nofun, fun parts => (some parts.1).elim⟩

theorem productionId?_fill {id : Nat} (inRange : id < grammar.nonTerminals.size)
    (lookahead : Lookahead) :
    (fill grammar first follow).productionId? id lookahead =
      (Claim.occupant? (claims grammar first follow id) lookahead).map Claim.production := by
  rw [productionId?, row, fill, Array.getD_eq_getD_getElem?, List.getElem?_toArray,
    List.getElem?_map, List.getElem?_range inRange]
  exact Claim.lookup_row _ lookahead

theorem agrees_of_conflicts (free : conflicts grammar first follow = []) {id : Nat}
    (inRange : id < grammar.nonTerminals.size) {claim occupant : Claim}
    (member : claim ∈ claims grammar first follow id)
    (found : Claim.occupant? (claims grammar first follow id) claim.lookahead = some occupant) :
    grammar.production occupant.production = grammar.production claim.production := by
  refine Claim.production_eq_of_conflict? id ?_ member found
  have none := List.flatMap_eq_nil_iff.mp free id (List.mem_range.mpr inRange)
  exact List.filterMap_eq_nil_iff.mp none claim.lookahead
    (OrderedSet.mem_ofList.mpr (List.mem_map_of_mem member))

theorem exists_productionClaim_iff {id number : Nat} {lookahead : Lookahead} :
    (∃ claim ∈ productionClaims grammar first follow id number, claim.lookahead = lookahead) ↔
      (∃ kind, lookahead = .token kind ∧
          kind ∈ (first.ofSymbols (grammar.production number).rhs).1) ∨
        (first.ofSymbols (grammar.production number).rhs).2 = true ∧
          lookahead ∈ follow.ofId id := by
  simp only [productionClaims]
  split
  case isTrue nullable =>
    simp only [List.mem_append, List.mem_map, nullable, true_and]
    constructor
    · rintro ⟨claim, ⟨kind, member, rfl⟩ | ⟨other, member, rfl⟩, rfl⟩
      · exact Or.inl ⟨kind, rfl, member⟩
      · exact Or.inr member
    · rintro (⟨kind, rfl, member⟩ | member)
      · exact ⟨_, Or.inl ⟨kind, member, rfl⟩, rfl⟩
      · exact ⟨_, Or.inr ⟨lookahead, member, rfl⟩, rfl⟩
  case isFalse strict =>
    simp only [List.mem_map]
    constructor
    · rintro ⟨claim, ⟨kind, member, rfl⟩, rfl⟩
      exact Or.inl ⟨kind, rfl, member⟩
    · rintro (⟨kind, rfl, member⟩ | ⟨nullable, -⟩)
      · exact ⟨_, ⟨kind, member, rfl⟩, rfl⟩
      · exact (strict nullable).elim

theorem production_of_mem_productionClaims {id number : Nat} {claim : Claim}
    (member : claim ∈ productionClaims grammar first follow id number) :
    claim.production = number := by
  simp only [productionClaims] at member
  split at member
  case isTrue =>
    rcases List.mem_append.mp member with byFirst | byFollow
    · obtain ⟨kind, -, rfl⟩ := List.mem_map.mp byFirst
      rfl
    · obtain ⟨lookahead, -, rfl⟩ := List.mem_map.mp byFollow
      rfl
  case isFalse =>
    obtain ⟨kind, -, rfl⟩ := List.mem_map.mp member
    rfl

/-- A production claims a cell of its non-terminal exactly when the lookahead calls
for it. -/
theorem exists_claim_iff (consistent : grammar.Consistent) {start : String}
    (started : grammar.nameOf? grammar.start = some start) {id : Nat} {name : String}
    (named : grammar.nameOf? id = some name) {number : Nat} {lookahead : Lookahead} :
    (∃ claim ∈ claims grammar (.compute grammar) (.compute grammar (.compute grammar)) id,
        claim.production = number ∧ claim.lookahead = lookahead) ↔
      ∃ rhs, grammar.productions[number]? = some ⟨name, rhs⟩ ∧
        grammar.Predicts lookahead ⟨name, rhs⟩ := by
  have called : ∀ {rhs : List Symbol}, grammar.productions[number]? = some ⟨name, rhs⟩ →
      ((∃ claim ∈ productionClaims grammar (.compute grammar)
          (.compute grammar (.compute grammar)) id number, claim.lookahead = lookahead) ↔
        grammar.Predicts lookahead ⟨name, rhs⟩) := by
    intro rhs listed
    rw [exists_productionClaim_iff, PlainGrammar.production_of_getElem? listed,
      FirstSets.compute_ofSymbols_nullable_iff consistent,
      FollowSets.mem_compute_iff consistent started named]
    simp only [FirstSets.mem_compute_ofSymbols_iff consistent]
    rfl
  constructor
  · rintro ⟨claim, member, rfl, same⟩
    obtain ⟨number, isListed, inClaims⟩ := List.mem_flatMap.mp member
    cases production_of_mem_productionClaims inClaims
    obtain ⟨rhs, listed⟩ := (consistent.listed named claim.production).mp isListed
    exact ⟨rhs, listed, (called listed).mp ⟨claim, inClaims, same⟩⟩
  · rintro ⟨rhs, listed, predicts⟩
    obtain ⟨claim, inClaims, same⟩ := (called listed).mpr predicts
    refine ⟨claim, ?_, production_of_mem_productionClaims inClaims, same⟩
    exact List.mem_flatMap.mpr
      ⟨number, (consistent.listed named number).mpr ⟨rhs, listed⟩, inClaims⟩

/-- The table expands a non-terminal by what the lookahead calls for. -/
structure Exact (table : ParseTable) : Prop where
  consistent : table.grammar.Consistent
  get?_iff : ∀ {name : String} {lookahead : Lookahead} {production : Production},
    table.get? name lookahead = some production ↔
      production.lhs = name ∧ production ∈ table.grammar.productions ∧
        table.grammar.Predicts lookahead production

theorem get?_eq_some_iff (consistent : table.grammar.Consistent) {name : String}
    {lookahead : Lookahead} {production : Production} :
    table.get? name lookahead = some production ↔
      ∃ id number, table.grammar.nameOf? id = some name ∧
        table.productionId? id lookahead = some number ∧
          table.grammar.production number = production := by
  simp only [get?, Option.bind_eq_some_iff, Option.map_eq_some_iff, consistent.idOf?_eq_some_iff]
  constructor
  · rintro ⟨id, named, number, found, same⟩
    exact ⟨id, number, named, found, same⟩
  · rintro ⟨id, number, named, found, same⟩
    exact ⟨id, named, number, found, same⟩

theorem ofPlain_exact (consistent : grammar.Consistent)
    (started : grammar.nameOf? grammar.start = some grammar.startName)
    (built : ofPlain grammar = .ok table) : table.grammar = grammar ∧ table.Exact := by
  obtain ⟨free, rfl⟩ := ofSets_eq_ok_iff.mp built
  refine ⟨rfl, consistent, ?_⟩
  intro name lookahead production
  rw [get?_eq_some_iff consistent]
  change (∃ id number, grammar.nameOf? id = some name ∧ _ ∧
      grammar.production number = production) ↔
    production.lhs = name ∧ production ∈ grammar.productions ∧ grammar.Predicts lookahead production
  constructor
  · rintro ⟨id, number, named, found, rfl⟩
    rw [productionId?_fill (PlainGrammar.lt_size_of_nameOf? named)] at found
    obtain ⟨occupant, occupies, sameNumber⟩ := Option.map_eq_some_iff.mp found
    obtain ⟨member, sameLookahead⟩ := Claim.occupant?_eq_some occupies
    obtain ⟨rhs, listed, predicts⟩ := (exists_claim_iff consistent started named).mp
      ⟨occupant, member, sameNumber, sameLookahead⟩
    rw [PlainGrammar.production_of_getElem? listed]
    exact ⟨rfl, Array.mem_of_getElem? listed, predicts⟩
  · rintro ⟨rfl, listed, predicts⟩
    obtain ⟨id, named⟩ := PlainGrammar.mem_names_iff.mp (consistent.owned production listed)
    obtain ⟨number, found⟩ := Array.mem_iff_getElem?.mp listed
    obtain ⟨claim, member, rfl, rfl⟩ := (exists_claim_iff consistent started named).mpr
      ⟨production.rhs, found, predicts⟩
    have inRange := PlainGrammar.lt_size_of_nameOf? named
    obtain ⟨occupant, occupies⟩ := Claim.exists_occupant? member
    refine ⟨id, occupant.production, named, ?_, ?_⟩
    · rw [productionId?_fill inRange, occupies]
      rfl
    · rw [agrees_of_conflicts free inRange member occupies]
      exact PlainGrammar.production_of_getElem? found

theorem build_exact {source : Grammar} (built : build source = .ok table) :
    table.grammar = source.lower ∧ table.Exact := by
  refine ofPlain_exact source.lower_consistent ?_ built
  rw [source.startName_lower]
  exact source.nameOf?_lower_start

namespace Exact

theorem unique (exact : table.Exact) {lookahead : Lookahead} {left right : Production}
    (same : left.lhs = right.lhs) (leftMember : left ∈ table.grammar.productions)
    (rightMember : right ∈ table.grammar.productions)
    (leftPredicted : table.grammar.Predicts lookahead left)
    (rightPredicted : table.grammar.Predicts lookahead right) : left = right := by
  have found := exact.get?_iff.mpr ⟨same, leftMember, leftPredicted⟩
  rw [exact.get?_iff.mpr ⟨rfl, rightMember, rightPredicted⟩] at found
  exact (Option.some.inj found).symm

end Exact

end ParseTable

end Predictive
