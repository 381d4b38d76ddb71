/-
The kind of a conflict. A conflict is between FIRST and FOLLOW when one of its
productions vanishes and the lookahead follows the non-terminal, but for one case: a
production that took the cell by what begins it is not seen to claim it by what
follows as well. Only there does the order of the productions matter.
-/

import Predictive.Proofs.Grammar.RuleOrder
import Predictive.Proofs.Parsing.Conflict

namespace Predictive

namespace Conflict

/-- A production of the cell vanishes, and the lookahead follows the non-terminal. -/
def ByFollow (grammar : PlainGrammar) (conflict : Conflict) : Prop :=
  (∃ production ∈ conflict.productions, grammar.Vanishes production.rhs) ∧
    grammar.Follows conflict.lookahead conflict.nonTerminal

/-- The first production of the cell begins with the lookahead, and no other one
vanishes. -/
def Covered (grammar : PlainGrammar) (conflict : Conflict) : Prop :=
  ∃ first rest, conflict.productions = first :: rest ∧
    grammar.Opens conflict.lookahead first.rhs ∧
      ∀ production ∈ rest, ¬grammar.Vanishes production.rhs

end Conflict

namespace Claim

variable {grammar : PlainGrammar} {claims : List Claim} {lookahead : Lookahead}

theorem kind_eq_firstFollow_iff (seen : Bool) :
    (if seen = true then ConflictKind.firstFollow else .firstFirst) = .firstFollow ↔
      seen = true := by
  cases seen <;> simp

theorem exists_holder_of_conflict? {id : Nat} {conflict : Conflict}
    (found : conflict? grammar id claims lookahead = some conflict) :
    ∃ holder rest, occupant? claims lookahead = some holder ∧
      conflict.productions = grammar.production holder.production :: rest ∧
      (∀ production ∈ rest, production ≠ grammar.production holder.production) ∧
      (conflict.kind = .firstFollow ↔ holder.viaFollow = true ∨
        ∃ claim ∈ claims, claim.lookahead = lookahead ∧ claim.viaFollow = true ∧
          grammar.production claim.production ≠ grammar.production holder.production) := by
  unfold conflict? at found
  split at found
  case h_1 => cases found
  case h_2 holder first rest inCell =>
    cases found
    have listed : (holder, first) ∈ (collisions grammar claims).filter
        fun pair => pair.2.lookahead = lookahead := inCell ▸ List.mem_cons_self
    obtain ⟨collides, same⟩ := List.mem_filter.mp listed
    obtain ⟨-, occupies, -⟩ := mem_collisions collides
    rw [of_decide_eq_true same] at occupies
    refine ⟨holder, _, occupies, List.eraseDups_cons, ?_, ?_⟩
    · intro production later
      simpa using (List.mem_filter.mp (List.mem_eraseDups.mp later)).2
    · have clashing := @collisions_inCell grammar claims lookahead holder occupies
      rw [inCell] at clashing
      rw [clashing, kind_eq_firstFollow_iff, List.any_map, List.any_eq_true]
      simp only [List.mem_filter, Function.comp, Bool.or_eq_true, decide_eq_true_eq]
      constructor
      · intro seen
        obtain ⟨claim, ⟨⟨member, here⟩, clash⟩, byFollow⟩ := seen
        rcases byFollow with holding | claiming
        · exact Or.inl holding
        · exact Or.inr ⟨claim, member, here, claiming, (of_decide_eq_true clash).symm⟩
      · intro seen
        rcases seen with holding | ⟨claim, member, here, claiming, different⟩
        · have clash := (mem_collisions collides).2.2
          exact ⟨first, ⟨⟨(mem_collisions collides).1, of_decide_eq_true same⟩,
            decide_eq_true clash⟩, Or.inl holding⟩
        · exact ⟨claim, ⟨⟨member, here⟩, decide_eq_true different.symm⟩, Or.inr claiming⟩

end Claim

namespace ParseTable

variable {grammar : PlainGrammar} {first : FirstSets} {follow : FollowSets} {id number : Nat}
  {lookahead : Lookahead}

theorem exists_followClaim_iff :
    (∃ claim ∈ productionClaims grammar first follow id number,
        claim.lookahead = lookahead ∧ claim.viaFollow = true) ↔
      (first.ofSymbols (grammar.production number).rhs).2 = true ∧ lookahead ∈ follow.ofId id := by
  simp only [productionClaims]
  split
  case isTrue nullable =>
    simp only [List.mem_append, List.mem_map, nullable, true_and]
    constructor
    · intro claimed
      obtain ⟨claim, ⟨kind, -, rfl⟩ | ⟨other, member, rfl⟩, rfl, byFollow⟩ := claimed
      · cases byFollow
      · exact member
    · intro member
      exact ⟨_, Or.inr ⟨lookahead, member, rfl⟩, rfl, rfl⟩
  case isFalse strict =>
    simp only [List.mem_map]
    constructor
    · intro claimed
      obtain ⟨claim, ⟨kind, -, rfl⟩, -, byFollow⟩ := claimed
      cases byFollow
    · intro both
      exact (strict both.1).elim

/-- The first claim of a production to a cell is by what begins it, if that claims the
cell at all. -/
theorem viaFollow_of_find? {holder : Claim}
    (found : (productionClaims grammar first follow id number).find?
      (fun claim => claim.lookahead = lookahead) = some holder) :
    holder.viaFollow = true ↔ ¬∃ kind, lookahead = .token kind ∧
      kind ∈ (first.ofSymbols (grammar.production number).rhs).1 := by
  have begun : ∀ {terminals : List String} {claim : Claim},
      (terminals.map fun terminal => Claim.mk number (.token terminal) false).find?
          (fun claim => claim.lookahead = lookahead) = some claim →
        claim.viaFollow = false ∧ ∃ kind, lookahead = .token kind ∧ kind ∈ terminals := by
    intro terminals claim begins
    obtain ⟨kind, member, rfl⟩ := List.mem_map.mp (List.mem_of_find?_eq_some begins)
    have same := List.find?_some begins
    exact ⟨rfl, kind, (of_decide_eq_true same).symm, member⟩
  simp only [productionClaims] at found
  split at found
  case isFalse =>
    obtain ⟨notFollow, begins⟩ := begun found
    rw [notFollow]
    exact iff_of_false Bool.false_ne_true fun none => none begins
  case isTrue =>
    rw [List.find?_append] at found
    rcases Option.or_eq_some_iff.mp found with byFirst | ⟨none, byFollow⟩
    · obtain ⟨notFollow, begins⟩ := begun byFirst
      rw [notFollow]
      exact iff_of_false Bool.false_ne_true fun none => none begins
    · obtain ⟨other, -, rfl⟩ := List.mem_map.mp (List.mem_of_find?_eq_some byFollow)
      refine ⟨fun _ begins => ?_, fun _ => rfl⟩
      obtain ⟨kind, rfl, member⟩ := begins
      have unclaimed := List.find?_eq_none.mp none _ (List.mem_map_of_mem member)
      exact unclaimed (decide_eq_true rfl)

theorem viaFollow_of_occupant? {holder : Claim}
    (occupies : Claim.occupant? (claims grammar first follow id) lookahead = some holder) :
    holder.viaFollow = true ↔ ¬∃ kind, lookahead = .token kind ∧
      kind ∈ (first.ofSymbols (grammar.production holder.production).rhs).1 := by
  rw [Claim.occupant?, claims, List.find?_flatMap] at occupies
  obtain ⟨before, number, after, -, found, -⟩ := List.findSome?_eq_some_iff.mp occupies
  rw [production_of_mem_productionClaims (List.mem_of_find?_eq_some found)]
  exact viaFollow_of_find? found

theorem viaFollow_iff_not_opens (consistent : grammar.Consistent) {holder : Claim}
    (occupies : Claim.occupant? (claims grammar (.compute grammar)
      (.compute grammar (.compute grammar)) id) lookahead = some holder) :
    holder.viaFollow = true ↔
      ¬grammar.Opens lookahead (grammar.production holder.production).rhs := by
  rw [viaFollow_of_occupant? occupies]
  simp only [FirstSets.mem_compute_ofSymbols_iff consistent]
  rfl

section Computed

variable (consistent : grammar.Consistent)
  (started : grammar.nameOf? grammar.start = some grammar.startName) {name : String}
  (named : grammar.nameOf? id = some name)

include consistent started named

theorem exists_followClaim_compute_iff {production : Production} :
    (∃ claim ∈ claims grammar (.compute grammar) (.compute grammar (.compute grammar)) id,
        claim.lookahead = lookahead ∧ claim.viaFollow = true ∧
          grammar.production claim.production = production) ↔
      production ∈ grammar.productions ∧ production.lhs = name ∧
        grammar.Vanishes production.rhs ∧ grammar.Follows lookahead name := by
  constructor
  · intro claimed
    obtain ⟨claim, member, here, byFollow, rfl⟩ := claimed
    obtain ⟨number, isListed, inClaims⟩ := List.mem_flatMap.mp member
    cases production_of_mem_productionClaims inClaims
    obtain ⟨rhs, listed⟩ := (consistent.listed named claim.production).mp isListed
    obtain ⟨nullable, follows⟩ := exists_followClaim_iff.mp ⟨claim, inClaims, here, byFollow⟩
    rw [PlainGrammar.production_of_getElem? listed] at nullable ⊢
    exact ⟨Array.mem_of_getElem? listed, rfl,
      (FirstSets.compute_ofSymbols_nullable_iff consistent).mp nullable,
      (FollowSets.mem_compute_iff consistent started named).mp follows⟩
  · intro vanishing
    obtain ⟨member, rfl, empty, follows⟩ := vanishing
    obtain ⟨number, listed⟩ := Array.mem_iff_getElem?.mp member
    have same := PlainGrammar.production_of_getElem? listed
    have nullable := (FirstSets.compute_ofSymbols_nullable_iff consistent).mpr empty
    rw [← same] at nullable
    obtain ⟨claim, inClaims, here, byFollow⟩ := exists_followClaim_iff.mpr
      ⟨nullable, (FollowSets.mem_compute_iff consistent started named).mpr follows⟩
    have own := production_of_mem_productionClaims inClaims
    refine ⟨claim, ?_, here, byFollow, own ▸ same⟩
    exact List.mem_flatMap.mpr
      ⟨number, (consistent.listed named number).mpr ⟨production.rhs, listed⟩, inClaims⟩

theorem mem_productions_of_conflict? {conflict : Conflict}
    (found : Claim.conflict? grammar id (claims grammar (.compute grammar)
      (.compute grammar (.compute grammar)) id) lookahead = some conflict)
    (production : Production) :
    production ∈ conflict.productions ↔
      production ∈ grammar.productions ∧ production.lhs = name ∧
        grammar.Predicts lookahead production := by
  obtain ⟨-, -, productions, -⟩ := Claim.conflict?_eq_some found
  rw [productions, List.mem_eraseDups]
  exact mem_map_rivals_iff consistent started named

/-- A conflict is between FIRST and FOLLOW when a production that vanishes is called for
by what follows, unless that is covered. -/
theorem kind_of_conflict? {conflict : Conflict}
    (found : Claim.conflict? grammar id (claims grammar (.compute grammar)
      (.compute grammar (.compute grammar)) id) lookahead = some conflict) :
    conflict.kind = .firstFollow ↔ conflict.ByFollow grammar ∧ ¬conflict.Covered grammar := by
  obtain ⟨sameName, rfl, -, -⟩ := Claim.conflict?_eq_some found
  obtain ⟨holder, rest, occupies, productions, others, kind⟩ :=
    Claim.exists_holder_of_conflict? found
  have holds := viaFollow_iff_not_opens consistent occupies
  have follower := @exists_followClaim_compute_iff grammar id conflict.lookahead consistent started
    name named
  have own : conflict.nonTerminal = name := by
    rw [sameName, PlainGrammar.nameOf, named, Option.getD_some]
  have called := @mem_productions_of_conflict? grammar id conflict.lookahead consistent started
    name named conflict found
  rw [kind]
  constructor
  · intro seen
    rcases seen with holding | ⟨claim, member, here, byFollow, different⟩
    · have unopened := holds.mp holding
      obtain ⟨-, ownName, predicts⟩ := (called _).mp (productions ▸ List.mem_cons_self)
      obtain ⟨empty, follows⟩ := predicts.resolve_left unopened
      refine ⟨⟨⟨_, productions ▸ List.mem_cons_self, empty⟩, own ▸ ownName ▸ follows⟩, ?_⟩
      intro covered
      obtain ⟨first, others, same, opens, -⟩ := covered
      cases productions.symm.trans same
      exact unopened opens
    · obtain ⟨listed, ownName, empty, follows⟩ :=
        follower.mp ⟨claim, member, here, byFollow, rfl⟩
      have inCell := (called _).mpr ⟨listed, ownName, Or.inr ⟨empty, ownName ▸ follows⟩⟩
      refine ⟨⟨⟨_, inCell, empty⟩, own ▸ follows⟩, ?_⟩
      intro covered
      obtain ⟨first, others, same, -, solid⟩ := covered
      cases productions.symm.trans same
      rw [productions] at inCell
      exact solid _ ((List.mem_cons.mp inCell).resolve_left different) empty
  · intro both
    obtain ⟨⟨-, follows⟩, uncovered⟩ := both
    by_cases opens : grammar.Opens conflict.lookahead (grammar.production holder.production).rhs
    · have vanishing : ∃ production ∈ rest, grammar.Vanishes production.rhs :=
        Classical.byContradiction fun solid => uncovered
          ⟨_, rest, productions, opens, fun production later empty =>
            solid ⟨production, later, empty⟩⟩
      obtain ⟨production, later, empty⟩ := vanishing
      obtain ⟨listed, ownName, -⟩ :=
        (called production).mp (productions ▸ List.mem_cons_of_mem _ later)
      obtain ⟨claim, member, here, byFollow, rfl⟩ :=
        follower.mpr ⟨listed, ownName, empty, own ▸ follows⟩
      exact Or.inr ⟨claim, member, here, byFollow, others _ later⟩
    · exact Or.inl (holds.mpr opens)

end Computed

theorem byFollow_iff {found : List Conflict} (reports : grammar.Reports found)
    {conflict : Conflict} (listed : conflict ∈ found) :
    conflict.ByFollow grammar ↔ grammar.Vanishes [.nonTerminal conflict.nonTerminal] ∧
      grammar.Follows conflict.lookahead conflict.nonTerminal := by
  constructor
  · intro both
    obtain ⟨⟨production, inCell, empty⟩, follows⟩ := both
    obtain ⟨member, own, -⟩ := (reports.called conflict listed production).mp inCell
    rw [← own]
    exact ⟨.cons member empty .nil, own ▸ follows⟩
  · intro both
    obtain ⟨empty, follows⟩ := both
    obtain ⟨rhs, member, rhsEmpty⟩ := empty.production
    refine ⟨⟨⟨conflict.nonTerminal, rhs⟩, ?_, rhsEmpty⟩, follows⟩
    exact (reports.called conflict listed _).mpr ⟨member, rfl, Or.inr ⟨rhsEmpty, follows⟩⟩

theorem kind_of_build {source : Grammar} {found : List Conflict}
    (failed : build source = .error (.notLl1 found)) {conflict : Conflict}
    (listed : conflict ∈ found) :
    conflict.kind = .firstFollow ↔
      conflict.ByFollow source.lower ∧ ¬conflict.Covered source.lower := by
  obtain ⟨rfl, -⟩ := ofSets_eq_notLl1_iff.mp failed
  have regular := source.lower_regular
  obtain ⟨id, inRange, lookahead, inCell⟩ := mem_conflicts.mp listed
  have named := PlainGrammar.nameOf?_of_lt source.lower inRange
  exact kind_of_conflict? regular.consistent regular.started named inCell

theorem reports_of_build {source : Grammar} {found : List Conflict}
    (failed : build source = .error (.notLl1 found)) : source.lower.Reports found := by
  obtain ⟨rfl, -⟩ := ofSets_eq_notLl1_iff.mp failed
  have regular := source.lower_regular
  exact conflicts_reports regular.consistent regular.inOrder regular.started

/-- A conflict is between FIRST and FOLLOW exactly when one of its productions vanishes
and the lookahead follows the non-terminal, unless the first production begins with the
lookahead and no other one vanishes. Without that exception, grammars with the same
productions in another order have conflicts of the same kind. -/
theorem build_kind_iff_byFollow {source : Grammar} {found : List Conflict}
    (failed : build source = .error (.notLl1 found)) :
    (∀ conflict ∈ found,
      (conflict.kind = .firstFollow ↔
        conflict.ByFollow source.lower ∧ ¬conflict.Covered source.lower) ∧
      (conflict.kind = .firstFirst ↔
        ¬(conflict.ByFollow source.lower ∧ ¬conflict.Covered source.lower))) ∧
    ∀ (other : Grammar) (twins : List Conflict),
      source.lower.Within other.lower → other.lower.Within source.lower →
        build other = .error (.notLl1 twins) →
          ∀ conflict ∈ found, ∀ twin ∈ twins, conflict.nonTerminal = twin.nonTerminal →
            conflict.lookahead = twin.lookahead → ¬conflict.Covered source.lower →
              ¬twin.Covered other.lower → conflict.kind = twin.kind := by
  have otherwise : ∀ kind : ConflictKind, kind = .firstFirst ↔ ¬kind = .firstFollow := by
    intro kind
    cases kind <;> simp
  refine ⟨fun conflict listed => ?_, ?_⟩
  · have kind := kind_of_build failed listed
    exact ⟨kind, (otherwise _).trans (not_congr kind)⟩
  · intro other twins toOther fromOther twinFailed conflict listed twin twinListed sameName
      sameLookahead uncovered twinUncovered
    have byFollow := byFollow_iff (reports_of_build failed) listed
    have twinByFollow := byFollow_iff (reports_of_build twinFailed) twinListed
    have same : conflict.ByFollow source.lower ↔ twin.ByFollow other.lower := by
      rw [byFollow, twinByFollow, sameName, sameLookahead]
      exact ⟨fun both => ⟨toOther.vanishes both.1, toOther.follows both.2⟩,
        fun both => ⟨fromOther.vanishes both.1, fromOther.follows both.2⟩⟩
    have kinds : conflict.kind = .firstFollow ↔ twin.kind = .firstFollow := by
      rw [kind_of_build failed listed, kind_of_build twinFailed twinListed, same]
      simp only [uncovered, twinUncovered]
    cases first : conflict.kind with
    | firstFollow => exact (kinds.mp first).symm
    | firstFirst => exact ((otherwise _).mpr fun second => by simp [kinds.mpr second] at first).symm

/-- An alternative that may vanish or begin with `a`, and one that begins with `a`, in
front of `a`. -/
def vanishingFirst : Grammar where
  start := "S"
  rules :=
    [("S", .sequence [.nonTerminal "A", .terminal "a"]),
      ("A", .alternative [.nonTerminal "B", .sequence [.terminal "a", .terminal "x"]]),
      ("B", .alternative [.terminal "a", .sequence []])]
  distinct := by decide
  startDefined := by decide
  closed := by decide

def vanishingLast : Grammar where
  start := "S"
  rules :=
    [("S", .sequence [.nonTerminal "A", .terminal "a"]),
      ("A", .alternative [.sequence [.terminal "a", .terminal "x"], .nonTerminal "B"]),
      ("B", .alternative [.sequence [], .terminal "a"])]
  distinct := by decide
  startDefined := by decide
  closed := by decide

def conflictsVanishingFirst : List Conflict :=
  [⟨"A", .token "a", [⟨"A", [.nonTerminal "B"]⟩, ⟨"A", [.terminal "a", .terminal "x"]⟩],
      .firstFirst⟩,
    ⟨"B", .token "a", [⟨"B", [.terminal "a"]⟩, ⟨"B", []⟩], .firstFollow⟩]

def conflictsVanishingLast : List Conflict :=
  [⟨"A", .token "a", [⟨"A", [.terminal "a", .terminal "x"]⟩, ⟨"A", [.nonTerminal "B"]⟩],
      .firstFollow⟩,
    ⟨"B", .token "a", [⟨"B", []⟩, ⟨"B", [.terminal "a"]⟩], .firstFollow⟩]

theorem build_vanishingFirst :
    build vanishingFirst = .error (.notLl1 conflictsVanishingFirst) :=
  ofSets_eq_notLl1_iff.mpr ⟨by decide +kernel, by decide⟩

theorem build_vanishingLast :
    build vanishingLast = .error (.notLl1 conflictsVanishingLast) :=
  ofSets_eq_notLl1_iff.mpr ⟨by decide +kernel, by decide⟩

/-- The inner conflict has the same kind in both orders, and the outer one is seen to be
by what follows when the alternative that vanishes is the last. -/
theorem kind_vanishingLast :
    build vanishingLast = .error (.notLl1 conflictsVanishingLast) ∧
      (∀ outer ∈ conflictsVanishingLast.head?,
        outer.ByFollow vanishingLast.lower ∧ ¬outer.Covered vanishingLast.lower) ∧
      ∀ inner ∈ conflictsVanishingLast.getLast?, ∀ twin ∈ conflictsVanishingFirst.getLast?,
        inner.kind = twin.kind := by
  obtain ⟨kinds, orders⟩ := build_kind_iff_byFollow build_vanishingLast
  refine ⟨build_vanishingLast, ?_, ?_⟩
  · intro outer first
    cases first
    exact (kinds _ List.mem_cons_self).1.mp rfl
  · intro inner last twin twinLast
    cases last
    cases twinLast
    have toFirst : vanishingLast.lower.Within vanishingFirst.lower :=
      ⟨by decide +kernel, by decide +kernel⟩
    have fromFirst : vanishingFirst.lower.Within vanishingLast.lower :=
      ⟨by decide +kernel, by decide +kernel⟩
    apply orders vanishingFirst _ toFirst fromFirst build_vanishingFirst _
      (List.mem_of_getLast? rfl) _ (List.mem_of_getLast? rfl) rfl rfl
    · intro covered
      obtain ⟨first, rest, same, ⟨kind, -, begins⟩, -⟩ := covered
      cases same
      cases begins
    · intro covered
      obtain ⟨first, rest, same, -, solid⟩ := covered
      cases same
      exact solid _ List.mem_cons_self .nil

theorem outer_vanishes_and_follows (inner : ⟨"B", []⟩ ∈ grammar.productions)
    (outer : ⟨"A", [.nonTerminal "B"]⟩ ∈ grammar.productions)
    (top : ⟨"S", [.nonTerminal "A", .terminal "a"]⟩ ∈ grammar.productions) :
    grammar.Vanishes [.nonTerminal "A"] ∧ grammar.Follows (.token "a") "A" := by
  have beside : Production.mk "S" ([] ++ .nonTerminal "A" :: [.terminal "a"]) ∈
      grammar.productions := top
  exact ⟨.cons outer (.cons inner .nil .nil) .nil, .beside beside (.here [])⟩

/-- The outer conflict is by what follows in both orders, but is reported so in one only. -/
theorem kind_depends_on_order :
    build vanishingFirst = .error (.notLl1 conflictsVanishingFirst) ∧
      build vanishingLast = .error (.notLl1 conflictsVanishingLast) ∧
      ∃ outer ∈ conflictsVanishingFirst, ∃ twin ∈ conflictsVanishingLast,
        outer.nonTerminal = twin.nonTerminal ∧ outer.lookahead = twin.lookahead ∧
          outer.ByFollow vanishingFirst.lower ∧ outer.kind = .firstFirst ∧
            twin.ByFollow vanishingLast.lower ∧ twin.kind = .firstFollow := by
  refine ⟨build_vanishingFirst, build_vanishingLast, _, List.mem_cons_self, _,
    List.mem_cons_self, rfl, rfl, ?_, rfl, ?_, rfl⟩
  · apply (byFollow_iff (reports_of_build build_vanishingFirst) List.mem_cons_self).mpr
    exact outer_vanishes_and_follows (by decide +kernel) (by decide +kernel) (by decide +kernel)
  · apply (byFollow_iff (reports_of_build build_vanishingLast) List.mem_cons_self).mpr
    exact outer_vanishes_and_follows (by decide +kernel) (by decide +kernel) (by decide +kernel)

end ParseTable

end Predictive
