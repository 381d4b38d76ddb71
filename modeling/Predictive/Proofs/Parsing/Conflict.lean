/-
Building a table fails exactly when two different productions of a non-terminal are
called for by one lookahead. Each cell contested in this way is reported once, in
the order of the cells, with every production that the lookahead calls for.
-/

import Predictive.Proofs.Parsing.Prediction

namespace Predictive

namespace PlainGrammar

/-- Different productions of the non-terminal are called for by the lookahead. -/
def Contested (grammar : PlainGrammar) (name : String) (lookahead : Lookahead) : Prop :=
  ∃ left ∈ grammar.productions, ∃ right ∈ grammar.productions,
    left.lhs = name ∧ right.lhs = name ∧ left ≠ right ∧
      grammar.Predicts lookahead left ∧ grammar.Predicts lookahead right

/-- The left production was added before the right one was for the first time. -/
def Precedes (grammar : PlainGrammar) (left right : Production) : Prop :=
  ∃ number : Nat, grammar.productions[number]? = some left ∧
    ∀ other : Nat, grammar.productions[other]? = some right → number < other

/-- The numbers are those of certain productions, all of each. -/
def Holds (grammar : PlainGrammar) (numbers : List Nat) : Prop :=
  ∀ number ∈ numbers, ∀ other : Nat,
    grammar.productions[other]? = some (grammar.production number) ↔
      other ∈ numbers ∧ grammar.production other = grammar.production number

variable {grammar : PlainGrammar}

theorem pairwise_precedes_eraseDups : ∀ numbers : List Nat, numbers.Pairwise (· ≤ ·) →
    grammar.Holds numbers →
      (numbers.map grammar.production).eraseDups.Pairwise grammar.Precedes
  | [], _, _ => List.Pairwise.nil
  | head :: rest, ascending, holds => by
      obtain ⟨least, others⟩ := List.pairwise_cons.mp ascending
      have remaining : ((rest.map grammar.production).filter fun production =>
          !production == grammar.production head) =
            (rest.filter fun number =>
              !grammar.production number == grammar.production head).map grammar.production := by
        rw [List.filter_map]
        rfl
      have shorter : (rest.filter fun number =>
          !grammar.production number == grammar.production head).length < (head :: rest).length :=
        Nat.lt_succ_of_le (List.length_filter_le _ rest)
      rw [List.map_cons, List.eraseDups_cons, remaining]
      apply List.pairwise_cons.mpr
      constructor
      · intro production member
        obtain ⟨number, kept, rfl⟩ := List.mem_map.mp (List.mem_eraseDups.mp member)
        obtain ⟨inRest, different⟩ := List.mem_filter.mp kept
        have headListed := (holds head List.mem_cons_self head).mpr ⟨List.mem_cons_self, rfl⟩
        refine ⟨head, headListed, fun other found => ?_⟩
        obtain ⟨inNumbers, same⟩ :=
          (holds number (List.mem_cons_of_mem _ inRest) other).mp found
        rcases List.mem_cons.mp inNumbers with rfl | inRest
        · simp [same] at different
        · apply Nat.lt_of_le_of_ne (least other inRest)
          intro equal
          simp [← same, equal] at different
      · apply pairwise_precedes_eraseDups _ (others.filter _)
        intro number kept other
        obtain ⟨inRest, different⟩ := List.mem_filter.mp kept
        rw [holds number (List.mem_cons_of_mem _ inRest) other, List.mem_filter, List.mem_cons]
        constructor
        · intro both
          obtain ⟨inNumbers, same⟩ := both
          rcases inNumbers with rfl | inRest
          · simp [same] at different
          · exact ⟨⟨inRest, same ▸ different⟩, same⟩
        · intro both
          exact ⟨Or.inr both.1.1, both.2⟩
termination_by numbers => numbers.length
decreasing_by exact shorter

end PlainGrammar

namespace Claim

variable {grammar : PlainGrammar} {claims : List Claim} {lookahead : Lookahead}

def rivals (claims : List Claim) (lookahead : Lookahead) : List Nat :=
  (claims.filter fun claim => claim.lookahead = lookahead).map Claim.production

theorem mem_rivals {number : Nat} :
    number ∈ rivals claims lookahead ↔
      ∃ claim ∈ claims, claim.production = number ∧ claim.lookahead = lookahead := by
  simp only [rivals, List.mem_map, List.mem_filter, decide_eq_true_eq, and_assoc, and_comm]

theorem filterMap_inCell {collision? : Claim → Option (Claim × Claim)} {occupant : Claim}
    (inCell : ∀ claim, claim.lookahead = lookahead → collision? claim =
      if clashes grammar occupant claim then some (occupant, claim) else none)
    (second : ∀ {claim pair}, collision? claim = some pair → pair.2 = claim)
    (candidates : List Claim) :
    (candidates.filterMap collision?).filter (fun pair => pair.2.lookahead = lookahead) =
      ((candidates.filter fun claim => claim.lookahead = lookahead).filter
        (clashes grammar occupant)).map fun claim => (occupant, claim) := by
  induction candidates with
  | nil => rfl
  | cons claim rest ih =>
      rw [List.filterMap_cons]
      by_cases same : claim.lookahead = lookahead
      · rw [inCell claim same, List.filter_cons_of_pos (by simpa using same)]
        by_cases clash : clashes grammar occupant claim = true
        · simp [same, clash, ih]
        · simp [clash, ih]
      · rw [List.filter_cons_of_neg (by simpa using same), ← ih]
        cases collides : collision? claim with
        | none => rfl
        | some pair =>
            apply List.filter_cons_of_neg
            rw [second collides]
            simpa using same

theorem collisions_inCell {occupant : Claim} (found : occupant? claims lookahead = some occupant) :
    (collisions grammar claims).filter (fun pair => pair.2.lookahead = lookahead) =
      ((claims.filter fun claim => claim.lookahead = lookahead).filter
        (clashes grammar occupant)).map fun claim => (occupant, claim) := by
  apply filterMap_inCell
  · intro claim same
    rw [same, found]
  · intro claim pair collides
    split at collides
    case h_1 other =>
      split at collides
      case isTrue =>
        cases collides
        rfl
      case isFalse => cases collides
    case h_2 => cases collides

theorem mem_collisions {pair : Claim × Claim} (collides : pair ∈ collisions grammar claims) :
    pair.2 ∈ claims ∧ occupant? claims pair.2.lookahead = some pair.1 ∧
      grammar.production pair.1.production ≠ grammar.production pair.2.production := by
  obtain ⟨claim, member, same⟩ := List.mem_filterMap.mp collides
  split at same
  case h_1 occupant found =>
    split at same
    case isTrue clash =>
      cases same
      exact ⟨member, found, of_decide_eq_true clash⟩
    case isFalse => cases same
  case h_2 => cases same

theorem eraseDups_inCell {occupant : Claim} (found : occupant? claims lookahead = some occupant) :
    (grammar.production occupant.production ::
        ((collisions grammar claims).filter fun pair => pair.2.lookahead = lookahead).map
          fun pair => grammar.production pair.2.production).eraseDups =
      ((rivals claims lookahead).map grammar.production).eraseDups := by
  rw [collisions_inCell found, rivals]
  have first : (claims.filter fun claim => claim.lookahead = lookahead).head? = some occupant := by
    rw [List.head?_filter]
    exact found
  obtain ⟨others, cell⟩ := List.head?_eq_some_iff.mp first
  have alone : clashes grammar occupant occupant = false := by simp [clashes]
  rw [cell, List.filter_cons_of_neg (by simp [alone])]
  simp only [List.map_cons, List.map_map, List.eraseDups_cons, List.filter_map, List.filter_filter]
  have same : (others.filter fun claim =>
      (!grammar.production claim.production == grammar.production occupant.production) &&
        clashes grammar occupant claim) =
      others.filter fun claim =>
        !grammar.production claim.production == grammar.production occupant.production := by
    apply List.filter_congr
    intro claim member
    by_cases agrees : grammar.production claim.production = grammar.production occupant.production
    · simp [agrees]
    · have clash : clashes grammar occupant claim = true := by
        simpa [clashes] using fun equal => agrees equal.symm
      rw [clash, Bool.and_true]
  exact congrArg (fun cell => _ :: (cell.map fun claim =>
    grammar.production claim.production).eraseDups) same

theorem conflict?_eq_some {id : Nat} {conflict : Conflict}
    (found : conflict? grammar id claims lookahead = some conflict) :
    conflict.nonTerminal = grammar.nameOf id ∧ conflict.lookahead = lookahead ∧
      conflict.productions = ((rivals claims lookahead).map grammar.production).eraseDups ∧
      ∃ left ∈ rivals claims lookahead, ∃ right ∈ rivals claims lookahead,
        grammar.production left ≠ grammar.production right := by
  unfold conflict? at found
  split at found
  case h_1 => cases found
  case h_2 occupant claim rest inCell =>
    cases found
    have listed : (occupant, claim) ∈ (collisions grammar claims).filter
        fun pair => pair.2.lookahead = lookahead := inCell ▸ List.mem_cons_self
    obtain ⟨collides, same⟩ := List.mem_filter.mp listed
    obtain ⟨member, occupies, clash⟩ := mem_collisions collides
    cases of_decide_eq_true same
    obtain ⟨occupantMember, occupantSame⟩ := occupant?_eq_some occupies
    refine ⟨rfl, rfl, ?_, occupant.production, ?_, claim.production, ?_, clash⟩
    · rw [← eraseDups_inCell occupies, inCell]
    · exact mem_rivals.mpr ⟨occupant, occupantMember, rfl, occupantSame⟩
    · exact mem_rivals.mpr ⟨claim, member, rfl, rfl⟩

theorem production_eq_of_rivals {id : Nat}
    (free : conflict? grammar id claims lookahead = none) {left right : Nat}
    (leftRival : left ∈ rivals claims lookahead) (rightRival : right ∈ rivals claims lookahead) :
    grammar.production left = grammar.production right := by
  obtain ⟨leftClaim, leftMember, rfl, rfl⟩ := mem_rivals.mp leftRival
  obtain ⟨rightClaim, rightMember, rfl, sameCell⟩ := mem_rivals.mp rightRival
  obtain ⟨occupant, occupies⟩ := exists_occupant? leftMember
  have leftSame := production_eq_of_conflict? id free leftMember occupies
  rw [← sameCell] at free occupies
  have rightSame := production_eq_of_conflict? id free rightMember occupies
  exact leftSame.symm.trans rightSame

end Claim

def Conflict.Before (grammar : PlainGrammar) (left right : Conflict) : Prop :=
  ∃ leftId rightId, grammar.nameOf? leftId = some left.nonTerminal ∧
    grammar.nameOf? rightId = some right.nonTerminal ∧
      (leftId < rightId ∨ leftId = rightId ∧ compare left.lookahead right.lookahead = .lt)

/-- Every contested cell is reported once, in the order of the cells, with exactly the
productions that the lookahead calls for, each once, in the order of the grammar. -/
structure PlainGrammar.Reports (grammar : PlainGrammar) (found : List Conflict) : Prop where
  ordered : found.Pairwise (Conflict.Before grammar)
  contested : ∀ name lookahead,
    (∃ conflict ∈ found, conflict.nonTerminal = name ∧ conflict.lookahead = lookahead) ↔
      grammar.Contested name lookahead
  called : ∀ conflict ∈ found, ∀ production, production ∈ conflict.productions ↔
    production ∈ grammar.productions ∧ production.lhs = conflict.nonTerminal ∧
      grammar.Predicts conflict.lookahead production
  preceding : ∀ conflict ∈ found, conflict.productions.Pairwise grammar.Precedes

namespace ParseTable

variable {grammar : PlainGrammar} {first : FirstSets} {follow : FollowSets} {table : ParseTable}

theorem pairwise_rivals (inOrder : grammar.ListsInOrder) (id : Nat) (lookahead : Lookahead) :
    (Claim.rivals (claims grammar first follow id) lookahead).Pairwise (· ≤ ·) := by
  apply List.pairwise_map.mpr
  apply List.Pairwise.filter
  apply List.pairwise_flatMap.mpr
  constructor
  · intro number listed
    apply List.pairwise_of_forall_mem_list
    intro left leftMember right rightMember
    apply Nat.le_of_eq
    rw [production_of_mem_productionClaims leftMember,
      production_of_mem_productionClaims rightMember]
  · apply (inOrder id).imp
    intro before after smaller left leftMember right rightMember
    rw [production_of_mem_productionClaims leftMember,
      production_of_mem_productionClaims rightMember]
    exact Nat.le_of_lt smaller

theorem mem_conflicts {conflict : Conflict} :
    conflict ∈ conflicts grammar first follow ↔
      ∃ id < grammar.nonTerminals.size, ∃ lookahead,
        Claim.conflict? grammar id (claims grammar first follow id) lookahead = some conflict := by
  simp only [conflicts, List.mem_flatMap, List.mem_range, List.mem_filterMap]
  constructor
  · intro listed
    obtain ⟨id, inRange, lookahead, -, found⟩ := listed
    exact ⟨id, inRange, lookahead, found⟩
  · intro listed
    obtain ⟨id, inRange, lookahead, found⟩ := listed
    obtain ⟨-, -, -, number, rival, -⟩ := Claim.conflict?_eq_some found
    obtain ⟨claim, member, -, rfl⟩ := Claim.mem_rivals.mp rival
    refine ⟨id, inRange, claim.lookahead, ?_, found⟩
    exact OrderedSet.mem_ofList.mpr (List.mem_map_of_mem member)

theorem ordered_conflicts (grammar : PlainGrammar) (first : FirstSets) (follow : FollowSets) :
    (conflicts grammar first follow).Pairwise (Conflict.Before grammar) := by
  apply List.pairwise_flatMap.mpr
  constructor
  · intro id member
    have named := PlainGrammar.nameOf?_of_lt grammar (List.mem_range.mp member)
    apply List.pairwise_filterMap.mpr
    apply (OrderedSet.ascending_ofList _).imp
    intro before after smaller left leftFound right rightFound
    obtain ⟨leftName, rfl, -⟩ := Claim.conflict?_eq_some leftFound
    obtain ⟨rightName, rfl, -⟩ := Claim.conflict?_eq_some rightFound
    exact ⟨id, id, leftName ▸ named, rightName ▸ named, Or.inr ⟨rfl, smaller⟩⟩
  · apply List.pairwise_lt_range.imp_of_mem
    intro before after beforeMember afterMember smaller left leftListed right rightListed
    obtain ⟨leftLookahead, -, leftFound⟩ := List.mem_filterMap.mp leftListed
    obtain ⟨rightLookahead, -, rightFound⟩ := List.mem_filterMap.mp rightListed
    have beforeNamed := PlainGrammar.nameOf?_of_lt grammar (List.mem_range.mp beforeMember)
    have afterNamed := PlainGrammar.nameOf?_of_lt grammar (List.mem_range.mp afterMember)
    obtain ⟨leftName, -⟩ := Claim.conflict?_eq_some leftFound
    obtain ⟨rightName, -⟩ := Claim.conflict?_eq_some rightFound
    exact ⟨before, after, leftName ▸ beforeNamed, rightName ▸ afterNamed, Or.inl smaller⟩

/-! ### The conflicts of a grammar by its own sets -/

section Computed

variable (consistent : grammar.Consistent)
  (started : grammar.nameOf? grammar.start = some grammar.startName) {id : Nat} {name : String}
  (named : grammar.nameOf? id = some name) {lookahead : Lookahead}

include consistent started named

theorem mem_rivals_compute_iff {number : Nat} :
    number ∈ Claim.rivals
        (claims grammar (.compute grammar) (.compute grammar (.compute grammar)) id) lookahead ↔
      ∃ rhs, grammar.productions[number]? = some ⟨name, rhs⟩ ∧
        grammar.Predicts lookahead ⟨name, rhs⟩ :=
  Claim.mem_rivals.trans (exists_claim_iff consistent started named)

theorem mem_map_rivals_iff {production : Production} :
    production ∈ (Claim.rivals (claims grammar (.compute grammar)
        (.compute grammar (.compute grammar)) id) lookahead).map grammar.production ↔
      production ∈ grammar.productions ∧ production.lhs = name ∧
        grammar.Predicts lookahead production := by
  rw [List.mem_map]
  constructor
  · intro claimed
    obtain ⟨number, rival, rfl⟩ := claimed
    obtain ⟨rhs, listed, predicts⟩ := (mem_rivals_compute_iff consistent started named).mp rival
    rw [PlainGrammar.production_of_getElem? listed]
    exact ⟨Array.mem_of_getElem? listed, rfl, predicts⟩
  · intro called
    obtain ⟨member, rfl, predicts⟩ := called
    obtain ⟨number, listed⟩ := Array.mem_iff_getElem?.mp member
    have rival := (mem_rivals_compute_iff consistent started named).mpr
      ⟨production.rhs, listed, predicts⟩
    exact ⟨number, rival, PlainGrammar.production_of_getElem? listed⟩

theorem holds_rivals :
    grammar.Holds (Claim.rivals (claims grammar (.compute grammar)
      (.compute grammar (.compute grammar)) id) lookahead) := by
  intro number rival other
  obtain ⟨rhs, listed, predicts⟩ := (mem_rivals_compute_iff consistent started named).mp rival
  rw [PlainGrammar.production_of_getElem? listed]
  constructor
  · intro found
    have otherRival := (mem_rivals_compute_iff consistent started named).mpr ⟨rhs, found, predicts⟩
    exact ⟨otherRival, PlainGrammar.production_of_getElem? found⟩
  · intro both
    obtain ⟨otherRival, same⟩ := both
    obtain ⟨body, found, -⟩ := (mem_rivals_compute_iff consistent started named).mp otherRival
    rw [← same, PlainGrammar.production_of_getElem? found, found]

/-- A cell has a conflict exactly when it is contested. -/
theorem exists_conflict?_iff :
    (∃ conflict, Claim.conflict? grammar id (claims grammar (.compute grammar)
        (.compute grammar (.compute grammar)) id) lookahead = some conflict) ↔
      grammar.Contested name lookahead := by
  constructor
  · intro conflicting
    obtain ⟨conflict, found⟩ := conflicting
    obtain ⟨-, -, -, left, leftRival, right, rightRival, different⟩ :=
      Claim.conflict?_eq_some found
    have members := @mem_map_rivals_iff grammar consistent started id name named lookahead
    obtain ⟨leftMember, leftName, leftCalled⟩ := members.mp (List.mem_map_of_mem leftRival)
    obtain ⟨rightMember, rightName, rightCalled⟩ := members.mp (List.mem_map_of_mem rightRival)
    exact ⟨_, leftMember, _, rightMember, leftName, rightName, different, leftCalled, rightCalled⟩
  · intro contested
    obtain ⟨left, leftMember, right, rightMember, leftName, rightName, different, leftCalled,
      rightCalled⟩ := contested
    apply Option.ne_none_iff_exists'.mp
    intro free
    have claimed := @mem_map_rivals_iff grammar consistent started id name named lookahead
    obtain ⟨leftNumber, leftRival, rfl⟩ :=
      List.mem_map.mp (claimed.mpr ⟨leftMember, leftName, leftCalled⟩)
    obtain ⟨rightNumber, rightRival, rfl⟩ :=
      List.mem_map.mp (claimed.mpr ⟨rightMember, rightName, rightCalled⟩)
    exact different (Claim.production_eq_of_rivals free leftRival rightRival)

end Computed

theorem conflicts_reports (consistent : grammar.Consistent) (inOrder : grammar.ListsInOrder)
    (started : grammar.nameOf? grammar.start = some grammar.startName) :
    grammar.Reports (conflicts grammar (.compute grammar)
      (.compute grammar (.compute grammar))) := by
  refine ⟨ordered_conflicts _ _ _, ?_, ?_, ?_⟩
  · intro name lookahead
    constructor
    · intro reported
      obtain ⟨conflict, listed, rfl, rfl⟩ := reported
      obtain ⟨id, inRange, lookahead, found⟩ := mem_conflicts.mp listed
      have named := PlainGrammar.nameOf?_of_lt grammar inRange
      obtain ⟨sameName, sameLookahead, -⟩ := Claim.conflict?_eq_some found
      rw [sameName, sameLookahead]
      exact (exists_conflict?_iff consistent started named).mp ⟨conflict, found⟩
    · intro contested
      obtain ⟨left, leftMember, -, -, rfl, -⟩ := id contested
      obtain ⟨number, named⟩ := PlainGrammar.mem_names_iff.mp (consistent.owned left leftMember)
      obtain ⟨conflict, found⟩ := (exists_conflict?_iff consistent started named).mpr contested
      obtain ⟨sameName, sameLookahead, -⟩ := Claim.conflict?_eq_some found
      have inRange := PlainGrammar.lt_size_of_nameOf? named
      refine ⟨conflict, mem_conflicts.mpr ⟨number, inRange, lookahead, found⟩, ?_, sameLookahead⟩
      rw [sameName, PlainGrammar.nameOf, named, Option.getD_some]
  · intro conflict listed production
    obtain ⟨id, inRange, lookahead, found⟩ := mem_conflicts.mp listed
    have named := PlainGrammar.nameOf?_of_lt grammar inRange
    obtain ⟨sameName, sameLookahead, productions, -⟩ := Claim.conflict?_eq_some found
    rw [sameName, sameLookahead, productions, List.mem_eraseDups]
    exact mem_map_rivals_iff consistent started named
  · intro conflict listed
    obtain ⟨id, inRange, lookahead, found⟩ := mem_conflicts.mp listed
    have named := PlainGrammar.nameOf?_of_lt grammar inRange
    obtain ⟨-, -, productions, -⟩ := Claim.conflict?_eq_some found
    rw [productions]
    exact PlainGrammar.pairwise_precedes_eraseDups _ (pairwise_rivals inOrder id lookahead)
      (holds_rivals consistent started named)

theorem ofSets_eq_notLl1_iff {found : List Conflict} :
    ofSets grammar first follow = .error (.notLl1 found) ↔
      found = conflicts grammar first follow ∧ found ≠ [] := by
  unfold ofSets
  split
  case h_1 free =>
    rw [free]
    exact ⟨nofun, fun both => (both.2 both.1).elim⟩
  case h_2 some =>
    constructor
    · intro same
      cases same
      exact ⟨rfl, some⟩
    · intro both
      rw [both.1]

/-- Building a table fails exactly when some cell is contested, and then it reports
every contested cell. Otherwise the table expands a non-terminal by the production
that the lookahead calls for. -/
theorem build_notLl1_iff_contested (source : Grammar) :
    ((∃ found, build source = .error (.notLl1 found)) ↔
        ∃ name lookahead, source.lower.Contested name lookahead) ∧
      (∀ found, build source = .error (.notLl1 found) → source.lower.Reports found) ∧
      ((∃ table, build source = .ok table) ↔
        ¬∃ name lookahead, source.lower.Contested name lookahead) ∧
      ∀ table, build source = .ok table → ∀ name lookahead production,
        table.get? name lookahead = some production ↔
          production.lhs = name ∧ production ∈ source.lower.productions ∧
            source.lower.Predicts lookahead production := by
  have started : source.lower.nameOf? source.lower.start = some source.lower.startName := by
    rw [source.startName_lower]
    exact source.nameOf?_lower_start
  have reports := conflicts_reports source.lower_consistent source.lower_listsInOrder started
  have contested : conflicts source.lower (.compute source.lower)
      (.compute source.lower (.compute source.lower)) ≠ [] ↔
        ∃ name lookahead, source.lower.Contested name lookahead := by
    constructor
    · intro some
      obtain ⟨conflict, listed⟩ := List.exists_mem_of_ne_nil _ some
      exact ⟨_, _, (reports.contested _ _).mp ⟨conflict, listed, rfl, rfl⟩⟩
    · intro some
      obtain ⟨name, lookahead, inCell⟩ := some
      obtain ⟨conflict, listed, -⟩ := (reports.contested name lookahead).mpr inCell
      exact List.ne_nil_of_mem listed
  refine ⟨?_, ?_, ?_, ?_⟩
  · rw [← contested]
    constructor
    · intro failed
      obtain ⟨found, failed⟩ := failed
      obtain ⟨rfl, some⟩ := ofSets_eq_notLl1_iff.mp failed
      exact some
    · intro some
      exact ⟨_, ofSets_eq_notLl1_iff.mpr ⟨rfl, some⟩⟩
  · intro found failed
    obtain ⟨rfl, -⟩ := ofSets_eq_notLl1_iff.mp failed
    exact reports
  · rw [← contested, not_not]
    constructor
    · intro built
      obtain ⟨table, built⟩ := built
      exact (ofSets_eq_ok_iff.mp built).1
    · intro free
      exact ⟨_, ofSets_eq_ok_iff.mpr ⟨free, rfl⟩⟩
  · intro table built
    obtain ⟨same, exact⟩ := build_exact built
    intro name lookahead production
    rw [← same]
    exact exact.get?_iff

/-- Two different alternatives begin with the same token, and one of them is repeated. -/
def repetitive : Grammar where
  start := "S"
  rules :=
    [("S", .alternative
      [.sequence [.terminal "a", .terminal "x"], .terminal "a",
        .sequence [.terminal "a", .terminal "x"]])]
  distinct := by decide
  startDefined := by decide
  closed := by decide

example : conflicts repetitive.lower (.compute repetitive.lower)
      (.compute repetitive.lower (.compute repetitive.lower)) =
    [⟨"S", .token "a", [⟨"S", [.terminal "a", .terminal "x"]⟩, ⟨"S", [.terminal "a"]⟩],
      .firstFirst⟩] := by
  decide +kernel

end ParseTable

end Predictive
