/-
The order of the rules does not matter to parsing. A table is read by names: what it
expands, what it expects and where it is in conflict follow from the claims to the cells
of a name, with each production in the place of its number. These are the same for
plain grammars that agree, and a parser that reads the same takes the same steps.
-/

import Predictive.Proofs.Grammar.Language
import Predictive.Proofs.Grammar.RuleOrder
import Predictive.Proofs.Parsing.Conflict
import Predictive.Proofs.Parsing.Termination

namespace Predictive

/-! ### Claims without numbers -/

/-- A claim with the production itself in the place of its number. -/
structure Bid where
  production : Production
  lookahead : Lookahead
  viaFollow : Bool
  deriving DecidableEq

namespace Bid

def ofProduction (begins : List String × Bool) (follow : List Lookahead)
    (production : Production) : List Bid :=
  let byFirst := begins.1.map fun terminal => ⟨production, .token terminal, false⟩
  if begins.2 then byFirst ++ follow.map fun lookahead => ⟨production, lookahead, true⟩
  else byFirst

/-- The conflict between the bids for one cell, the first of which fills it. -/
def conflict? (name : String) (lookahead : Lookahead) : List Bid → Option Conflict
  | [] => none
  | occupant :: others =>
      match others.filter fun bid => occupant.production ≠ bid.production with
      | [] => none
      | rival :: rest =>
          some
            { nonTerminal := name
              lookahead
              productions :=
                (occupant.production :: (rival :: rest).map Bid.production).eraseDups
              kind :=
                if (rival :: rest).any fun bid => occupant.viaFollow || bid.viaFollow then
                  .firstFollow
                else .firstFirst }

def lookaheads (bids : List Bid) : List Lookahead := OrderedSet.ofList (bids.map Bid.lookahead)

def conflicts (name : String) (bids : List Bid) : List Conflict :=
  (lookaheads bids).filterMap fun lookahead =>
    conflict? name lookahead (bids.filter fun bid => bid.lookahead = lookahead)

end Bid

namespace Claim

variable {grammar : PlainGrammar} {claims : List Claim} {lookahead : Lookahead}

def bid (grammar : PlainGrammar) (claim : Claim) : Bid :=
  ⟨grammar.production claim.production, claim.lookahead, claim.viaFollow⟩

theorem lookaheads_bids (grammar : PlainGrammar) (claims : List Claim) :
    Bid.lookaheads (claims.map (bid grammar)) = lookaheads claims := by
  rw [Bid.lookaheads, lookaheads, List.map_map]
  rfl

theorem filter_bids (grammar : PlainGrammar) (claims : List Claim) (lookahead : Lookahead) :
    (claims.map (bid grammar)).filter (fun bid => bid.lookahead = lookahead) =
      (claims.filter fun claim => claim.lookahead = lookahead).map (bid grammar) := by
  rw [List.filter_map]
  rfl

theorem collisions_empty (none : (claims.filter fun claim => claim.lookahead = lookahead) = []) :
    (collisions grammar claims).filter (fun pair => pair.2.lookahead = lookahead) = [] := by
  apply List.eq_nil_iff_forall_not_mem.mpr
  intro pair member
  obtain ⟨collides, inCell⟩ := List.mem_filter.mp member
  have claimed := (mem_collisions collides).1
  exact List.not_mem_nil (none ▸ List.mem_filter.mpr ⟨claimed, inCell⟩)

/-- A conflict in a cell can be told from the bids for it. -/
theorem conflict?_eq (grammar : PlainGrammar) (id : Nat) (claims : List Claim)
    (lookahead : Lookahead) :
    conflict? grammar id claims lookahead =
      Bid.conflict? (grammar.nameOf id) lookahead
        ((claims.map (bid grammar)).filter fun bid => bid.lookahead = lookahead) := by
  rw [filter_bids]
  cases cell : claims.filter fun claim => claim.lookahead = lookahead with
  | nil =>
      rw [conflict?, collisions_empty cell]
      rfl
  | cons occupant others =>
      have found : occupant? claims lookahead = some occupant := by
        rw [occupant?, ← List.head?_filter, cell]
        rfl
      have alone : clashes grammar occupant occupant = false := by simp [clashes]
      have rivals : (others.map (bid grammar)).filter
          (fun other => (bid grammar occupant).production ≠ other.production) =
            (others.filter (clashes grammar occupant)).map (bid grammar) := by
        rw [List.filter_map]
        rfl
      rw [conflict?, collisions_inCell found, cell, List.filter_cons_of_neg (by simp [alone]),
        List.map_cons, Bid.conflict?, rivals]
      cases others.filter (clashes grammar occupant) with
      | nil => rfl
      | cons rival rest =>
          simp only [List.map_cons, List.map_map, List.any_cons, List.any_map, bid,
            Function.comp_def]

end Claim

namespace ParseTable

variable {grammar left right : PlainGrammar} {name : String} {lookahead : Lookahead}

theorem bids_productionClaims (grammar : PlainGrammar) (first : FirstSets) (follow : FollowSets)
    (id number : Nat) :
    (productionClaims grammar first follow id number).map (Claim.bid grammar) =
      Bid.ofProduction (first.ofSymbols (grammar.production number).rhs) (follow.ofId id)
        (grammar.production number) := by
  simp only [productionClaims, Bid.ofProduction]
  split
  · rw [List.map_append, List.map_map, List.map_map]
    rfl
  · rw [List.map_map]
    rfl

def bidsOf (grammar : PlainGrammar) (name : String) : List Bid :=
  match grammar.idOf? name with
  | some id =>
      (claims grammar (.compute grammar) (.compute grammar (.compute grammar)) id).map
        (Claim.bid grammar)
  | none => []

theorem bidsOf_of_named (consistent : grammar.Consistent) {id : Nat}
    (named : grammar.nameOf? id = some name) :
    bidsOf grammar name =
      (claims grammar (.compute grammar) (.compute grammar (.compute grammar)) id).map
        (Claim.bid grammar) := by
  rw [bidsOf, consistent.idOf?_eq_some_iff.mpr named]

theorem bidsOf_eq_flatMap (regular : grammar.Regular) {id : Nat}
    (named : grammar.nameOf? id = some name) :
    bidsOf grammar name = ((grammar.bodiesOf name).map (Production.mk name)).flatMap
      fun production => Bid.ofProduction ((FirstSets.compute grammar).ofSymbols production.rhs)
        ((FollowSets.compute grammar (.compute grammar)).ofId id) production := by
  rw [bidsOf_of_named regular.consistent named, claims, List.map_flatMap,
    ← regular.map_productionIds named, List.flatMap_map]
  simp only [bids_productionClaims]

theorem bidsOf_eq (agrees : left.Agrees right) (inLeft : left.Regular) (inRight : right.Regular)
    (name : String) : bidsOf left name = bidsOf right name := by
  by_cases declared : name ∈ left.names
  · obtain ⟨leftId, leftNamed⟩ := PlainGrammar.mem_names_iff.mp declared
    obtain ⟨rightId, rightNamed⟩ :=
      PlainGrammar.mem_names_iff.mp (agrees.names.mem_iff.mp declared)
    rw [bidsOf_eq_flatMap inLeft leftNamed, bidsOf_eq_flatMap inRight rightNamed,
      agrees.bodies name, agrees.ofId_eq inLeft inRight leftNamed rightNamed]
    simp only [agrees.ofSymbols_eq inLeft inRight]
  · have undeclared : name ∉ right.names := fun member => declared (agrees.names.mem_iff.mpr member)
    rw [bidsOf, bidsOf, inLeft.consistent.idOf?_eq_none declared,
      inRight.consistent.idOf?_eq_none undeclared]

/-! ### What a table holds, told from the bids -/

theorem expected_fill {first : FirstSets} {follow : FollowSets} {id : Nat}
    (inRange : id < grammar.nonTerminals.size) :
    (fill grammar first follow).expected id = Claim.lookaheads (claims grammar first follow id) := by
  have cells : (fill grammar first follow).row id = Claim.row (claims grammar first follow id) := by
    rw [row, fill, Array.getD_eq_getD_getElem?, List.getElem?_toArray, List.getElem?_map,
      List.getElem?_range inRange]
    rfl
  rw [expected, cells, Claim.row, List.map_filterMap]
  apply (List.filterMap_congr ?_).trans List.filterMap_some
  intro lookahead member
  obtain ⟨claim, claimed, same⟩ := List.mem_map.mp (OrderedSet.mem_ofList.mp member)
  obtain ⟨occupant, found⟩ := Claim.exists_occupant? claimed
  rw [← same, found]
  rfl

theorem get?_fill (consistent : grammar.Consistent) (name : String) (lookahead : Lookahead) :
    (fill grammar (.compute grammar) (.compute grammar (.compute grammar))).get? name lookahead =
      ((bidsOf grammar name).find? fun bid => bid.lookahead = lookahead).map Bid.production := by
  rw [get?, bidsOf]
  change (grammar.idOf? name).bind _ = _
  cases found : grammar.idOf? name with
  | none => rfl
  | some id =>
      have named := consistent.idOf?_eq_some_iff.mp found
      rw [Option.bind_some, productionId?_fill (PlainGrammar.lt_size_of_nameOf? named),
        List.find?_map, Option.map_map, Option.map_map]
      rfl

theorem expectedOf_fill (consistent : grammar.Consistent) (name : String) :
    (fill grammar (.compute grammar) (.compute grammar (.compute grammar))).expectedOf name =
      Bid.lookaheads (bidsOf grammar name) := by
  have sameNames : (fill grammar (.compute grammar)
      (.compute grammar (.compute grammar))).grammar = grammar := rfl
  rw [expectedOf, bidsOf, sameNames]
  cases found : grammar.idOf? name with
  | none => rfl
  | some id =>
      have named := consistent.idOf?_eq_some_iff.mp found
      rw [Claim.lookaheads_bids]
      exact expected_fill (PlainGrammar.lt_size_of_nameOf? named)

theorem conflicts_eq_flatMap (consistent : grammar.Consistent) :
    conflicts grammar (.compute grammar) (.compute grammar (.compute grammar)) =
      grammar.names.flatMap fun name => Bid.conflicts name (bidsOf grammar name) := by
  rw [← grammar.map_range_nameOf, List.flatMap_map, conflicts]
  apply List.flatMap_congr
  intro id member
  have named := PlainGrammar.nameOf?_of_lt grammar (List.mem_range.mp member)
  rw [bidsOf_of_named consistent named, Bid.conflicts, Claim.lookaheads_bids]
  simp only [← Claim.conflict?_eq]

theorem conflicts_perm (agrees : left.Agrees right) (inLeft : left.Regular)
    (inRight : right.Regular) :
    (conflicts left (.compute left) (.compute left (.compute left))).Perm
      (conflicts right (.compute right) (.compute right (.compute right))) := by
  rw [conflicts_eq_flatMap inLeft.consistent, conflicts_eq_flatMap inRight.consistent]
  simp only [bidsOf_eq agrees inLeft inRight]
  exact agrees.names.flatMap_right _

end ParseTable

/-! ### Steps that read the same -/

namespace Machine

theorem expand_eq (machine : Machine) (state : ParseState) (name : String) (rest : List Task) :
    machine.expand state name rest =
      match machine.table.get? name state.lookahead with
      | some production => .stay (predict state name production.rhs rest)
      | none => .halt (.error (machine.unexpected state (machine.table.expectedOf name))) := by
  simp only [expand, ParseTable.get?, ParseTable.expectedOf]
  cases named : machine.table.grammar.idOf? name with
  | none => simp only [Option.bind_none]
  | some id =>
      cases found : machine.table.productionId? id state.lookahead with
      | none => simp only [Option.bind_some, found, Option.map_none]
      | some number => simp only [Option.bind_some, found, Option.map_some]

end Machine

/-- Two tables hold the same when they are read by names. -/
structure ParseTable.ReadsAlike (left right : ParseTable) : Prop where
  start : left.grammar.startName = right.grammar.startName
  get? : ∀ name lookahead, left.get? name lookahead = right.get? name lookahead
  expectedOf : ∀ name, left.expectedOf name = right.expectedOf name

namespace Machine

variable {left right : ParseTable} {finish : Position} {state : ParseState}

theorem step_congr (alike : left.ReadsAlike right) (finish : Position) (state : ParseState) :
    step ⟨left, finish⟩ state = step ⟨right, finish⟩ state := by
  have sameResult : result ⟨left, finish⟩ state = result ⟨right, finish⟩ state :=
    congrArg (fun start => state.output.headD (.empty start)) alike.start
  unfold step
  split
  case h_1 => rw [sameResult]
  case h_2 => simp only [conclude, sameResult]
  case h_3 => rfl
  case h_4 =>
    rw [expand_eq, expand_eq, alike.get?, alike.expectedOf]
    rfl
  case h_5 => rfl

theorem Halts.congr (alike : left.ReadsAlike right) {count : Nat}
    {answer : Except ParseError Tree} (halts : Halts ⟨left, finish⟩ count state answer) :
    Halts ⟨right, finish⟩ count state answer := by
  induction halts with
  | halt halted => exact .halt (step_congr alike finish _ ▸ halted)
  | stay stayed later ih => exact .stay (step_congr alike finish _ ▸ stayed) ih
  | shift shifted later ih => exact .shift (step_congr alike finish _ ▸ shifted) ih

end Machine

namespace ParseTable

variable {left right : PlainGrammar} {leftTable rightTable : ParseTable}

theorem readsAlike (agrees : left.Agrees right) (inLeft : left.Regular) (inRight : right.Regular)
    (leftBuilt : ofPlain left = .ok leftTable) (rightBuilt : ofPlain right = .ok rightTable) :
    leftTable.ReadsAlike rightTable := by
  obtain ⟨_, leftFilled⟩ := ofSets_eq_ok_iff.mp leftBuilt
  obtain ⟨_, rightFilled⟩ := ofSets_eq_ok_iff.mp rightBuilt
  rw [leftFilled, rightFilled]
  constructor
  case start => exact agrees.start
  case get? =>
    intro name lookahead
    rw [get?_fill inLeft.consistent, get?_fill inRight.consistent, bidsOf_eq agrees inLeft inRight]
  case expectedOf =>
    intro name
    rw [expectedOf_fill inLeft.consistent, expectedOf_fill inRight.consistent,
      bidsOf_eq agrees inLeft inRight]

/-- Tables of plain grammars that agree give the same answers, whatever number of steps
each allows itself. -/
theorem exists_parse? (agrees : left.Agrees right) (inLeft : left.Regular)
    (inRight : right.Regular) (leftBuilt : ofPlain left = .ok leftTable)
    (rightBuilt : ofPlain right = .ok rightTable) (config : ParserConfig) (tokens : List Token) :
    ∃ answer, leftTable.parse? config tokens = some answer ∧
      rightTable.parse? config tokens = some answer := by
  have alike := readsAlike agrees inLeft inRight leftBuilt rightBuilt
  have leftExact : (Machine.ofTokens leftTable tokens).table.Exact :=
    (ofPlain_exact inLeft.consistent inLeft.started leftBuilt).2
  have rightExact : (Machine.ofTokens rightTable tokens).table.Exact :=
    (ofPlain_exact inRight.consistent inRight.started rightBuilt).2
  have enough : (Machine.initial leftTable (config.kept tokens)).input.length <
      (config.kept tokens).length + 1 := Nat.lt_succ_self _
  have same : Machine.initial rightTable (config.kept tokens) =
      Machine.initial leftTable (config.kept tokens) := by
    rw [Machine.initial, Machine.initial, alike.start]
  obtain ⟨answer, found⟩ := Machine.exists_run leftExact enough
  obtain ⟨count, halts⟩ := Machine.halts_of_run found
  refine ⟨answer, found, ?_⟩
  rw [parse?, same]
  exact (Machine.run_eq_some_iff rightExact enough).mpr ⟨count, halts.congr alike⟩

theorem ofPlain_of_agrees (agrees : left.Agrees right) (inLeft : left.Regular)
    (inRight : right.Regular) :
    (∃ leftTable rightTable, ofPlain left = .ok leftTable ∧ ofPlain right = .ok rightTable) ∨
      ∃ leftFound rightFound, ofPlain left = .error (.notLl1 leftFound) ∧
        ofPlain right = .error (.notLl1 rightFound) ∧ leftFound.Perm rightFound := by
  have conflicting := conflicts_perm agrees inLeft inRight
  by_cases free : conflicts left (.compute left) (.compute left (.compute left)) = []
  · rw [free] at conflicting
    have rightFree := conflicting.symm.eq_nil
    exact Or.inl ⟨_, _, ofSets_eq_ok_iff.mpr ⟨free, rfl⟩, ofSets_eq_ok_iff.mpr ⟨rightFree, rfl⟩⟩
  · have contested : conflicts right (.compute right) (.compute right (.compute right)) ≠ [] := by
      intro rightFree
      rw [rightFree] at conflicting
      exact free conflicting.eq_nil
    exact Or.inr ⟨_, _, ofSets_eq_notLl1_iff.mpr ⟨rfl, free⟩,
      ofSets_eq_notLl1_iff.mpr ⟨rfl, contested⟩, conflicting⟩

/-- Once the start symbol is given, the order of the rules does not matter. Rules in
another order are accepted too; either both grammars have tables, which give the same
answer to every list of tokens, or both are in conflict over the same cells. -/
theorem build_of_perm {start : String} {rules permuted : List (String × Rule)} {source : Grammar}
    (same : rules.Perm permuted) (accepted : Draft.build ⟨some start, rules⟩ = .ok source) :
    ∃ other, Draft.build ⟨some start, permuted⟩ = .ok other ∧
      ((∃ left right, build source = .ok left ∧ build other = .ok right ∧
          ∀ config tokens, ∃ answer, left.parse? config tokens = some answer ∧
            right.parse? config tokens = some answer) ∨
        ∃ left right, build source = .error (.notLl1 left) ∧
          build other = .error (.notLl1 right) ∧ left.Perm right) := by
  obtain ⟨started, listed⟩ := Draft.of_build accepted
  change source.start = start at started
  change source.rules = rules at listed
  subst started listed
  have agrees : source.lower.Agrees (source.reorder same).lower := Grammar.lower_agrees rfl same
  have inLeft := source.lower_regular
  have inRight := (source.reorder same).lower_regular
  refine ⟨source.reorder same, Draft.build_grammar (source.reorder same), ?_⟩
  rcases ofPlain_of_agrees agrees inLeft inRight with built | failed
  · obtain ⟨leftTable, rightTable, leftBuilt, rightBuilt⟩ := built
    exact Or.inl ⟨leftTable, rightTable, leftBuilt, rightBuilt,
      exists_parse? agrees inLeft inRight leftBuilt rightBuilt⟩
  · exact Or.inr failed

/-- A rule that is called like a synthetic name may come before or after the rule whose
synthetic names it resembles. -/
theorem build_of_perm_lookalike :
    Grammar.lookalike.rules.Perm Grammar.lookalike.rules.reverse ∧
      Draft.build ⟨some "S", Grammar.lookalike.rules⟩ = .ok Grammar.lookalike ∧
      ∃ other, Draft.build ⟨some "S", Grammar.lookalike.rules.reverse⟩ = .ok other ∧
        ∃ left right, build Grammar.lookalike = .ok left ∧ build other = .ok right ∧
          ∀ config tokens, ∃ answer, left.parse? config tokens = some answer ∧
            right.parse? config tokens = some answer := by
  have reversed := (List.reverse_perm Grammar.lookalike.rules).symm
  have accepted := Draft.build_grammar Grammar.lookalike
  refine ⟨reversed, accepted, ?_⟩
  obtain ⟨other, alsoAccepted, built | failed⟩ := build_of_perm reversed accepted
  · exact ⟨other, alsoAccepted, built⟩
  · obtain ⟨found, _, failed, _⟩ := failed
    have free : conflicts Grammar.lookalike.lower (.compute Grammar.lookalike.lower)
        (.compute Grammar.lookalike.lower (.compute Grammar.lookalike.lower)) = [] := by
      decide +kernel
    have some := ofSets_eq_notLl1_iff.mp failed
    exact absurd (some.1.trans free) some.2

end ParseTable

end Predictive
