/-
The predictive parser always halts. Under one lookahead, a table without conflicts
never leads from a non-terminal back to itself before a token is matched: on the
way down a token begins what is expanded, or nothing is left but vanishing
productions, and both kinds of way are as long as a derivation at most. So the
non-terminals have a depth, and the tasks on the stack a weight that every step
without a match lowers.
-/

import Mathlib.Algebra.Group.Nat.Defs
import Mathlib.Data.Finset.Card
import Mathlib.Order.WellFounded
import Predictive.Proofs.Parsing.Prediction
import Predictive.Proofs.Parsing.Run

namespace Predictive

namespace PlainGrammar

variable {grammar : PlainGrammar} {lookahead : Lookahead}

namespace Opens

theorem append {symbols : List Symbol} (opens : grammar.Opens lookahead symbols)
    (rest : List Symbol) : grammar.Opens lookahead (symbols ++ rest) := by
  obtain ⟨kind, same, begins⟩ := opens
  exact ⟨kind, same, begins.append rest⟩

theorem behind_vanishing {left right : List Symbol} (empty : grammar.Vanishes left)
    (opens : grammar.Opens lookahead right) : grammar.Opens lookahead (left ++ right) := by
  obtain ⟨kind, same, begins⟩ := opens
  exact ⟨kind, same, .behind_vanishing empty begins⟩

theorem inside {name : String} {rhs : List Symbol} (member : ⟨name, rhs⟩ ∈ grammar.productions)
    (opens : grammar.Opens lookahead rhs) (rest : List Symbol) :
    grammar.Opens lookahead (.nonTerminal name :: rest) := by
  obtain ⟨kind, same, begins⟩ := opens
  exact ⟨kind, same, .inside rest member begins⟩

end Opens

/-- Expanding the outer non-terminal brings up the inner one before a token is
matched. -/
def Exposes (grammar : PlainGrammar) (lookahead : Lookahead) (inner outer : String) : Prop :=
  ∃ before after, ⟨outer, before ++ .nonTerminal inner :: after⟩ ∈ grammar.productions ∧
    grammar.Predicts lookahead ⟨outer, before ++ .nonTerminal inner :: after⟩ ∧
    grammar.Vanishes before ∧ ¬grammar.Opens lookahead before

end PlainGrammar

namespace ParseTable.Exact

variable {table : ParseTable} {lookahead : Lookahead}

/-! ### No production leads back to itself -/

theorem not_follows (exact : table.Exact) {kind : String} {symbols : List Symbol}
    (begins : table.grammar.Begins kind symbols) {name : String} {before : List Symbol}
    (member : ⟨name, before ++ symbols⟩ ∈ table.grammar.productions)
    (empty : table.grammar.Vanishes symbols) : ¬table.grammar.Follows (.token kind) name := by
  induction begins generalizing name before with
  | here rest => cases empty
  | @inside inner rhs rest innerMember begins ih =>
      intro follows
      cases empty with
      | @cons _ other _ otherMember otherEmpty restEmpty =>
          have innerFollows := PlainGrammar.Follows.inherited member restEmpty follows
          have same : Production.mk inner other = ⟨inner, rhs⟩ :=
            exact.unique rfl otherMember innerMember (Or.inr ⟨otherEmpty, innerFollows⟩)
              (Or.inl ⟨kind, rfl, begins⟩)
          cases same
          exact ih (List.nil_append rhs ▸ innerMember) otherEmpty innerFollows
  | @behind inner rest innerEmpty begins ih =>
      have later :
          ⟨name, (before ++ [.nonTerminal inner]) ++ rest⟩ ∈ table.grammar.productions := by
        rwa [List.append_assoc]
      exact ih later empty.tail

theorem opens_predicted (exact : table.Exact) {name : String} {rhs : List Symbol}
    (opens : table.grammar.Opens lookahead [.nonTerminal name])
    (member : ⟨name, rhs⟩ ∈ table.grammar.productions)
    (predicts : table.grammar.Predicts lookahead ⟨name, rhs⟩) :
    table.grammar.Opens lookahead rhs := by
  obtain ⟨kind, same, begins⟩ := opens
  obtain ⟨other, otherMember, otherBegins⟩ := begins.production
  have equal : Production.mk name other = ⟨name, rhs⟩ :=
    exact.unique rfl otherMember member (Or.inl ⟨kind, same, otherBegins⟩) predicts
  cases equal
  exact ⟨kind, same, otherBegins⟩

theorem not_follows_opening (exact : table.Exact) {name : String}
    (opens : table.grammar.Opens lookahead [.nonTerminal name])
    (empty : table.grammar.Vanishes [.nonTerminal name]) :
    ¬table.grammar.Follows lookahead name := by
  intro follows
  obtain ⟨rhs, member, rhsEmpty⟩ := empty.production
  obtain ⟨kind, rfl, begins⟩ := exact.opens_predicted opens member (Or.inr ⟨rhsEmpty, follows⟩)
  exact exact.not_follows begins (List.nil_append rhs ▸ member) rhsEmpty follows

theorem vanishes_predicted {name : String} {rhs : List Symbol}
    (closed : ¬table.grammar.Opens lookahead [.nonTerminal name])
    (member : ⟨name, rhs⟩ ∈ table.grammar.productions)
    (predicts : table.grammar.Predicts lookahead ⟨name, rhs⟩) :
    table.grammar.Vanishes rhs ∧ table.grammar.Follows lookahead name := by
  rcases predicts with opens | vanishing
  · exact (closed (opens.inside member [])).elim
  · exact vanishing

/-- Among vanishing productions the way down follows the derivation of the empty
string. -/
theorem acc_of_vanishes (exact : table.Exact) {symbols : List Symbol}
    (empty : table.grammar.Vanishes symbols) {name : String}
    (inSymbols : .nonTerminal name ∈ symbols)
    (closed : ¬table.grammar.Opens lookahead [.nonTerminal name])
    (follows : table.grammar.Follows lookahead name) :
    Acc (table.grammar.Exposes lookahead) name := by
  induction empty generalizing name with
  | nil => cases inSymbols
  | @cons other rhs rest member rhsEmpty _ rhsHypothesis restHypothesis =>
      rcases List.mem_cons.mp inSymbols with same | inRest
      · cases same
        apply Acc.intro
        rintro inner ⟨before, after, exposed, predicts, beforeEmpty, -⟩
        have equal : Production.mk other (before ++ .nonTerminal inner :: after) = ⟨other, rhs⟩ :=
          exact.unique rfl exposed member predicts (Or.inr ⟨rhsEmpty, follows⟩)
        cases equal
        apply rhsHypothesis (List.mem_append_right _ List.mem_cons_self)
        · intro opens
          exact closed (.inside member (.behind_vanishing beforeEmpty (opens.append after)) [])
        · exact .inherited member rhsEmpty.right.tail follows
      · exact restHypothesis inRest closed follows

theorem acc_of_not_opens (exact : table.Exact) {name : String}
    (closed : ¬table.grammar.Opens lookahead [.nonTerminal name]) :
    Acc (table.grammar.Exposes lookahead) name := by
  apply Acc.intro
  rintro inner ⟨before, after, exposed, predicts, beforeEmpty, shut⟩
  obtain ⟨empty, follows⟩ := vanishes_predicted closed exposed predicts
  have outer := exact.acc_of_vanishes (.cons exposed empty .nil) List.mem_cons_self closed follows
  exact outer.inv ⟨before, after, exposed, predicts, beforeEmpty, shut⟩

/-- In front of a token that begins the rest of a production, the way down follows
the derivation that brings the token to the front. -/
theorem acc_of_begins (exact : table.Exact) {kind : String} {symbols : List Symbol}
    (begins : table.grammar.Begins kind symbols) {outer name : String}
    {placed before after : List Symbol}
    (member : ⟨outer, placed ++ symbols⟩ ∈ table.grammar.productions)
    (split : symbols = before ++ .nonTerminal name :: after)
    (empty : table.grammar.Vanishes before)
    (shut : ¬table.grammar.Opens (.token kind) before) :
    Acc (table.grammar.Exposes (.token kind)) name := by
  induction begins generalizing outer name placed before after with
  | here rest =>
      cases empty with
      | nil => cases split
      | cons _ _ _ => cases split
  | @inside first rhs rest firstMember begins ih =>
      have opens : table.grammar.Opens (.token kind) rhs := ⟨kind, rfl, begins⟩
      cases before with
      | nil =>
          cases split
          apply Acc.intro
          rintro inner ⟨innerBefore, innerAfter, exposed, predicts, innerEmpty, innerShut⟩
          have equal : Production.mk first rhs =
              ⟨first, innerBefore ++ .nonTerminal inner :: innerAfter⟩ :=
            exact.unique rfl firstMember exposed (Or.inl opens) predicts
          exact ih (List.nil_append rhs ▸ firstMember) (Production.mk.inj equal).2 innerEmpty
            innerShut
      | cons symbol others =>
          cases split
          exact (shut (opens.inside firstMember others)).elim
  | @behind first rest firstEmpty begins ih =>
      cases before with
      | nil =>
          cases split
          -- The token follows the first symbol, so it cannot begin it as well.
          apply exact.acc_of_not_opens
          intro opens
          exact exact.not_follows_opening opens firstEmpty (.beside member begins)
      | cons symbol others =>
          cases split
          have later : ⟨outer, (placed ++ [.nonTerminal first]) ++
              (others ++ .nonTerminal name :: after)⟩ ∈ table.grammar.productions := by
            rwa [List.append_assoc]
          refine ih later rfl empty.tail fun opens => shut ?_
          exact .behind_vanishing firstEmpty opens

/-- Under one lookahead no non-terminal leads back to itself. -/
theorem wellFounded_exposes (exact : table.Exact) (lookahead : Lookahead) :
    WellFounded (table.grammar.Exposes lookahead) := by
  refine ⟨fun name => ?_⟩
  by_cases opens : table.grammar.Opens lookahead [.nonTerminal name]
  · apply Acc.intro
    rintro inner ⟨before, after, exposed, predicts, empty, shut⟩
    obtain ⟨kind, rfl, begins⟩ := exact.opens_predicted opens exposed predicts
    have whole : ⟨name, [] ++ (before ++ .nonTerminal inner :: after)⟩ ∈
        table.grammar.productions := exposed
    exact exact.acc_of_begins begins whole rfl empty shut
  · exact exact.acc_of_not_opens opens

end ParseTable.Exact

namespace Machine

open Classical in
/-- How many non-terminals can come up under this one before a token is matched. -/
noncomputable def depth (grammar : PlainGrammar) (lookahead : Lookahead) (name : String) : Nat :=
  (grammar.names.toFinset.filter fun inner =>
    Relation.TransGen (grammar.Exposes lookahead) inner name).card

noncomputable def cost (grammar : PlainGrammar) (lookahead : Lookahead) (name : String) : Nat :=
  (longestProduction grammar + 2) ^ (depth grammar lookahead name + 1)

open Classical in
/-- More steps than the tasks take before a token is matched. What stands behind a
non-terminal that the lookahead begins is not reached. -/
noncomputable def load (grammar : PlainGrammar) (lookahead : Lookahead) : List Task → Nat
  | [] => 1
  | .finish :: _ => 1
  | .accept (.terminal _) :: _ => 1
  | .accept (.nonTerminal name) :: rest =>
      cost grammar lookahead name +
        if grammar.Opens lookahead [.nonTerminal name] then 0 else load grammar lookahead rest
  | .gather _ _ :: rest => load grammar lookahead rest + 1

variable {grammar : PlainGrammar} {lookahead : Lookahead}

/-! ### Depth and cost -/

theorem depth_le_size (grammar : PlainGrammar) (lookahead : Lookahead) (name : String) :
    depth grammar lookahead name ≤ grammar.nonTerminals.size := by
  have known : grammar.names.length = grammar.nonTerminals.size := by
    rw [PlainGrammar.names, List.length_map, Array.length_toList]
  rw [← known]
  classical
  exact (Finset.card_filter_le _ _).trans (List.toFinset_card_le _)

theorem depth_lt {table : ParseTable} (exact : table.Exact) {inner outer : String}
    (exposes : table.grammar.Exposes lookahead inner outer) :
    depth table.grammar lookahead inner < depth table.grammar lookahead outer := by
  have acyclic : ¬Relation.TransGen (table.grammar.Exposes lookahead) inner inner :=
    (exact.wellFounded_exposes lookahead).transGen.irrefl.irrefl inner
  have known : inner ∈ table.grammar.names := by
    obtain ⟨before, after, member, -⟩ := exposes
    exact exact.consistent.closed _ member inner (List.mem_append_right _ List.mem_cons_self)
  classical
  refine Finset.card_lt_card (Finset.ssubset_iff_of_subset ?_ |>.mpr ⟨inner, ?_, ?_⟩)
  · intro other member
    obtain ⟨known, below⟩ := Finset.mem_filter.mp member
    exact Finset.mem_filter.mpr ⟨known, below.tail exposes⟩
  · exact Finset.mem_filter.mpr ⟨List.mem_toFinset.mpr known, .single exposes⟩
  · exact fun member => acyclic (Finset.mem_filter.mp member).2

theorem length_le_longestProduction {production : Production}
    (member : production ∈ grammar.productions) :
    production.rhs.length ≤ longestProduction grammar := by
  have among : ∀ (productions : List Production) (longest : Nat),
      longest ≤ productions.foldl (fun longest production => max longest production.rhs.length)
          longest ∧
        ∀ production ∈ productions, production.rhs.length ≤
          productions.foldl (fun longest production => max longest production.rhs.length)
            longest := by
    intro productions
    induction productions with
    | nil => exact fun longest => ⟨Nat.le_refl _, nofun⟩
    | cons head rest ih =>
        intro longest
        obtain ⟨grows, covers⟩ := ih (max longest head.rhs.length)
        refine ⟨(Nat.le_max_left _ _).trans grows, ?_⟩
        intro production inList
        rcases List.mem_cons.mp inList with rfl | inRest
        · exact (Nat.le_max_right _ _).trans grows
        · exact covers production inRest
  rw [longestProduction, ← Array.foldl_toList]
  exact (among grammar.productions.toList 0).2 production (Array.mem_toList_iff.mpr member)

theorem cost_pos (grammar : PlainGrammar) (lookahead : Lookahead) (name : String) :
    0 < cost grammar lookahead name := Nat.pow_pos (Nat.succ_pos _)

theorem cost_le (grammar : PlainGrammar) (lookahead : Lookahead) (name : String) :
    cost grammar lookahead name ≤
      (longestProduction grammar + 2) ^ (grammar.nonTerminals.size + 1) :=
  Nat.pow_le_pow_right (Nat.succ_pos _) (Nat.succ_le_succ (depth_le_size grammar lookahead name))

theorem cost_le_of_exposes {table : ParseTable} (exact : table.Exact) {inner outer : String}
    (exposes : table.grammar.Exposes lookahead inner outer) :
    cost table.grammar lookahead inner ≤
      (longestProduction table.grammar + 2) ^ depth table.grammar lookahead outer :=
  Nat.pow_le_pow_right (Nat.succ_pos _) (depth_lt exact exposes)

theorem length_mul_lt_cost (lookahead : Lookahead) {name : String} {rhs : List Symbol}
    (member : ⟨name, rhs⟩ ∈ grammar.productions) :
    rhs.length * (longestProduction grammar + 2) ^ depth grammar lookahead name + 1 <
      cost grammar lookahead name := by
  have short : rhs.length ≤ longestProduction grammar := length_le_longestProduction member
  have positive : 0 < (longestProduction grammar + 2) ^ depth grammar lookahead name :=
    Nat.pow_pos (Nat.succ_pos _)
  rw [cost, Nat.pow_succ, Nat.mul_comm (_ ^ _), Nat.add_mul]
  have scaled := Nat.mul_le_mul_right
    ((longestProduction grammar + 2) ^ depth grammar lookahead name) short
  omega

/-! ### The load of the stack -/

theorem load_pos (grammar : PlainGrammar) (lookahead : Lookahead) (tasks : List Task) :
    0 < load grammar lookahead tasks := by
  fun_cases load grammar lookahead tasks
  case case4 name rest => exact Nat.add_pos_left (cost_pos grammar lookahead name) _
  all_goals omega

theorem load_le (grammar : PlainGrammar) (lookahead : Lookahead) (tasks : List Task) :
    load grammar lookahead tasks ≤
      tasks.length * (longestProduction grammar + 2) ^ (grammar.nonTerminals.size + 1) + 1 := by
  have positive : 0 < (longestProduction grammar + 2) ^ (grammar.nonTerminals.size + 1) :=
    Nat.pow_pos (Nat.succ_pos _)
  fun_induction load grammar lookahead tasks
  case case4 name rest ih =>
    have single := cost_le grammar lookahead name
    rw [List.length_cons, Nat.succ_mul]
    split <;> omega
  case case5 name count rest ih =>
    rw [List.length_cons, Nat.succ_mul]
    omega
  all_goals exact Nat.le_add_left 1 _

theorem opens_cons {name : String} {rest : List Symbol}
    (opens : grammar.Opens lookahead (.nonTerminal name :: rest)) :
    grammar.Opens lookahead [.nonTerminal name] ∨
      grammar.Vanishes [.nonTerminal name] ∧ grammar.Opens lookahead rest := by
  obtain ⟨kind, rfl, begins⟩ := opens
  cases begins with
  | inside _ member inner => exact Or.inl ⟨kind, rfl, .inside [] member inner⟩
  | behind empty later => exact Or.inr ⟨empty, kind, rfl, later⟩

theorem load_of_vanishes {bound : Nat} {symbols : List Symbol} (empty : grammar.Vanishes symbols)
    (closed : ¬grammar.Opens lookahead symbols) (tasks : List Task)
    (bounded : ∀ name, .nonTerminal name ∈ symbols → cost grammar lookahead name ≤ bound) :
    load grammar lookahead (symbols.map .accept ++ tasks) ≤
      symbols.length * bound + load grammar lookahead tasks := by
  induction empty with
  | nil => simp only [List.map_nil, List.nil_append, List.length_nil, Nat.zero_mul, Nat.zero_add,
      Nat.le_refl]
  | @cons name rhs rest member inner _ _ ih =>
      have first := bounded name List.mem_cons_self
      have later := ih
        (fun opens => closed (.behind_vanishing (.cons member inner .nil) opens))
        (fun name inRest => bounded name (List.mem_cons_of_mem _ inRest))
      have shut : ¬grammar.Opens lookahead [.nonTerminal name] :=
        fun opens => closed (opens.append rest)
      rw [List.map_cons, List.cons_append, load, if_neg shut, List.length_cons, Nat.succ_mul]
      omega

theorem load_of_opens {bound : Nat} {symbols : List Symbol}
    (opens : grammar.Opens lookahead symbols) (tasks : List Task)
    (bounded : ∀ before name after, symbols = before ++ .nonTerminal name :: after →
      grammar.Vanishes before → ¬grammar.Opens lookahead before →
        cost grammar lookahead name ≤ bound) :
    load grammar lookahead (symbols.map .accept ++ tasks) ≤ symbols.length * bound + 1 := by
  have nothing : ¬grammar.Opens lookahead [] := fun ⟨_, _, begins⟩ => nomatch begins
  induction symbols with
  | nil => exact (nothing opens).elim
  | cons symbol rest ih =>
      cases symbol with
      | terminal kind =>
          rw [List.map_cons, List.cons_append, load]
          exact Nat.le_add_left 1 _
      | nonTerminal name =>
          have first := bounded [] name rest rfl .nil nothing
          rw [List.map_cons, List.cons_append, load, List.length_cons, Nat.succ_mul]
          split
          case isTrue => omega
          case isFalse shut =>
            obtain ⟨empty, later⟩ := (opens_cons opens).resolve_left shut
            have others := ih later fun before other after split beforeEmpty beforeShut => by
              refine bounded (.nonTerminal name :: before) other after (split ▸ rfl)
                (empty.append beforeEmpty) fun opensBefore => ?_
              exact (opens_cons opensBefore).elim shut fun parts => beforeShut parts.2
            omega

theorem load_predict_lt {table : ParseTable} (exact : table.Exact) {state : ParseState}
    {name : String} {rhs : List Symbol} (member : ⟨name, rhs⟩ ∈ table.grammar.productions)
    (predicts : table.grammar.Predicts state.lookahead ⟨name, rhs⟩) (rest : List Task) :
    load table.grammar state.lookahead (predict state name rhs rest).stack <
      load table.grammar state.lookahead (.accept (.nonTerminal name) :: rest) := by
  have exposed : ∀ before inner after, rhs = before ++ .nonTerminal inner :: after →
      table.grammar.Vanishes before → ¬table.grammar.Opens state.lookahead before →
        cost table.grammar state.lookahead inner ≤
          (longestProduction table.grammar + 2) ^ depth table.grammar state.lookahead name := by
    rintro before inner after rfl empty shut
    exact cost_le_of_exposes exact ⟨before, after, member, predicts, empty, shut⟩
  have whole := length_mul_lt_cost state.lookahead member
  rw [load]
  by_cases opens : table.grammar.Opens state.lookahead [.nonTerminal name]
  · rw [if_pos opens]
    have opensRhs := exact.opens_predicted opens member predicts
    cases rhs with
    | nil => exact nomatch opensRhs.choose_spec.2
    | cons symbol symbols =>
        have raised := load_of_opens opensRhs (.gather name (symbols.length + 1) :: rest) exposed
        exact Nat.lt_of_le_of_lt raised whole
  · rw [if_neg opens]
    obtain ⟨empty, -⟩ := ParseTable.Exact.vanishes_predicted opens member predicts
    have closed : ¬table.grammar.Opens state.lookahead rhs := fun inRhs =>
      opens (inRhs.inside member [])
    cases rhs with
    | nil => exact Nat.lt_add_of_pos_left (cost_pos _ _ _)
    | cons symbol symbols =>
        have raised := load_of_vanishes empty closed (.gather name (symbols.length + 1) :: rest)
          fun inner inRhs => by
            obtain ⟨before, after, split⟩ := List.append_of_mem inRhs
            refine exposed before inner after split (split ▸ empty).left fun inBefore => closed ?_
            exact split ▸ inBefore.append _
        rw [load] at raised
        apply Nat.lt_of_le_of_lt raised
        omega

/-- Every step that leaves the input alone lowers the load. -/
theorem load_lt_of_stay {machine : Machine} (exact : machine.table.Exact) {state next : ParseState}
    (stayed : machine.step state = .stay next) :
    load machine.table.grammar state.lookahead next.stack <
      load machine.table.grammar state.lookahead state.stack := by
  have leads := leads_step machine state
  rw [stayed] at leads
  cases leads with
  | @gathered rest name count top =>
      rw [top, load]
      exact Nat.lt_succ_self _
  | @expanded rest name production top found =>
      obtain ⟨rfl, member, predicts⟩ := exact.get?_iff.mp found
      rw [top]
      exact load_predict_lt exact member predicts rest

theorem exists_untilShift {machine : Machine} (exact : machine.table.Exact) {fuel : Nat}
    {state : ParseState}
    (enough : load machine.table.grammar state.lookahead state.stack ≤ fuel) :
    (∃ result, machine.untilShift fuel state = some (.halt result)) ∨
      ∃ next token, machine.untilShift fuel state = some (.shift next) ∧
        state.input = token :: next.input := by
  induction fuel generalizing state with
  | zero => exact (Nat.not_lt_of_le enough (load_pos _ _ _)).elim
  | succ fuel ih =>
      cases progress : machine.step state with
      | stay next =>
          have same := input_of_stay progress
          have lower := load_lt_of_stay exact progress
          simp only [untilShift, progress, ← same]
          apply ih
          rw [lookahead_congr same]
          omega
      | shift next =>
          obtain ⟨token, input⟩ := input_of_shift progress
          refine Or.inr ⟨next, token, ?_, input⟩
          simp only [untilShift, progress]
      | halt result =>
          refine Or.inl ⟨result, ?_⟩
          simp only [untilShift, progress]

theorem exists_run {machine : Machine} (exact : machine.table.Exact) {rounds : Nat}
    {state : ParseState} (enough : state.input.length < rounds) :
    ∃ result, machine.run rounds state = some result := by
  induction rounds generalizing state with
  | zero => exact (Nat.not_lt_zero _ enough).elim
  | succ rounds ih =>
      have within : load machine.table.grammar state.lookahead state.stack ≤
          machine.allowance state := load_le _ _ _
      rcases exists_untilShift exact within with ⟨result, halted⟩ | ⟨next, token, shifted, input⟩
      · refine ⟨result, ?_⟩
        simp only [run, halted]
      · have fewer : next.input.length < rounds := by
          rw [input, List.length_cons] at enough
          omega
        obtain ⟨result, later⟩ := ih fewer
        refine ⟨result, ?_⟩
        simp only [run, shifted, later]

theorem run_eq_some_iff {machine : Machine} (exact : machine.table.Exact) {rounds : Nat}
    {state : ParseState} (enough : state.input.length < rounds)
    {result : Except ParseError Tree} :
    machine.run rounds state = some result ↔ ∃ count, machine.Halts count state result := by
  refine ⟨halts_of_run, ?_⟩
  rintro ⟨count, halts⟩
  obtain ⟨answer, found⟩ := exists_run exact enough
  obtain ⟨other, ends⟩ := halts_of_run found
  rw [found, halts.unique ends]

end Machine

namespace ParseTable

/-- With the table of a grammar the parser halts on every list of tokens, and the
answer is where it halts. -/
theorem parse?_halts {source : Grammar} {table : ParseTable} (built : build source = .ok table)
    (config : ParserConfig) (tokens : List Token) :
    ∃ count result,
      (Machine.ofTokens table tokens).Halts count
          (Machine.initial table (config.kept tokens)) result ∧
        table.parse? config tokens = some result := by
  have exact : (Machine.ofTokens table tokens).table.Exact := (build_exact built).2
  have enough : (Machine.initial table (config.kept tokens)).input.length <
      (config.kept tokens).length + 1 := Nat.lt_succ_self _
  obtain ⟨result, answer⟩ := Machine.exists_run exact enough
  obtain ⟨count, halts⟩ := (Machine.run_eq_some_iff exact enough).mp answer
  exact ⟨count, result, halts, answer⟩

/-- Rules that lead back to themselves, without a token in front or only through
what vanishes, and yet claim no cell twice. -/
def circular : Grammar where
  start := "S"
  rules :=
    [("S", .sequence [.optional (.nonTerminal "L"), .terminal "a"]),
      ("L", .sequence [.nonTerminal "L", .terminal "x"]),
      ("N", .optional (.nonTerminal "N"))]
  distinct := by decide
  startDefined := by decide
  closed := by decide

theorem parse?_halts_circular :
    ∃ table, build circular = .ok table ∧
      ∃ count result,
        (Machine.ofTokens table [⟨"a", "a", ⟨0, 1⟩, 1, 1⟩]).Halts count
            (Machine.initial table [⟨"a", "a", ⟨0, 1⟩, 1, 1⟩]) result ∧
          table.parse? .empty [⟨"a", "a", ⟨0, 1⟩, 1, 1⟩] = some result := by
  have free : conflicts circular.lower (.compute circular.lower)
      (.compute circular.lower (.compute circular.lower)) = [] := by decide +kernel
  have built := ofSets_eq_ok_iff.mpr ⟨free, rfl⟩
  exact ⟨_, built, parse?_halts built .empty [⟨"a", "a", ⟨0, 1⟩, 1, 1⟩]⟩

end ParseTable

end Predictive
