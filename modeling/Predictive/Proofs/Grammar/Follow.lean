/-
The FOLLOW sets are exact. A lookahead follows a non-terminal when it begins what
stands behind an occurrence of it, or when that vanishes and it follows the
production's own non-terminal. The sets on the way hold only such lookaheads,
and the sets that a pass does not change hold all of them.
-/

import Predictive.Grammar.Follow
import Predictive.Proofs.Grammar.First

namespace Predictive

namespace PlainGrammar

/-- A lookahead can stand right after a non-terminal. -/
inductive Follows (grammar : PlainGrammar) : Lookahead → String → Prop where
  | start : Follows grammar .endOfInput grammar.startName
  | beside {name target kind : String} {before after : List Symbol}
      (member : ⟨name, before ++ .nonTerminal target :: after⟩ ∈ grammar.productions)
      (begins : grammar.Begins kind after) : Follows grammar (.token kind) target
  | inherited {name target : String} {lookahead : Lookahead} {before after : List Symbol}
      (member : ⟨name, before ++ .nonTerminal target :: after⟩ ∈ grammar.productions)
      (empty : grammar.Vanishes after) (follows : Follows grammar lookahead name) :
      Follows grammar lookahead target

variable {grammar : PlainGrammar}

theorem Follows.mem_candidates {lookahead : Lookahead} {name : String}
    (follows : grammar.Follows lookahead name) :
    lookahead ∈ .endOfInput :: grammar.terminals.map .token := by
  induction follows with
  | start => exact List.mem_cons_self
  | @beside name target kind before after member begins =>
      refine List.mem_cons_of_mem _ (List.mem_map.mpr ⟨kind, ?_, rfl⟩)
      rcases begins.mem_terminals with inAfter | known
      · refine List.mem_filterMap.mpr ⟨.terminal kind, ?_, rfl⟩
        refine List.mem_flatMap.mpr ⟨_, Array.mem_toList_iff.mpr member, ?_⟩
        exact List.mem_append_right _ (List.mem_cons_of_mem _ inAfter)
      · exact known
  | inherited member empty follows ih => exact ih

end PlainGrammar

namespace FollowSets

variable {grammar : PlainGrammar} {follow : FollowSets}

structure Valid (grammar : PlainGrammar) (follow : FollowSets) : Prop where
  size : follow.sets.size = grammar.nonTerminals.size
  ascending : ∀ set ∈ follow.sets, OrderedSet.Ascending set
  follows : ∀ {id name}, grammar.nameOf? id = some name → ∀ lookahead ∈ follow.ofId id,
    grammar.Follows lookahead name

/-- Moreover the end of input follows the start symbol. -/
structure Sound (grammar : PlainGrammar) (follow : FollowSets) : Prop
    extends Valid grammar follow where
  ended : .endOfInput ∈ follow.ofId grammar.start

theorem Valid.ascending_ofId (valid : follow.Valid grammar) (id : Nat) :
    OrderedSet.Ascending (follow.ofId id) := by
  rw [ofId, Array.getD_eq_getD_getElem?]
  cases found : follow.sets[id]? with
  | none => exact List.Pairwise.nil
  | some set => exact valid.ascending set (Array.mem_of_getElem? found)

def weight (follow : FollowSets) : Nat := (follow.sets.toList.map List.length).sum

theorem ofId_extend (follow : FollowSets) (id : Nat) (lookaheads : List Lookahead) (other : Nat)
    (inRange : id < follow.sets.size) :
    (follow.extend id lookaheads).ofId other =
      if id = other then OrderedSet.insertAll (follow.ofId id) lookaheads
      else follow.ofId other := by
  simp only [ofId, extend, Array.getD_eq_getD_getElem?, Array.getElem?_modify]
  split
  case isTrue same =>
    subst same
    rw [Array.getElem?_eq_getElem inRange]
    rfl
  case isFalse => rfl

theorem mem_extend {id : Nat} {lookaheads : List Lookahead} (inRange : id < follow.sets.size)
    {other : Nat} {lookahead : Lookahead} :
    lookahead ∈ (follow.extend id lookaheads).ofId other ↔
      lookahead ∈ follow.ofId other ∨ id = other ∧ lookahead ∈ lookaheads := by
  rw [ofId_extend follow id lookaheads other inRange]
  split
  case isTrue same =>
    subst same
    rw [OrderedSet.mem_insertAll, and_iff_right rfl]
  case isFalse different => simp only [different, false_and, or_false]

theorem extend_valid {id : Nat} {name : String} {lookaheads : List Lookahead}
    (valid : follow.Valid grammar) (named : grammar.nameOf? id = some name)
    (follows : ∀ lookahead ∈ lookaheads, grammar.Follows lookahead name) :
    (follow.extend id lookaheads).Valid grammar := by
  have inRange : id < follow.sets.size := valid.size ▸ PlainGrammar.lt_size_of_nameOf? named
  refine ⟨?_, ?_, ?_⟩
  · rw [← valid.size]
    exact Array.size_modify
  · intro set member
    change set ∈ follow.sets.modify id fun set => OrderedSet.insertAll set lookaheads at member
    rcases mem_of_mem_modify member with old | ⟨old, oldFound, rfl⟩
    · exact valid.ascending set old
    · exact OrderedSet.ascending_insertAll (valid.ascending old (Array.mem_of_getElem? oldFound))
  · intro other otherName otherNamed lookahead member
    rcases (mem_extend inRange).mp member with known | ⟨rfl, new⟩
    · exact valid.follows otherNamed lookahead known
    · rw [named] at otherNamed
      cases otherNamed
      exact follows lookahead new

theorem extend_inflates {id : Nat} {name : String} (named : grammar.nameOf? id = some name)
    (found : FollowSets → List Lookahead)
    (follows : ∀ {follow}, Sound grammar follow → ∀ lookahead ∈ found follow,
      grammar.Follows lookahead name) :
    Inflates (Sound grammar) weight fun follow => follow.extend id (found follow) where
  keeps := by
    intro follow sound
    have inRange : id < follow.sets.size := sound.size ▸ PlainGrammar.lt_size_of_nameOf? named
    exact ⟨extend_valid sound.toValid named (follows sound),
      (mem_extend inRange).mpr (Or.inl sound.ended)⟩
  grows := by
    intro follow sound
    have whole := modify_eq_or_sum_lt follow.sets id fun set inSets =>
      @OrderedSet.insertAll_eq_or_length_lt _ _ _ _ set (found follow) (sound.ascending set inSets)
    refine whole.imp (fun same => ?_) fun heavier => heavier
    rw [extend, same]

theorem mem_of_extend_fixed {id : Nat} {lookaheads : List Lookahead} {lookahead : Lookahead}
    (inRange : id < follow.sets.size) (fixed : follow.extend id lookaheads = follow)
    (member : lookahead ∈ lookaheads) : lookahead ∈ follow.ofId id := by
  rw [← fixed]
  exact (mem_extend inRange).mpr (Or.inr ⟨rfl, member⟩)

/-! ### One occurrence -/

section Occurrence

variable {lhs target : Nat} {name targetName : String} {before after : List Symbol}

theorem extend_byFirst_inflates (consistent : grammar.Consistent)
    (targetNamed : grammar.nameOf? target = some targetName)
    (member : ⟨name, before ++ .nonTerminal targetName :: after⟩ ∈ grammar.productions) :
    Inflates (Sound grammar) weight fun follow =>
      follow.extend target (((FirstSets.compute grammar).ofSymbols after).1.map .token) := by
  refine extend_inflates targetNamed (fun _ => _) ?_
  intro follow sound lookahead inside
  obtain ⟨kind, begins, rfl⟩ := List.mem_map.mp inside
  exact .beside member ((FirstSets.mem_compute_ofSymbols_iff consistent).mp begins)

theorem extend_byFollow_inflates (vanishes : grammar.Vanishes after)
    (lhsNamed : grammar.nameOf? lhs = some name)
    (targetNamed : grammar.nameOf? target = some targetName)
    (member : ⟨name, before ++ .nonTerminal targetName :: after⟩ ∈ grammar.productions) :
    Inflates (Sound grammar) weight fun follow => follow.extend target (follow.ofId lhs) := by
  refine extend_inflates targetNamed (fun follow => follow.ofId lhs) ?_
  intro follow sound lookahead inside
  exact .inherited member vanishes (sound.follows lhsNamed lookahead inside)

theorem absorb_inherits (follow : FollowSets) (different : lhs ≠ target)
    (nullable : ((FirstSets.compute grammar).ofSymbols after).2 = true) :
    absorb (.compute grammar) follow lhs target after =
      (follow.extend target (((FirstSets.compute grammar).ofSymbols after).1.map .token)).extend
        target ((follow.extend target
          (((FirstSets.compute grammar).ofSymbols after).1.map .token)).ofId lhs) := by
  simp only [absorb, nullable, bne_iff_ne.mpr different, Bool.and_self, if_true]

theorem absorb_alone (follow : FollowSets)
    (alone : ¬ (((FirstSets.compute grammar).ofSymbols after).2 = true ∧ lhs ≠ target)) :
    absorb (.compute grammar) follow lhs target after =
      follow.extend target (((FirstSets.compute grammar).ofSymbols after).1.map .token) := by
  have skipped : ¬ (((FirstSets.compute grammar).ofSymbols after).2 && lhs != target) = true := by
    rwa [Bool.and_eq_true, bne_iff_ne]
  simp only [absorb, skipped, if_false, Bool.false_eq_true]

theorem absorb_inflates (consistent : grammar.Consistent)
    (lhsNamed : grammar.nameOf? lhs = some name)
    (targetNamed : grammar.nameOf? target = some targetName)
    (member : ⟨name, before ++ .nonTerminal targetName :: after⟩ ∈ grammar.productions) :
    Inflates (Sound grammar) weight fun follow =>
      absorb (.compute grammar) follow lhs target after := by
  have byFirst := extend_byFirst_inflates consistent targetNamed member
  by_cases inherits : ((FirstSets.compute grammar).ofSymbols after).2 = true ∧ lhs ≠ target
  · have vanishes := (FirstSets.compute_ofSymbols_nullable_iff consistent).mp inherits.1
    simp only [absorb_inherits _ inherits.2 inherits.1]
    exact byFirst.comp (extend_byFollow_inflates vanishes lhsNamed targetNamed member)
  · simp only [absorb_alone _ inherits]
    exact byFirst

theorem absorb_fixed (consistent : grammar.Consistent) (sound : follow.Sound grammar)
    (lhsNamed : grammar.nameOf? lhs = some name)
    (targetNamed : grammar.nameOf? target = some targetName)
    (member : ⟨name, before ++ .nonTerminal targetName :: after⟩ ∈ grammar.productions)
    (fixed : absorb (.compute grammar) follow lhs target after = follow) :
    (∀ kind, grammar.Begins kind after → .token kind ∈ follow.ofId target) ∧
      (grammar.Vanishes after → ∀ lookahead ∈ follow.ofId lhs, lookahead ∈ follow.ofId target) := by
  have inRange : target < follow.sets.size :=
    sound.size ▸ PlainGrammar.lt_size_of_nameOf? targetNamed
  have byFirst := extend_byFirst_inflates consistent targetNamed member
  have heard : ∀ kind, grammar.Begins kind after → Lookahead.token kind ∈
      ((FirstSets.compute grammar).ofSymbols after).1.map .token := fun kind begins =>
    List.mem_map.mpr ⟨kind, (FirstSets.mem_compute_ofSymbols_iff consistent).mpr begins, rfl⟩
  by_cases inherits : ((FirstSets.compute grammar).ofSymbols after).2 = true ∧ lhs ≠ target
  · have vanishes := (FirstSets.compute_ofSymbols_nullable_iff consistent).mp inherits.1
    rw [absorb_inherits follow inherits.2 inherits.1] at fixed
    obtain ⟨once, twice⟩ := byFirst.fixed_of_comp
      (extend_byFollow_inflates vanishes lhsNamed targetNamed member) sound fixed
    exact ⟨fun kind begins => mem_of_extend_fixed inRange once (heard kind begins),
      fun _ lookahead inherited => mem_of_extend_fixed inRange twice inherited⟩
  · rw [absorb_alone follow inherits] at fixed
    refine ⟨fun kind begins => mem_of_extend_fixed inRange fixed (heard kind begins), ?_⟩
    intro vanishes lookahead inherited
    have same : lhs = target := Decidable.of_not_not fun different =>
      inherits ⟨(FirstSets.compute_ofSymbols_nullable_iff consistent).mpr vanishes, different⟩
    exact same ▸ inherited

end Occurrence

/-! ### Whole productions -/

section Productions

variable (consistent : grammar.Consistent) {lhs : Nat} {name : String}

include consistent in
theorem absorbString_inflates (lhsNamed : grammar.nameOf? lhs = some name)
    (before symbols : List Symbol) (member : ⟨name, before ++ symbols⟩ ∈ grammar.productions) :
    Inflates (Sound grammar) weight fun follow =>
      absorbString grammar (.compute grammar) lhs follow symbols := by
  induction symbols generalizing before with
  | nil => exact ⟨fun holds => holds, fun _ => Or.inl rfl⟩
  | cons symbol rest ih =>
      have others := ih (before ++ [symbol])
        (by rwa [List.append_assoc, List.singleton_append])
      cases symbol with
      | terminal kind => exact others
      | nonTerminal targetName =>
          unfold absorbString
          split
          case h_1 target found =>
            have targetNamed := consistent.idOf?_eq_some_iff.mp found
            exact (absorb_inflates consistent lhsNamed targetNamed member).comp others
          case h_2 => exact others

include consistent in
theorem absorbString_fixed (sound : follow.Sound grammar)
    (lhsNamed : grammar.nameOf? lhs = some name) (before symbols : List Symbol)
    (member : ⟨name, before ++ symbols⟩ ∈ grammar.productions)
    (fixed : absorbString grammar (.compute grammar) lhs follow symbols = follow)
    {inner after : List Symbol} {target : Nat} {targetName : String}
    (occurs : symbols = inner ++ .nonTerminal targetName :: after)
    (targetNamed : grammar.nameOf? target = some targetName) :
    absorb (.compute grammar) follow lhs target after = follow := by
  induction symbols generalizing before inner with
  | nil => cases inner <;> cases occurs
  | cons symbol rest ih =>
      have restMember : ⟨name, before ++ [symbol] ++ rest⟩ ∈ grammar.productions := by
        rwa [List.append_assoc, List.singleton_append]
      have others := absorbString_inflates consistent lhsNamed (before ++ [symbol]) rest restMember
      cases symbol with
      | terminal kind =>
          cases inner with
          | nil => cases occurs
          | cons head inner =>
              exact ih (before ++ [_]) restMember fixed (List.cons.inj occurs).2
      | nonTerminal otherName =>
          obtain ⟨other, found⟩ := consistent.exists_idOf?
            (consistent.closed _ member otherName (by simp))
          have otherNamed := consistent.idOf?_eq_some_iff.mp found
          unfold absorbString at fixed
          simp only [found] at fixed
          obtain ⟨here, later⟩ :=
            (absorb_inflates consistent lhsNamed otherNamed member).fixed_of_comp others sound fixed
          cases inner with
          | nil =>
              obtain ⟨same, rfl⟩ := List.cons.inj occurs
              cases same
              rwa [← consistent.nameOf?_inj otherNamed targetNamed]
          | cons head inner =>
              exact ih (before ++ [_]) restMember later (List.cons.inj occurs).2

end Productions

/-! ### Exactness -/

def absorbProduction (grammar : PlainGrammar) (follow : FollowSets) (production : Production) :
    FollowSets :=
  match grammar.idOf? production.lhs with
  | some lhs => absorbString grammar (.compute grammar) lhs follow production.rhs
  | none => follow

theorem absorbProduction_inflates (consistent : grammar.Consistent) (production : Production)
    (member : production ∈ grammar.productions.toList) :
    Inflates (Sound grammar) weight fun follow => absorbProduction grammar follow production := by
  unfold absorbProduction
  split
  case h_1 lhs found =>
    exact absorbString_inflates consistent (consistent.idOf?_eq_some_iff.mp found) []
      production.rhs (Array.mem_toList_iff.mp member)
  case h_2 => exact ⟨fun holds => holds, fun _ => Or.inl rfl⟩

theorem pass_inflates (consistent : grammar.Consistent) :
    Inflates (Sound grammar) weight (pass grammar (.compute grammar)) :=
  Inflates.foldl grammar.productions.toList (absorbProduction_inflates consistent)

theorem initial_sound {start : String} (started : grammar.nameOf? grammar.start = some start) :
    (initial grammar).Sound grammar := by
  have name : grammar.startName = start := by
    rw [PlainGrammar.startName, PlainGrammar.nameOf, started, Option.getD_some]
  have blank : Valid grammar
      { names := grammar.names, sets := grammar.nonTerminals.map fun _ => [] } := by
    refine ⟨Array.size_map, ?_, ?_⟩
    · intro set member
      obtain ⟨nonTerminal, -, rfl⟩ := Array.mem_map.mp member
      exact List.Pairwise.nil
    · intro id name named lookahead member
      have inRange := PlainGrammar.lt_size_of_nameOf? named
      simp only [ofId, Array.getD_eq_getD_getElem?, Array.getElem?_map,
        Array.getElem?_eq_getElem inRange, Option.map_some, Option.getD_some] at member
      cases member
  refine ⟨extend_valid blank started ?_, (mem_extend ?_).mpr (Or.inr ⟨rfl, ?_⟩)⟩
  · intro lookahead member
    cases List.mem_singleton.mp member
    exact name ▸ .start
  · exact blank.size ▸ PlainGrammar.lt_size_of_nameOf? started
  · exact List.mem_singleton_self _

theorem weight_le (sound : follow.Sound grammar) :
    follow.weight ≤ grammar.nonTerminals.size * (grammar.terminals.length + 1) := by
  rw [weight, ← sound.size, ← Array.length_toList]
  apply sum_le_length_mul
  intro set inList
  have member := Array.mem_toList_iff.mp inList
  obtain ⟨id, found⟩ := Array.mem_iff_getElem?.mp member
  have inRange : id < grammar.nonTerminals.size :=
    sound.size ▸ (Array.getElem?_eq_some_iff.mp found).1
  have named := PlainGrammar.nameOf?_of_lt grammar inRange
  have known : set ⊆ .endOfInput :: grammar.terminals.map .token := by
    intro lookahead inSet
    refine (sound.follows named lookahead ?_).mem_candidates
    rw [ofId, Array.getD_eq_getD_getElem?, found]
    exact inSet
  have short := OrderedSet.length_le_of_subset (sound.ascending set member) known
  rwa [List.length_cons, List.length_map] at short

theorem compute_settles (consistent : grammar.Consistent) {start : String}
    (started : grammar.nameOf? grammar.start = some start) :
    Settles (pass grammar (.compute grammar)) (solve grammar (.compute grammar)).2
      (initial grammar) (compute grammar (.compute grammar)) := by
  have limit : grammar.nonTerminals.size * (grammar.terminals.length + 1) <
      passLimit grammar (.compute grammar) := by
    refine Nat.lt_succ_of_le (Nat.mul_le_mul_left _ ?_)
    rw [candidates, List.length_append]
    omega
  obtain ⟨passes, count, settles⟩ := settle_settles (pass_inflates consistent) weight_le
    (passLimit grammar (.compute grammar)) 0 (initial_sound started) (by omega)
  rw [solve, count, Nat.zero_add]
  exact settles

theorem compute_spec (consistent : grammar.Consistent) {start : String}
    (started : grammar.nameOf? grammar.start = some start) :
    (compute grammar (.compute grammar)).Sound grammar ∧
      ∀ production ∈ grammar.productions.toList,
        absorbProduction grammar (compute grammar (.compute grammar)) production =
          compute grammar (.compute grammar) := by
  have settles := compute_settles consistent started
  have sound := settles.keeps (Sound grammar) (pass_inflates consistent).keeps
    (initial_sound started)
  exact ⟨sound, Inflates.fixed_of_foldl _ (absorbProduction_inflates consistent) sound
    settles.fixed⟩

theorem compute_occurrence (consistent : grammar.Consistent) {start : String}
    (started : grammar.nameOf? grammar.start = some start) {lhs target : Nat}
    {name targetName : String} {before after : List Symbol}
    (lhsNamed : grammar.nameOf? lhs = some name)
    (targetNamed : grammar.nameOf? target = some targetName)
    (member : ⟨name, before ++ .nonTerminal targetName :: after⟩ ∈ grammar.productions) :
    absorb (.compute grammar) (compute grammar (.compute grammar)) lhs target after =
      compute grammar (.compute grammar) := by
  obtain ⟨sound, fixed⟩ := compute_spec consistent started
  have whole := fixed _ (Array.mem_toList_iff.mpr member)
  simp only [absorbProduction, consistent.idOf?_eq_some_iff.mpr lhsNamed] at whole
  exact absorbString_fixed consistent sound lhsNamed [] _ member whole rfl targetNamed

theorem mem_compute_iff (consistent : grammar.Consistent) {start : String}
    (started : grammar.nameOf? grammar.start = some start) {id : Nat} {name : String}
    (named : grammar.nameOf? id = some name) {lookahead : Lookahead} :
    lookahead ∈ (compute grammar (.compute grammar)).ofId id ↔ grammar.Follows lookahead name := by
  have sound := (compute_spec consistent started).1
  constructor
  · exact sound.follows named lookahead
  · intro follows
    induction follows generalizing id with
    | start =>
        have name : grammar.startName = start := by
          rw [PlainGrammar.startName, PlainGrammar.nameOf, started, Option.getD_some]
        rw [consistent.nameOf?_inj named (name ▸ started)]
        exact sound.ended
    | @beside lhsName target kind before after member begins =>
        obtain ⟨lhs, lhsNamed⟩ := PlainGrammar.mem_names_iff.mp (consistent.owned _ member)
        have fixed := compute_occurrence consistent started lhsNamed named member
        exact (absorb_fixed consistent sound lhsNamed named member fixed).1 kind begins
    | @inherited lhsName target lookahead before after member empty follows ih =>
        obtain ⟨lhs, lhsNamed⟩ := PlainGrammar.mem_names_iff.mp (consistent.owned _ member)
        have fixed := compute_occurrence consistent started lhsNamed named member
        exact (absorb_fixed consistent sound lhsNamed named member fixed).2 empty lookahead
          (ih lhsNamed)

end FollowSets

end Predictive
