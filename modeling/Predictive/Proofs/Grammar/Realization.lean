/-
What lowering leaves behind: in the finished plain grammar every rule body is
realized by a string of symbols, and the productions of each synthetic
non-terminal are exactly those of its operator. Nothing is added to a synthetic
non-terminal after the operator that introduced it has been lowered.
-/

import Predictive.Proofs.Grammar.Growth

namespace Predictive

mutual

/-- In a plain grammar a string of symbols stands for a rule body. Each operator
has a non-terminal whose productions are all listed here. -/
inductive Realizes (source : Grammar) (plain : PlainGrammar) : Rule → List Symbol → Prop where
  | terminal (name : String) : Realizes source plain (.terminal name) [.terminal name]
  | nonTerminal {name : String} (declared : name ∈ source.names) :
      Realizes source plain (.nonTerminal name) [.nonTerminal name]
  | sequence {items : List Rule} {bodies : List (List Symbol)}
      (each : RealizesEach source plain items bodies) :
      Realizes source plain (.sequence items) bodies.flatten
  | alternative {items : List Rule} {name : String}
      (each : RealizesEach source plain items (plain.bodiesOf name)) :
      Realizes source plain (.alternative items) [.nonTerminal name]
  | optional {inner : Rule} {body : List Symbol} {name : String}
      (branches : plain.bodiesOf name = [body, []]) (once : Realizes source plain inner body) :
      Realizes source plain (.optional inner) [.nonTerminal name]
  | zeroOrMore {inner : Rule} {body : List Symbol} {name : String}
      (branches : plain.bodiesOf name = [body ++ [.nonTerminal name], []])
      (once : Realizes source plain inner body) :
      Realizes source plain (.zeroOrMore inner) [.nonTerminal name]
  | oneOrMore {inner : Rule} {body : List Symbol} {name tail : String}
      (branches : plain.bodiesOf name = [body ++ [.nonTerminal tail]])
      (tailBranches : plain.bodiesOf tail = [body ++ [.nonTerminal tail], []])
      (once : Realizes source plain inner body) :
      Realizes source plain (.oneOrMore inner) [.nonTerminal name]

inductive RealizesEach (source : Grammar) (plain : PlainGrammar) :
    List Rule → List (List Symbol) → Prop where
  | nil : RealizesEach source plain [] []
  | cons {item : Rule} {items : List Rule} {body : List Symbol} {bodies : List (List Symbol)}
      (first : Realizes source plain item body)
      (others : RealizesEach source plain items bodies) :
      RealizesEach source plain (item :: items) (body :: bodies)

end

namespace Lowering

variable {source : Grammar} {plain : PlainGrammar} {start before middle after : Lowering}
  {allowed : Nat → Prop} {owner : String}

/-- A grammar has for every non-terminal that was added between two states the
productions of the later state. -/
def Settled (before after : Lowering) (plain : PlainGrammar) : Prop :=
  ∀ id name, before.nonTerminals.size ≤ id → after.grammar.nameOf? id = some name →
    plain.bodiesOf name = after.grammar.bodiesOf name

theorem Settled.restrict (settled : Settled before after plain)
    (later : before.nonTerminals.size ≤ start.nonTerminals.size)
    (grows : Grows allowed middle after) (consistent : middle.grammar.Consistent)
    (kept : ∀ id, start.nonTerminals.size ≤ id → id < middle.nonTerminals.size → ¬ allowed id) :
    Settled start middle plain := by
  intro id name above named
  rw [settled id name (Nat.le_trans later above) (grows.nameOf? named)]
  exact grows.bodiesOf consistent named
    (kept id above (PlainGrammar.lt_size_of_nameOf? named))

theorem Settled.later (settled : Settled before after plain)
    (later : before.nonTerminals.size ≤ start.nonTerminals.size) : Settled start after plain :=
  fun id name above named => settled id name (Nat.le_trans later above) named

/-- Lowering a rule body adds only to new non-terminals, and its string realizes
the body as soon as these are settled. -/
structure Flattened (source : Grammar) (before : Lowering) (rule : Rule) (symbols : List Symbol)
    (after : Lowering) : Prop where
  grows : Grows (before.nonTerminals.size ≤ ·) before after
  covered : after.Covers symbols
  realized : ∀ plain, Settled before after plain → Realizes source plain rule symbols

structure Branched (source : Grammar) (before : Lowering) (id : Nat) (items : List Rule)
    (after : Lowering) : Prop where
  grows : Grows (fun other => other = id ∨ before.nonTerminals.size ≤ other) before after
  realized : ∀ name, before.grammar.nameOf? id = some name → ∃ bodies,
    after.grammar.bodiesOf name = before.grammar.bodiesOf name ++ bodies ∧
      ∀ plain, Settled before after plain → RealizesEach source plain items bodies

theorem covers_append {left right : List Symbol} (inLeft : before.Covers left)
    (inRight : before.Covers right) : before.Covers (left ++ right) := by
  intro name inside
  rcases List.mem_append.mp inside with here | there
  · exact inLeft name here
  · exact inRight name there

theorem covers_single {name : String} (declared : name ∈ before.names) :
    before.Covers [.nonTerminal name] := by
  intro other inside
  cases List.mem_singleton.mp inside
  exact declared

theorem covers_nil : before.Covers [] := fun _ inside => absurd inside List.not_mem_nil

structure Declares (before : Lowering) (id : Nat) (name : String) (after : Lowering) : Prop where
  position : id = before.nonTerminals.size
  size : after.nonTerminals.size = before.nonTerminals.size + 1
  step : ∀ allowed, Step allowed before after
  named : after.grammar.nameOf? id = some name
  unused : after.grammar.bodiesOf name = []
  consistent : after.grammar.Consistent

theorem fresh_declares (consistent : before.grammar.Consistent) (owner : String) :
    Declares before (before.fresh owner).1.1 (before.fresh owner).1.2 (before.fresh owner).2 where
  position := rfl
  size := by simp only [fresh, declare, Array.size_push]
  step := fun allowed => fresh_step allowed before owner
  named := nameOf?_fresh before owner
  unused := bodiesOf_eq_nil consistent (nextSuffix_free before owner)
  consistent := (fresh_step (fun _ => True) before owner).consistent consistent

variable {id tailId : Nat} {name tail : String} {declared twice : Lowering}

/-! ### One operator at a time -/

theorem flattened_nil : Flattened source before (.sequence []) [] before :=
  ⟨.refl, covers_nil, fun _ _ => .sequence .nil⟩

theorem flattened_cons {item : Rule} {rest : List Rule} {first others : List Symbol}
    (consistent : before.grammar.Consistent)
    (head : Flattened source before item first middle)
    (tail : Flattened source middle (.sequence rest) others after) :
    Flattened source before (.sequence (item :: rest)) (first ++ others) after := by
  have later := head.grows.size_le
  refine ⟨?_, ?_, ?_⟩
  · exact head.grows.trans (tail.grows.mono fun id above => Nat.le_trans later above)
  · exact covers_append (tail.grows.covers head.covered) tail.covered
  · intro plain settled
    have inFirst := head.realized plain (settled.restrict (Nat.le_refl _) tail.grows
      (head.grows.consistent consistent) fun id _ below above => Nat.not_lt.mpr above below)
    have inRest := tail.realized plain (settled.later later)
    cases inRest with
    | sequence each => exact .sequence (.cons inFirst each)

theorem branched_nil {id : Nat} : Branched source before id [] before :=
  ⟨.refl, fun _ _ => ⟨[], (List.append_nil _).symm, fun _ _ => .nil⟩⟩

theorem branched_cons {id : Nat} {item : Rule} {rest : List Rule} {body : List Symbol}
    (consistent : before.grammar.Consistent) (inRange : id < before.nonTerminals.size)
    (head : Flattened source before item body middle)
    (tail : Branched source (middle.addProduction id body) id rest after) :
    Branched source before id (item :: rest) after := by
  have later := head.grows.size_le
  have sizes := size_addProduction middle id body
  have rest : Grows (fun other => other = id ∨ middle.nonTerminals.size ≤ other) middle after := by
    refine .trans (.single (.produce (Or.inl rfl) (by omega) head.covered)) (tail.grows.mono ?_)
    intro other either
    rwa [sizes] at either
  refine ⟨?_, ?_⟩
  · refine .trans (head.grows.mono fun other above => Or.inr above) (rest.mono ?_)
    rintro other (same | above)
    · exact Or.inl same
    · exact Or.inr (Nat.le_trans later above)
  · intro name named
    have middleNamed := head.grows.nameOf? named
    obtain ⟨bodies, added, each⟩ := tail.realized name (by
      rw [nameOf?_addProduction]
      exact middleNamed)
    have unchanged := head.grows.bodiesOf consistent named (Nat.not_le.mpr inRange)
    refine ⟨body :: bodies, ?_, ?_⟩
    · rw [added, bodiesOf_addProduction body middleNamed, if_pos rfl, unchanged,
        List.append_assoc, List.singleton_append]
    · intro plain settled
      refine .cons (head.realized plain ?_) (each plain (settled.later (by omega)))
      apply settled.restrict (Nat.le_refl _) rest (head.grows.consistent consistent)
      rintro other above below (same | beyond)
      · omega
      · omega

theorem flattened_alternative {items : List Rule} (declares : Declares before id name declared)
    (branches : Branched source declared id items after) :
    Flattened source before (.alternative items) [.nonTerminal name] after := by
  have position := declares.position
  have size := declares.size
  have named := branches.grows.nameOf? declares.named
  refine ⟨?_, ?_, ?_⟩
  · refine .head (declares.step _) (branches.grows.mono ?_)
    rintro other (same | above)
    · omega
    · omega
  · exact covers_single (PlainGrammar.mem_names_iff.mpr ⟨id, named⟩)
  · intro plain settled
    obtain ⟨bodies, added, each⟩ := branches.realized name declares.named
    rw [declares.unused, List.nil_append] at added
    refine .alternative ?_
    rw [settled id name (by omega) named, added]
    exact each plain (settled.later (by omega))

theorem operator_settled {inner : Rule} {body head : List Symbol}
    (declares : Declares before id name declared)
    (inside : Flattened source declared inner body middle) (covered : middle.Covers head)
    (done : after = (middle.addProduction id head).addProduction id []) :
    Grows (before.nonTerminals.size ≤ ·) before after ∧ after.Covers [.nonTerminal name] ∧
      ∀ plain, Settled before after plain →
        plain.bodiesOf name = [head, []] ∧ Realizes source plain inner body := by
  subst done
  have position := declares.position
  have size := declares.size
  have later := inside.grows.size_le
  have named := inside.grows.nameOf? declares.named
  have rest : Grows (· = id) middle
      ((middle.addProduction id head).addProduction id []) := by
    refine .tail (.single (.produce rfl (by omega) covered)) (.produce rfl ?_ covers_nil)
    rw [size_addProduction]
    omega
  refine ⟨?_, ?_, ?_⟩
  · refine .head (declares.step _) (.trans (inside.grows.mono ?_) (rest.mono ?_))
    · intro other above
      omega
    · intro other same
      omega
  · exact covers_single (PlainGrammar.mem_names_iff.mpr ⟨id, rest.nameOf? named⟩)
  · intro plain settled
    constructor
    · have bodies := inside.grows.bodiesOf declares.consistent declares.named (by omega)
      rw [settled id name (by omega) (rest.nameOf? named),
        bodiesOf_addProduction [] ((nameOf?_addProduction _ _ _).trans named),
        bodiesOf_addProduction head named, bodies, declares.unused, if_pos rfl, if_pos rfl]
      rfl
    · refine inside.realized plain (settled.restrict (by omega) rest
        (inside.grows.consistent declares.consistent) ?_)
      intro other above _ same
      omega

theorem flattened_optional {inner : Rule} {body : List Symbol}
    (declares : Declares before id name declared)
    (inside : Flattened source declared inner body middle) :
    Flattened source before (.optional inner) [.nonTerminal name]
      ((middle.addProduction id body).addProduction id []) := by
  obtain ⟨grows, covered, settles⟩ := operator_settled declares inside inside.covered rfl
  refine ⟨grows, covered, fun plain settled => ?_⟩
  obtain ⟨branches, once⟩ := settles plain settled
  exact .optional branches once

theorem flattened_zeroOrMore {inner : Rule} {body : List Symbol}
    (declares : Declares before id name declared)
    (inside : Flattened source declared inner body middle) :
    Flattened source before (.zeroOrMore inner) [.nonTerminal name]
      ((middle.addProduction id (body ++ [.nonTerminal name])).addProduction id []) := by
  have known := PlainGrammar.mem_names_iff.mpr ⟨id, inside.grows.nameOf? declares.named⟩
  obtain ⟨grows, covered, settles⟩ := operator_settled declares inside
    (covers_append inside.covered (covers_single known)) rfl
  refine ⟨grows, covered, fun plain settled => ?_⟩
  obtain ⟨branches, once⟩ := settles plain settled
  exact .zeroOrMore branches once

theorem bodiesOf_oneOrMore (step : List Symbol) (different : name ≠ tail)
    (named : middle.grammar.nameOf? id = some name)
    (tailNamed : middle.grammar.nameOf? tailId = some tail)
    (unused : middle.grammar.bodiesOf name = []) (tailUnused : middle.grammar.bodiesOf tail = [])
    (done : after = ((middle.addProduction id step).addProduction tailId step).addProduction
      tailId []) :
    after.grammar.bodiesOf name = [step] ∧ after.grammar.bodiesOf tail = [step, []] := by
  subst done
  have once := (nameOf?_addProduction id step tailId).trans tailNamed
  have twice := (nameOf?_addProduction tailId step tailId).trans once
  constructor
  · rw [bodiesOf_addProduction [] twice, bodiesOf_addProduction step once,
      bodiesOf_addProduction step named, unused, if_pos rfl, if_neg different.symm,
      if_neg different.symm]
    rfl
  · rw [bodiesOf_addProduction [] twice, bodiesOf_addProduction step once,
      bodiesOf_addProduction step named, tailUnused, if_neg different, if_pos rfl, if_pos rfl]
    rfl

theorem flattened_oneOrMore {inner : Rule} {body : List Symbol}
    (declares : Declares before id name declared) (tails : Declares declared tailId tail twice)
    (inside : Flattened source twice inner body middle) :
    Flattened source before (.oneOrMore inner) [.nonTerminal name]
      (((middle.addProduction id (body ++ [.nonTerminal tail])).addProduction tailId
        (body ++ [.nonTerminal tail])).addProduction tailId []) := by
  have position := declares.position
  have tailPosition := tails.position
  have size := declares.size
  have tailSize := tails.size
  have later := inside.grows.size_le
  have consistent := inside.grows.consistent tails.consistent
  have twiceNamed := (tails.step (fun _ => False)).nameOf? declares.named
  have named := inside.grows.nameOf? twiceNamed
  have tailNamed := inside.grows.nameOf? tails.named
  have covered := covers_append inside.covered
    (covers_single (PlainGrammar.mem_names_iff.mpr ⟨tailId, tailNamed⟩))
  have different : name ≠ tail := by
    intro same
    rw [same] at named
    have := consistent.nameOf?_inj named tailNamed
    omega
  have rest : Grows (fun other => other = id ∨ other = tailId) middle
      (((middle.addProduction id (body ++ [.nonTerminal tail])).addProduction tailId
        (body ++ [.nonTerminal tail])).addProduction tailId []) := by
    refine .tail (.tail (.single (.produce (Or.inl rfl) (by omega) covered))
      (.produce (Or.inr rfl) ?_ ?_)) (.produce (Or.inr rfl) ?_ covers_nil)
    · rw [size_addProduction]
      omega
    · rw [Covers, names_addProduction]
      exact covered
    · rw [size_addProduction, size_addProduction]
      omega
  have unused : middle.grammar.bodiesOf name = [] := by
    rw [inside.grows.bodiesOf tails.consistent twiceNamed (by omega),
      (tails.step (fun _ => False)).bodiesOf declares.consistent declares.named not_false,
      declares.unused]
  have tailUnused : middle.grammar.bodiesOf tail = [] := by
    rw [inside.grows.bodiesOf tails.consistent tails.named (by omega), tails.unused]
  have bodies := bodiesOf_oneOrMore (body ++ [.nonTerminal tail]) different named tailNamed
    unused tailUnused rfl
  refine ⟨?_, ?_, ?_⟩
  · refine .head (declares.step _) (.head (tails.step _)
      (.trans (inside.grows.mono ?_) (rest.mono ?_)))
    · intro other above
      omega
    · rintro other (same | same)
      · omega
      · omega
  · exact covers_single (PlainGrammar.mem_names_iff.mpr ⟨id, rest.nameOf? named⟩)
  · intro plain settled
    have branches := (settled id name (by omega) (rest.nameOf? named)).trans bodies.1
    have tailBranches := (settled tailId tail (by omega) (rest.nameOf? tailNamed)).trans bodies.2
    refine .oneOrMore branches tailBranches (inside.realized plain
      (settled.restrict (by omega) rest consistent ?_))
    rintro other above _ (same | same)
    · omega
    · omega

/-! ### Whole rule bodies -/

mutual

theorem flatten_flattened (owner : String) (before : Lowering) (rule : Rule)
    (consistent : before.grammar.Consistent) (declared : ∀ name ∈ source.names, name ∈ before.names)
    (closed : ∀ name, .nonTerminal name ∈ rule.symbols → name ∈ source.names) :
    Flattened source before rule (flatten owner before rule).1 (flatten owner before rule).2 := by
  have fresh := fresh_declares consistent owner
  have declaredFresh : ∀ name ∈ source.names, name ∈ (before.fresh owner).2.names :=
    fun name member =>
      (Grows.mem_names (.single (fresh.step (fun _ => False)))) (declared name member)
  match rule with
  | .terminal name =>
      refine ⟨.refl, ?_, fun _ _ => .terminal name⟩
      intro other inside
      cases List.mem_singleton.mp inside
  | .nonTerminal name =>
      have known := closed name (List.mem_singleton_self _)
      exact ⟨.refl, covers_single (declared name known), fun _ _ => .nonTerminal known⟩
  | .sequence items => exact flattenAll_flattened owner before items consistent declared closed
  | .alternative items =>
      have position := fresh.position
      have size := fresh.size
      exact flattened_alternative fresh (addBranches_branched owner _ _ items fresh.consistent
        (by omega) declaredFresh closed)
  | .optional inner =>
      exact flattened_optional fresh
        (flatten_flattened owner _ inner fresh.consistent declaredFresh closed)
  | .zeroOrMore inner =>
      exact flattened_zeroOrMore fresh
        (flatten_flattened owner _ inner fresh.consistent declaredFresh closed)
  | .oneOrMore inner =>
      have tails := fresh_declares fresh.consistent owner
      exact flattened_oneOrMore fresh tails (flatten_flattened owner _ inner tails.consistent
        (fun name member => Grows.mem_names (.single (tails.step (fun _ => False)))
          (declaredFresh name member)) closed)

theorem flattenAll_flattened (owner : String) (before : Lowering) (items : List Rule)
    (consistent : before.grammar.Consistent) (declared : ∀ name ∈ source.names, name ∈ before.names)
    (closed : ∀ name, .nonTerminal name ∈ Rule.symbolsOfAll items → name ∈ source.names) :
    Flattened source before (.sequence items) (flattenAll owner before items).1
      (flattenAll owner before items).2 := by
  match items with
  | [] => exact flattened_nil
  | item :: rest =>
      have first := flatten_flattened owner before item consistent declared
        fun name inside => closed name (List.mem_append_left _ inside)
      exact flattened_cons consistent first (flattenAll_flattened owner _ rest
        (first.grows.consistent consistent)
        (fun name member => first.grows.mem_names (declared name member))
        fun name inside => closed name (List.mem_append_right _ inside))

theorem addBranches_branched (owner : String) (id : Nat) (before : Lowering) (items : List Rule)
    (consistent : before.grammar.Consistent) (inRange : id < before.nonTerminals.size)
    (declared : ∀ name ∈ source.names, name ∈ before.names)
    (closed : ∀ name, .nonTerminal name ∈ Rule.symbolsOfAll items → name ∈ source.names) :
    Branched source before id items (addBranches owner id before items) := by
  match items with
  | [] => exact branched_nil
  | item :: rest =>
      have first := flatten_flattened owner before item consistent declared
        fun name inside => closed name (List.mem_append_left _ inside)
      have later := first.grows.size_le
      refine branched_cons consistent inRange first (addBranches_branched owner id _ rest
        (consistent_addProduction (first.grows.consistent consistent) (by omega) first.covered)
        ?_ ?_ fun name inside => closed name (List.mem_append_right _ inside))
      · rw [size_addProduction]
        omega
      · intro name member
        rw [names_addProduction]
        exact first.grows.mem_names (declared name member)

end

/-! ### Whole grammars -/

structure Pending (id : Nat) (rules : List (String × Rule)) (before : Lowering) : Prop where
  named : ∀ offset name rule, rules[offset]? = some (name, rule) →
    before.grammar.nameOf? (id + offset) = some name
  unused : ∀ name rule, (name, rule) ∈ rules → before.grammar.bodiesOf name = []
  inRange : id + rules.length ≤ before.nonTerminals.size

/-- What lowering the rules from `id` on may touch: their own non-terminals and new
ones. -/
def MayTouch (id count : Nat) (before : Lowering) (other : Nat) : Prop :=
  id ≤ other ∧ other < id + count ∨ before.nonTerminals.size ≤ other

theorem symbolsOfAll_topBranches (rule : Rule) :
    Rule.symbolsOfAll (topBranches rule) = rule.symbols := by
  cases rule with
  | alternative items => rfl
  | _ => simp only [topBranches, Rule.symbolsOfAll, List.append_nil]

theorem Pending.advance {name : String} {rule : Rule} {rest : List (String × Rule)}
    (pending : Pending id ((name, rule) :: rest) before) (consistent : before.grammar.Consistent)
    (branches : Branched source before id (topBranches rule) after) :
    Pending (id + 1) rest after where
  named := by
    intro offset other body found
    rw [Nat.add_assoc, Nat.add_comm 1 offset]
    exact branches.grows.nameOf? (pending.named (offset + 1) other body found)
  unused := by
    intro other body member
    obtain ⟨offset, found⟩ := List.getElem?_of_mem member
    have inRange := pending.inRange
    have bound := (List.getElem?_eq_some_iff.mp found).1
    rw [List.length_cons] at inRange
    rw [branches.grows.bodiesOf consistent (pending.named (offset + 1) other body found) (by omega)]
    exact pending.unused other body (List.mem_cons_of_mem _ member)
  inRange := by
    have inRange := pending.inRange
    have later := branches.grows.size_le
    rw [List.length_cons] at inRange
    omega

theorem restart_branched (owner : String) (id : Nat) (rule : Rule)
    (consistent : before.grammar.Consistent)
    (inRange : id < before.nonTerminals.size)
    (declared : ∀ name ∈ source.names, name ∈ before.names)
    (closed : ∀ name, .nonTerminal name ∈ rule.symbols → name ∈ source.names) :
    Branched source before id (topBranches rule)
      (addBranches owner id { before with suffix := 1 } (topBranches rule)) := by
  have restart : Step (fun _ => False) before { before with suffix := 1 } := .restart 1
  have branches := addBranches_branched owner id { before with suffix := 1 } (topBranches rule)
    (restart.consistent consistent) inRange declared (by
      rw [symbolsOfAll_topBranches]
      exact closed)
  exact ⟨.head (.restart 1) branches.grows, branches.realized⟩

theorem addRules_grows (id : Nat) (before : Lowering) (rules : List (String × Rule))
    (consistent : before.grammar.Consistent) (pending : Pending id rules before)
    (declared : ∀ name ∈ source.names, name ∈ before.names)
    (closed : ∀ entry ∈ rules, ∀ name, .nonTerminal name ∈ entry.2.symbols → name ∈ source.names) :
    Grows (MayTouch id rules.length before) before (addRules id before rules) := by
  induction rules generalizing id before with
  | nil => exact .refl
  | cons head rest ih =>
      obtain ⟨name, rule⟩ := head
      have inRange := pending.inRange
      rw [List.length_cons] at inRange
      have branches := restart_branched name id rule consistent (by omega) declared
        (closed (name, rule) List.mem_cons_self)
      have later := branches.grows.size_le
      have grows := ih (id + 1) _ (branches.grows.consistent consistent)
        (pending.advance consistent branches)
        (fun other member => branches.grows.mem_names (declared other member))
        (fun entry member => closed entry (List.mem_cons_of_mem _ member))
      rw [List.length_cons]
      refine .trans (branches.grows.mono ?_) (grows.mono ?_)
      · rintro other (same | above)
        · exact Or.inl (by omega)
        · exact Or.inr above
      · rintro other (within | above)
        · exact Or.inl (by omega)
        · exact Or.inr (Nat.le_trans later above)

theorem addRules_realizes (id : Nat) (before : Lowering) (rules : List (String × Rule))
    (consistent : before.grammar.Consistent) (pending : Pending id rules before)
    (declared : ∀ name ∈ source.names, name ∈ before.names)
    (closed : ∀ entry ∈ rules, ∀ name, .nonTerminal name ∈ entry.2.symbols → name ∈ source.names)
    (final : ∀ name, plain.bodiesOf name = (addRules id before rules).grammar.bodiesOf name) :
    ∀ entry ∈ rules, RealizesEach source plain (topBranches entry.2) (plain.bodiesOf entry.1) := by
  induction rules generalizing id before with
  | nil => exact fun _ member => absurd member List.not_mem_nil
  | cons head rest ih =>
      obtain ⟨name, rule⟩ := head
      have inRange := pending.inRange
      rw [List.length_cons] at inRange
      have branches := restart_branched name id rule consistent (by omega) declared
        (closed (name, rule) List.mem_cons_self)
      have later := branches.grows.size_le
      have afterConsistent := branches.grows.consistent consistent
      have afterPending := pending.advance consistent branches
      have afterDeclared : ∀ other ∈ source.names, other ∈ Lowering.names _ :=
        fun other member => branches.grows.mem_names (declared other member)
      have afterClosed := fun entry member => closed entry (List.mem_cons_of_mem _ member)
      have grows := addRules_grows (id + 1) _ rest afterConsistent afterPending afterDeclared
        afterClosed
      have kept : ∀ other otherName, other = id ∨ before.nonTerminals.size ≤ other →
          (addBranches name id { before with suffix := 1 }
            (topBranches rule)).grammar.nameOf? other = some otherName →
          plain.bodiesOf otherName = (addBranches name id { before with suffix := 1 }
            (topBranches rule)).grammar.bodiesOf otherName := by
        intro other otherName place named
        have below : other < Array.size _ := PlainGrammar.lt_size_of_nameOf? named
        refine (final otherName).trans (grows.bodiesOf afterConsistent named ?_)
        rintro (within | beyond)
        · omega
        · exact absurd below (Nat.not_lt.mpr beyond)
      intro entry member
      rcases List.mem_cons.mp member with rfl | inRest
      · have named := pending.named 0 name rule rfl
        obtain ⟨bodies, added, each⟩ := branches.realized name named
        rw [pending.unused name rule List.mem_cons_self, List.nil_append] at added
        have here := kept id name (Or.inl rfl) (branches.grows.nameOf? named)
        change RealizesEach source plain (topBranches rule) (plain.bodiesOf name)
        rw [here, added]
        exact each plain fun other otherName above => kept other otherName (Or.inr above)
      · exact ih (id + 1) _ afterConsistent afterPending afterDeclared afterClosed final entry
          inRest

theorem declareAll_spec (names : List String) (before : Lowering)
    (consistent : before.grammar.Consistent) (distinct : names.Nodup)
    (free : ∀ name ∈ names, name ∉ before.names) :
    (before.declareAll names).grammar.Consistent ∧
      (before.declareAll names).names = before.names ++ names ∧
      (before.declareAll names).productions = before.productions := by
  induction names generalizing before with
  | nil => exact ⟨consistent, (List.append_nil _).symm, rfl⟩
  | cons name rest ih =>
      have parts := List.nodup_cons.mp distinct
      have names := names_declare before name false before.suffix
      obtain ⟨restConsistent, restNames, productions⟩ := ih (before.declare name false)
        (consistent_declare false before.suffix consistent (free name List.mem_cons_self)) parts.2
        (by
          intro other member
          change other ∉ Lowering.names { before.declare name false with suffix := before.suffix }
          rw [names, List.mem_append, List.mem_singleton]
          rintro (old | rfl)
          · exact free other (List.mem_cons_of_mem _ member) old
          · exact parts.1 member)
      refine ⟨restConsistent, ?_, productions⟩
      have split : (before.declareAll (name :: rest)).names =
          Lowering.names (before.declare name false) ++ rest := restNames
      have declared : Lowering.names (before.declare name false) = before.names ++ [name] := names
      rw [split, declared, List.append_assoc, List.singleton_append]

theorem consistent_empty : empty.grammar.Consistent :=
  ⟨List.nodup_nil, fun named => (by cases named),
    fun _ member => absurd member (Array.not_mem_empty _),
    fun _ member => absurd member (Array.not_mem_empty _)⟩

end Lowering

namespace Grammar

variable (source : Grammar)

def declared : Lowering := Lowering.empty.declareAll source.names

def lowered : Lowering := Lowering.addRules 0 source.declared source.rules

theorem declared_spec :
    source.declared.grammar.Consistent ∧ source.declared.names = source.names ∧
      source.declared.productions = #[] :=
  Lowering.declareAll_spec source.names Lowering.empty Lowering.consistent_empty source.distinct
    fun _ _ => List.not_mem_nil

theorem pending_declared : Lowering.Pending 0 source.rules source.declared := by
  obtain ⟨-, names, productions⟩ := source.declared_spec
  refine ⟨?_, ?_, ?_⟩
  · intro offset name rule found
    rw [Nat.zero_add, ← PlainGrammar.names_getElem?]
    change source.declared.names[offset]? = some name
    rw [names, Grammar.names, List.getElem?_map, found]
    rfl
  · intro name rule member
    rw [List.eq_nil_iff_forall_not_mem]
    intro rhs inside
    have present := PlainGrammar.mem_bodiesOf.mp inside
    change _ ∈ source.declared.productions at present
    rw [productions] at present
    exact absurd present (Array.not_mem_empty _)
  · have sizes := congrArg List.length names
    simp only [Lowering.names, PlainGrammar.names, Grammar.names, Lowering.grammar,
      List.length_map, Array.length_toList] at sizes
    omega

theorem mem_declared {name : String} (member : name ∈ source.names) :
    name ∈ source.declared.names := by
  rw [source.declared_spec.2.1]
  exact member

theorem symbols_closed (entry : String × Rule) (member : entry ∈ source.rules) (name : String)
    (inside : .nonTerminal name ∈ entry.2.symbols) : name ∈ source.names :=
  source.closed entry member name (List.mem_filterMap.mpr ⟨.nonTerminal name, inside, rfl⟩)

theorem lowered_grows :
    Lowering.Grows (Lowering.MayTouch 0 source.rules.length source.declared) source.declared
      source.lowered :=
  Lowering.addRules_grows 0 source.declared source.rules source.declared_spec.1
    source.pending_declared (fun _ => source.mem_declared) source.symbols_closed

theorem lower_consistent : source.lower.Consistent := by
  have consistent := source.lowered_grows.consistent source.declared_spec.1
  exact ⟨consistent.distinct, consistent.listed, consistent.owned, consistent.closed⟩

theorem lower_listsInOrder : source.lower.ListsInOrder := by
  obtain ⟨consistent, -, productions⟩ := source.declared_spec
  refine source.lowered_grows.listsInOrder consistent fun id => ?_
  have none : source.declared.grammar.productionIds id = [] := by
    rw [List.eq_nil_iff_forall_not_mem]
    intro number member
    have inRange := Lowering.lt_size_of_mem_productionIds consistent member
    rw [productions] at inRange
    exact Nat.not_lt_zero _ inRange
  rw [none]
  exact List.Pairwise.nil

/-- Every rule is realized by the productions of its name. -/
theorem lower_realizes (entry : String × Rule) (member : entry ∈ source.rules) :
    RealizesEach source source.lower (Lowering.topBranches entry.2)
      (source.lower.bodiesOf entry.1) := by
  have final : ∀ name, source.lower.bodiesOf name = source.lowered.grammar.bodiesOf name :=
    fun _ => rfl
  exact Lowering.addRules_realizes 0 source.declared source.rules source.declared_spec.1
    source.pending_declared (fun _ => source.mem_declared) source.symbols_closed final entry member

theorem nameOf?_lower {id : Nat} {name : String} (found : source.names[id]? = some name) :
    source.lower.nameOf? id = some name := by
  apply source.lowered_grows.nameOf?
  rw [← PlainGrammar.names_getElem?]
  change source.declared.names[id]? = some name
  rw [source.declared_spec.2.1, found]

theorem nameOf?_lower_start : source.lower.nameOf? source.lower.start = some source.start := by
  obtain ⟨id, found⟩ : ∃ id, source.position? source.start = some id := by
    obtain ⟨entry, member, same⟩ := List.mem_map.mp source.startDefined
    exact ⟨_, List.findIdx?_eq_some_of_exists ⟨entry, member, beq_iff_eq.mpr same⟩⟩
  change source.lower.nameOf? ((source.position? source.start).getD 0) = some source.start
  rw [found, Option.getD_some]
  obtain ⟨bound, same, -⟩ := List.findIdx?_eq_some_iff_getElem.mp found
  refine source.nameOf?_lower ?_
  rw [names, List.getElem?_map, List.getElem?_eq_getElem bound, Option.map_some, eq_of_beq same]

theorem startName_lower : source.lower.startName = source.start := by
  rw [PlainGrammar.startName, PlainGrammar.nameOf, source.nameOf?_lower_start, Option.getD_some]

end Grammar

end Predictive
