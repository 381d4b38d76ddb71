/-
The FIRST sets are exact. Which terminals begin a string of symbols, and whether
it vanishes, is said by the productions alone; every set on the way holds only
such terminals, and the sets that a pass does not change hold all of them.
-/

import Predictive.Proofs.Grammar.Fixpoint
import Predictive.Proofs.Grammar.Growth

namespace Predictive

namespace PlainGrammar

/-- Every symbol of the string is a non-terminal that derives the empty string. -/
inductive Vanishes (grammar : PlainGrammar) : List Symbol → Prop where
  | nil : Vanishes grammar []
  | cons {name : String} {rhs rest : List Symbol} (member : ⟨name, rhs⟩ ∈ grammar.productions)
      (inner : Vanishes grammar rhs) (others : Vanishes grammar rest) :
      Vanishes grammar (.nonTerminal name :: rest)

/-- The string derives one that begins with a token of this kind. -/
inductive Begins (grammar : PlainGrammar) (kind : String) : List Symbol → Prop where
  | here (rest : List Symbol) : Begins grammar kind (.terminal kind :: rest)
  | inside {name : String} {rhs : List Symbol} (rest : List Symbol)
      (member : ⟨name, rhs⟩ ∈ grammar.productions) (inner : Begins grammar kind rhs) :
      Begins grammar kind (.nonTerminal name :: rest)
  | behind {name : String} {rest : List Symbol} (empty : Vanishes grammar [.nonTerminal name])
      (later : Begins grammar kind rest) : Begins grammar kind (.nonTerminal name :: rest)

variable {grammar : PlainGrammar} {kind : String}

namespace Vanishes

theorem append {left right : List Symbol} (inLeft : grammar.Vanishes left)
    (inRight : grammar.Vanishes right) : grammar.Vanishes (left ++ right) := by
  induction inLeft with
  | nil => exact inRight
  | cons member inner others _ ih => exact .cons member inner ih

theorem left {left right : List Symbol} (whole : grammar.Vanishes (left ++ right)) :
    grammar.Vanishes left := by
  induction left with
  | nil => exact .nil
  | cons symbol rest ih =>
      cases whole with
      | cons member inner others => exact .cons member inner (ih others)

theorem right {left right : List Symbol} (whole : grammar.Vanishes (left ++ right)) :
    grammar.Vanishes right := by
  induction left with
  | nil => exact whole
  | cons symbol rest ih =>
      cases whole with
      | cons member inner others => exact ih others

theorem tail {symbol : Symbol} {rest : List Symbol} (whole : grammar.Vanishes (symbol :: rest)) :
    grammar.Vanishes rest := by
  cases whole with
  | cons member inner others => exact others

theorem production {name : String} {rest : List Symbol}
    (whole : grammar.Vanishes (.nonTerminal name :: rest)) :
    ∃ rhs, ⟨name, rhs⟩ ∈ grammar.productions ∧ grammar.Vanishes rhs := by
  cases whole with
  | cons member inner others => exact ⟨_, member, inner⟩

end Vanishes

namespace Begins

theorem append {symbols : List Symbol} (begins : grammar.Begins kind symbols)
    (rest : List Symbol) : grammar.Begins kind (symbols ++ rest) := by
  induction begins with
  | here others => exact .here _
  | inside others member inner ih => exact .inside _ member inner
  | behind empty later ih => exact .behind empty ih

theorem behind_vanishing {left right : List Symbol} (empty : grammar.Vanishes left)
    (later : grammar.Begins kind right) : grammar.Begins kind (left ++ right) := by
  induction empty with
  | nil => exact later
  | cons member inner others _ ih => exact .behind (.cons member inner .nil) ih

theorem production {name : String} (begins : grammar.Begins kind [.nonTerminal name]) :
    ∃ rhs, ⟨name, rhs⟩ ∈ grammar.productions ∧ grammar.Begins kind rhs := by
  cases begins with
  | inside rest member inner => exact ⟨_, member, inner⟩
  | behind empty later => cases later

theorem mem_terminals {symbols : List Symbol} (begins : grammar.Begins kind symbols) :
    .terminal kind ∈ symbols ∨ kind ∈ grammar.terminals := by
  induction begins with
  | here rest => exact Or.inl List.mem_cons_self
  | inside rest member inner ih =>
      rcases ih with inRhs | known
      · refine Or.inr (List.mem_filterMap.mpr ⟨.terminal kind, ?_, rfl⟩)
        exact List.mem_flatMap.mpr ⟨_, Array.mem_toList_iff.mpr member, inRhs⟩
      · exact Or.inr known
  | behind empty later ih =>
      exact ih.imp (List.mem_cons_of_mem _) id

end Begins

end PlainGrammar

namespace FirstSets

variable {grammar : PlainGrammar} {first : FirstSets}

structure Sound (grammar : PlainGrammar) (first : FirstSets) : Prop where
  names : first.sets.toList.map FirstSet.name = grammar.names
  ascending : ∀ set ∈ first.sets, OrderedSet.Ascending set.terminals
  begins : ∀ set ∈ first.sets, ∀ kind ∈ set.terminals,
    grammar.Begins kind [.nonTerminal set.name]
  vanishes : ∀ set ∈ first.sets, set.nullable = true → grammar.Vanishes [.nonTerminal set.name]

theorem mem_of_find? {name : String} {set : FirstSet} (found : first.find? name = some set) :
    set ∈ first.sets ∧ set.name = name := by
  unfold find? at found
  have same := Array.find?_some found
  exact ⟨Array.mem_of_find?_eq_some found, eq_of_beq same⟩

namespace Sound

theorem begins_ofName (sound : first.Sound grammar) {name kind : String}
    (member : kind ∈ first.ofName name) : grammar.Begins kind [.nonTerminal name] := by
  unfold ofName at member
  split at member
  case h_1 set found =>
    obtain ⟨inSets, rfl⟩ := mem_of_find? found
    exact sound.begins set inSets kind member
  case h_2 => cases member

theorem vanishes_of_isNullable (sound : first.Sound grammar) {name : String}
    (nullable : first.isNullable name = true) : grammar.Vanishes [.nonTerminal name] := by
  unfold isNullable at nullable
  split at nullable
  case h_1 set found =>
    obtain ⟨inSets, rfl⟩ := mem_of_find? found
    exact sound.vanishes set inSets nullable
  case h_2 => cases nullable

theorem vanishes_ofSymbols (sound : first.Sound grammar) {symbols : List Symbol}
    (nullable : (first.ofSymbols symbols).2 = true) : grammar.Vanishes symbols := by
  induction symbols with
  | nil => exact .nil
  | cons symbol rest ih =>
      cases symbol with
      | terminal name => cases nullable
      | nonTerminal name =>
          unfold ofSymbols at nullable
          split at nullable
          case isTrue here =>
            exact (sound.vanishes_of_isNullable here).append (ih nullable)
          case isFalse => cases nullable

theorem ascending_ofName (sound : first.Sound grammar) (name : String) :
    OrderedSet.Ascending (first.ofName name) := by
  unfold ofName
  split
  case h_1 set found => exact sound.ascending set (mem_of_find? found).1
  case h_2 => exact List.Pairwise.nil

theorem ascending_ofSymbols (sound : first.Sound grammar) (symbols : List Symbol) :
    OrderedSet.Ascending (first.ofSymbols symbols).1 := by
  cases symbols with
  | nil => exact List.Pairwise.nil
  | cons symbol rest =>
      cases symbol with
      | terminal name => exact List.pairwise_singleton _ _
      | nonTerminal name =>
          unfold ofSymbols
          split
          case isTrue => exact OrderedSet.ascending_insertAll (sound.ascending_ofName name)
          case isFalse => exact sound.ascending_ofName name

theorem begins_ofSymbols (sound : first.Sound grammar) {symbols : List Symbol} {kind : String}
    (member : kind ∈ (first.ofSymbols symbols).1) : grammar.Begins kind symbols := by
  induction symbols with
  | nil => cases member
  | cons symbol rest ih =>
      cases symbol with
      | terminal name =>
          cases List.mem_singleton.mp member
          exact .here rest
      | nonTerminal name =>
          unfold ofSymbols at member
          split at member
          case isTrue here =>
            rcases OrderedSet.mem_insertAll.mp member with own | later
            · exact (sound.begins_ofName own).append rest
            · exact .behind (sound.vanishes_of_isNullable here) (ih later)
          case isFalse => exact (sound.begins_ofName member).append rest

end Sound

/-! ### One production -/

theorem Sound.name_of_getElem? (sound : first.Sound grammar) {id : Nat} {name : String}
    {set : FirstSet} (named : grammar.nameOf? id = some name) (found : first.sets[id]? = some set) :
    set.name = name := by
  rw [← PlainGrammar.names_getElem?, ← sound.names, List.getElem?_map, Array.getElem?_toList,
    found] at named
  exact Option.some.inj named

/-- What a production adds to the set of its non-terminal. -/
def learn (first : FirstSets) (rhs : List Symbol) (set : FirstSet) : FirstSet :=
  { set with
    terminals := OrderedSet.insertAll set.terminals (first.ofSymbols rhs).1
    nullable := set.nullable || (first.ofSymbols rhs).2 }

theorem sets_absorb (first : FirstSets) (id : Nat) (rhs : List Symbol) :
    (first.absorb id rhs).sets = first.sets.modify id (first.learn rhs) := rfl

theorem mem_absorb {id : Nat} {rhs : List Symbol} {set : FirstSet}
    (member : set ∈ (first.absorb id rhs).sets) :
    set ∈ first.sets ∨ ∃ old, first.sets[id]? = some old ∧ set = first.learn rhs old :=
  mem_of_mem_modify (sets_absorb first id rhs ▸ member)

theorem absorb_sound (sound : first.Sound grammar) {id : Nat} {name : String} {rhs : List Symbol}
    (named : grammar.nameOf? id = some name) (member : ⟨name, rhs⟩ ∈ grammar.productions) :
    (first.absorb id rhs).Sound grammar := by
  refine ⟨?_, ?_, ?_, ?_⟩
  · rw [← sound.names]
    apply List.ext_getElem?
    intro index
    simp only [sets_absorb, List.getElem?_map, Array.getElem?_toList, Array.getElem?_modify]
    split
    · rw [Option.map_map]
      rfl
    · rfl
  · intro set inSets
    rcases mem_absorb inSets with old | ⟨old, found, rfl⟩
    · exact sound.ascending set old
    · exact OrderedSet.ascending_insertAll (sound.ascending old (Array.mem_of_getElem? found))
  · intro set inSets kind inSet
    rcases mem_absorb inSets with old | ⟨old, found, rfl⟩
    · exact sound.begins set old kind inSet
    · rcases OrderedSet.mem_insertAll.mp inSet with known | new
      · exact sound.begins old (Array.mem_of_getElem? found) kind known
      · change grammar.Begins kind [.nonTerminal old.name]
        rw [sound.name_of_getElem? named found]
        exact .inside [] member (sound.begins_ofSymbols new)
  · intro set inSets nullable
    rcases mem_absorb inSets with old | ⟨old, found, rfl⟩
    · exact sound.vanishes set old nullable
    · rcases Bool.or_eq_true_iff.mp nullable with known | new
      · exact sound.vanishes old (Array.mem_of_getElem? found) known
      · change grammar.Vanishes [.nonTerminal old.name]
        rw [sound.name_of_getElem? named found]
        exact .cons member (sound.vanishes_ofSymbols new) .nil

def heft (set : FirstSet) : Nat := set.terminals.length + set.nullable.toNat

def weight (first : FirstSets) : Nat := (first.sets.toList.map heft).sum

theorem learn_eq_or_heft_lt (first : FirstSets) (rhs : List Symbol) {set : FirstSet}
    (ascending : OrderedSet.Ascending set.terminals) :
    first.learn rhs set = set ∨ heft set < heft (first.learn rhs set) := by
  obtain ⟨name, terminals, nullable⟩ := set
  have longer := @OrderedSet.insertAll_eq_or_length_lt _ _ _ _ terminals (first.ofSymbols rhs).1
    ascending
  simp only [learn, heft, FirstSet.mk.injEq, true_and]
  cases nullable <;> cases (first.ofSymbols rhs).2 <;> grind

theorem absorb_inflates {id : Nat} {name : String} {rhs : List Symbol}
    (named : grammar.nameOf? id = some name) (member : ⟨name, rhs⟩ ∈ grammar.productions) :
    Inflates (Sound grammar) weight fun first => first.absorb id rhs where
  keeps := fun sound => absorb_sound sound named member
  grows := by
    intro first sound
    have whole := modify_eq_or_sum_lt first.sets id fun set inSets =>
      learn_eq_or_heft_lt first rhs (sound.ascending set inSets)
    exact whole.imp (congrArg FirstSets.mk) fun heavier => heavier

/-! ### All productions -/

theorem mem_visits_iff (consistent : grammar.Consistent) {id : Nat} {rhs : List Symbol} :
    (id, rhs) ∈ visits grammar ↔
      ∃ name, grammar.nameOf? id = some name ∧ ⟨name, rhs⟩ ∈ grammar.productions := by
  simp only [visits, List.mem_flatMap, List.mem_range, List.mem_map, Prod.mk.injEq]
  constructor
  · rintro ⟨place, inRange, number, listed, rfl, rfl⟩
    have named := PlainGrammar.nameOf?_of_lt grammar inRange
    obtain ⟨rhs, found⟩ := (consistent.listed named number).mp listed
    refine ⟨_, named, ?_⟩
    rw [PlainGrammar.production, Array.getD_eq_getD_getElem?, found]
    exact Array.mem_of_getElem? found
  · rintro ⟨name, named, member⟩
    obtain ⟨number, found⟩ := Array.mem_iff_getElem?.mp member
    refine ⟨id, PlainGrammar.lt_size_of_nameOf? named, number,
      (consistent.listed named number).mpr ⟨rhs, found⟩, rfl, ?_⟩
    rw [PlainGrammar.production, Array.getD_eq_getD_getElem?, found]
    rfl

theorem visit_inflates (consistent : grammar.Consistent) (visit : Nat × List Symbol)
    (member : visit ∈ visits grammar) :
    Inflates (Sound grammar) weight fun first => first.absorb visit.1 visit.2 := by
  obtain ⟨name, named, production⟩ := (mem_visits_iff consistent).mp member
  exact absorb_inflates named production

theorem pass_inflates (consistent : grammar.Consistent) :
    Inflates (Sound grammar) weight (pass grammar) :=
  Inflates.foldl (visits grammar) (visit_inflates consistent)

theorem initial_sound (grammar : PlainGrammar) : (initial grammar).Sound grammar := by
  have blank : ∀ set ∈ (initial grammar).sets, set.terminals = [] ∧ set.nullable = false := by
    intro set member
    obtain ⟨nonTerminal, -, rfl⟩ := Array.mem_map.mp member
    exact ⟨rfl, rfl⟩
  refine ⟨?_, ?_, ?_, ?_⟩
  · simp only [initial, Array.toList_map, List.map_map, PlainGrammar.names]
    rfl
  · intro set member
    rw [(blank set member).1]
    exact List.Pairwise.nil
  · intro set member kind inSet
    rw [(blank set member).1] at inSet
    cases inSet
  · intro set member nullable
    rw [(blank set member).2] at nullable
    cases nullable

theorem weight_le (sound : first.Sound grammar) :
    first.weight ≤ grammar.nonTerminals.size * (grammar.terminals.length + 1) := by
  have sizes := congrArg List.length sound.names
  simp only [List.length_map, PlainGrammar.names, Array.length_toList] at sizes
  rw [weight, ← sizes, ← Array.length_toList]
  apply sum_le_length_mul
  intro set inList
  have member := Array.mem_toList_iff.mp inList
  have short : set.terminals.length ≤ grammar.terminals.length := by
    apply OrderedSet.length_le_of_subset (sound.ascending set member)
    intro kind inSet
    rcases (sound.begins set member kind inSet).mem_terminals with impossible | known
    · cases List.mem_singleton.mp impossible
    · exact known
  have bit := Bool.toNat_le set.nullable
  unfold heft
  omega

theorem compute_settles (consistent : grammar.Consistent) :
    Settles (pass grammar) (solve grammar).2 (initial grammar) (compute grammar) := by
  obtain ⟨passes, count, settles⟩ := settle_settles (pass_inflates consistent) weight_le
    (passLimit grammar) 0 (initial_sound grammar) (by unfold passLimit; omega)
  rw [solve, count, Nat.zero_add]
  exact settles

theorem compute_spec (consistent : grammar.Consistent) :
    (compute grammar).Sound grammar ∧
      ∀ visit ∈ visits grammar, (compute grammar).absorb visit.1 visit.2 = compute grammar := by
  have settles := compute_settles consistent
  have sound := settles.keeps (Sound grammar) (pass_inflates consistent).keeps
    (initial_sound grammar)
  exact ⟨sound, Inflates.fixed_of_foldl _ (visit_inflates consistent) sound settles.fixed⟩

/-! ### Exactness -/

structure Closed (grammar : PlainGrammar) (first : FirstSets) : Prop where
  terminals : ∀ {name rhs kind}, ⟨name, rhs⟩ ∈ grammar.productions →
    kind ∈ (first.ofSymbols rhs).1 → kind ∈ first.ofName name
  nullable : ∀ {name rhs}, ⟨name, rhs⟩ ∈ grammar.productions →
    (first.ofSymbols rhs).2 = true → first.isNullable name = true

theorem Sound.find?_of_nameOf? (consistent : grammar.Consistent) (sound : first.Sound grammar)
    {id : Nat} {name : String} (named : grammar.nameOf? id = some name) :
    ∃ set, first.sets[id]? = some set ∧ first.find? name = some set := by
  have place := named
  rw [← PlainGrammar.names_getElem?, ← sound.names, List.getElem?_map, Array.getElem?_toList,
    Option.map_eq_some_iff] at place
  obtain ⟨set, found, rfl⟩ := place
  refine ⟨set, found, ?_⟩
  obtain ⟨other, otherFound⟩ : ∃ other, first.find? set.name = some other := by
    rw [← Option.isSome_iff_exists, find?, Array.find?_isSome]
    exact ⟨set, Array.mem_of_getElem? found, beq_self_eq_true _⟩
  obtain ⟨otherMember, otherName⟩ := mem_of_find? otherFound
  obtain ⟨otherId, otherPlace⟩ := Array.mem_iff_getElem?.mp otherMember
  have otherNamed : grammar.nameOf? otherId = some set.name := by
    rw [← PlainGrammar.names_getElem?, ← sound.names, List.getElem?_map, Array.getElem?_toList,
      otherPlace, Option.map_some, otherName]
  have same := consistent.nameOf?_inj named otherNamed
  rw [← same, found] at otherPlace
  rw [otherFound, Option.some.inj otherPlace]

theorem compute_closed (consistent : grammar.Consistent) : (compute grammar).Closed grammar := by
  obtain ⟨sound, fixed⟩ := compute_spec consistent
  have learned : ∀ {name rhs}, ⟨name, rhs⟩ ∈ grammar.productions →
      ∃ set, (compute grammar).find? name = some set ∧ (compute grammar).learn rhs set = set := by
    intro name rhs member
    obtain ⟨id, named⟩ := PlainGrammar.mem_names_iff.mp (consistent.owned _ member)
    obtain ⟨set, found, byName⟩ := sound.find?_of_nameOf? consistent named
    refine ⟨set, byName, ?_⟩
    have same := congrArg (·.sets[id]?)
      (fixed (id, rhs) ((mem_visits_iff consistent).mpr ⟨name, named, member⟩))
    simp only [sets_absorb, Array.getElem?_modify, if_true, found, Option.map_some] at same
    exact Option.some.inj same
  refine ⟨?_, ?_⟩
  · intro name rhs kind member inside
    obtain ⟨set, found, same⟩ := learned member
    have terminals := congrArg FirstSet.terminals same
    rw [ofName, found]
    change kind ∈ set.terminals
    rw [← terminals]
    exact OrderedSet.mem_insertAll.mpr (Or.inr inside)
  · intro name rhs member vanishes
    obtain ⟨set, found, same⟩ := learned member
    have nullable := congrArg FirstSet.nullable same
    rw [isNullable, found]
    change set.nullable = true
    rw [← nullable]
    exact Bool.or_eq_true_iff.mpr (Or.inr vanishes)

namespace Closed

theorem nullable_ofSymbols (closed : first.Closed grammar) {symbols : List Symbol}
    (vanishes : grammar.Vanishes symbols) : (first.ofSymbols symbols).2 = true := by
  induction vanishes with
  | nil => rfl
  | cons member inner others ihInner ihOthers =>
      unfold ofSymbols
      rw [if_pos (closed.nullable member ihInner)]
      exact ihOthers

theorem isNullable_of_vanishes (closed : first.Closed grammar) {name : String}
    (vanishes : grammar.Vanishes [.nonTerminal name]) : first.isNullable name = true := by
  obtain ⟨rhs, member, inner⟩ := vanishes.production
  exact closed.nullable member (closed.nullable_ofSymbols inner)

theorem mem_ofSymbols (closed : first.Closed grammar) {symbols : List Symbol} {kind : String}
    (begins : grammar.Begins kind symbols) : kind ∈ (first.ofSymbols symbols).1 := by
  induction begins with
  | here rest => exact List.mem_singleton_self kind
  | inside rest member inner ih =>
      have known := closed.terminals member ih
      unfold ofSymbols
      split
      case isTrue => exact OrderedSet.mem_insertAll.mpr (Or.inl known)
      case isFalse => exact known
  | behind empty later ih =>
      unfold ofSymbols
      rw [if_pos (closed.isNullable_of_vanishes empty)]
      exact OrderedSet.mem_insertAll.mpr (Or.inr ih)

end Closed

theorem mem_compute_ofSymbols_iff (consistent : grammar.Consistent) {symbols : List Symbol}
    {kind : String} :
    kind ∈ ((compute grammar).ofSymbols symbols).1 ↔ grammar.Begins kind symbols :=
  ⟨(compute_spec consistent).1.begins_ofSymbols, (compute_closed consistent).mem_ofSymbols⟩

theorem compute_ofSymbols_nullable_iff (consistent : grammar.Consistent) {symbols : List Symbol} :
    ((compute grammar).ofSymbols symbols).2 = true ↔ grammar.Vanishes symbols :=
  ⟨(compute_spec consistent).1.vanishes_ofSymbols, (compute_closed consistent).nullable_ofSymbols⟩

end FirstSets

end Predictive
