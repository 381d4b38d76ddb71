/-
The deterministic automaton follows the sets of the nondeterministic one. Between
two cuts every character takes the same arcs, so the arcs of a filled state lead
from each character to the number of the set that the character moves to. The
sets are different and there are finitely many, so all of them get filled.
-/

import Mathlib.Algebra.Group.Nat.Defs
import Mathlib.Data.List.Sublists
import Predictive.Lexical.Subset
import Predictive.Proofs.Lexical.Closure
import Predictive.Proofs.Lexical.Lookup

namespace Predictive.Subset

open Scalar

/-! ### The best tag -/

theorem beats_iff {left right : AcceptTag} :
    beats left right = true ↔ right.priority < left.priority ∨
      left.priority = right.priority ∧ left.index < right.index := by
  simp only [beats, Bool.or_eq_true, Bool.and_eq_true, decide_eq_true_eq, beq_iff_eq]

theorem foldl_best (rest : List AcceptTag) {seen : List AcceptTag} {best : AcceptTag}
    (member : best ∈ seen) (unbeaten : ∀ other ∈ seen, ¬beats other best = true) :
    rest.foldl (fun best other => if beats other best then other else best) best ∈ seen ++ rest ∧
      ∀ other ∈ seen ++ rest, ¬beats other
        (rest.foldl (fun best other => if beats other best then other else best) best) = true := by
  induction rest generalizing seen best with
  | nil =>
      rw [List.append_nil]
      exact ⟨member, unbeaten⟩
  | cons next rest ih =>
      have regrouped : seen ++ next :: rest = (seen ++ [next]) ++ rest :=
        (List.append_assoc seen [next] rest).symm
      rw [List.foldl_cons, regrouped]
      split
      case isTrue better =>
        apply ih (List.mem_append_right _ (List.mem_singleton_self next))
        intro other inSeen
        rw [beats_iff] at better ⊢
        rcases List.mem_append.mp inSeen with old | new
        · have notBest := unbeaten other old
          rw [beats_iff] at notBest
          omega
        · rw [List.mem_singleton.mp new]
          omega
      case isFalse worse =>
        apply ih (List.mem_append_left _ member)
        intro other inSeen
        rcases List.mem_append.mp inSeen with old | new
        · exact unbeaten other old
        · rwa [List.mem_singleton.mp new]

theorem bestTag_eq_none {tags : List AcceptTag} (none : bestTag tags = none) : tags = [] := by
  cases tags with
  | nil => rfl
  | cons tag rest => cases none

theorem bestTag_eq_some {tags : List AcceptTag} {best : AcceptTag}
    (found : bestTag tags = some best) :
    best ∈ tags ∧ ∀ other ∈ tags, ¬beats other best = true := by
  cases tags with
  | nil => cases found
  | cons tag rest =>
      cases found
      apply foldl_best rest (List.mem_singleton_self tag)
      intro other member
      rw [List.mem_singleton.mp member, beats_iff]
      omega

/-! ### Cuts and stretches -/

def Rising (cuts : List Char) : Prop := cuts.Pairwise fun left right => rank left < rank right

theorem rising_cuts (arcs : List Arc) : Rising (cuts arcs) := by
  refine List.Pairwise.imp (fun smaller => ?_) (OrderedSet.ascending_ofList _)
  exact lt_iff_rank_lt.mp (compareOfLessAndEq_eq_lt.mp smaller)

theorem lo_mem_cuts {arcs : List Arc} {arc : Arc} (member : arc ∈ arcs) :
    arc.range.lo ∈ cuts arcs :=
  OrderedSet.mem_ofList.mpr (List.mem_flatMap.mpr ⟨arc, member, List.mem_cons_self⟩)

theorem succ_mem_cuts {arcs : List Arc} {arc : Arc} {next : Char} (member : arc ∈ arcs)
    (following : arc.range.hi.succ? = some next) : next ∈ cuts arcs := by
  refine OrderedSet.mem_ofList.mpr (List.mem_flatMap.mpr ⟨arc, member, List.mem_cons_of_mem _ ?_⟩)
  rw [following]
  exact List.mem_singleton_self next

structure Between (cuts : List Char) (stretch : CharRange) : Prop where
  begins : stretch.lo ∈ cuts
  wellFormed : stretch.WellFormed
  ends : ∀ cut ∈ cuts, rank stretch.lo < rank cut → rank stretch.hi < rank cut

theorem between_last (lo : Char) : Between [lo] ⟨lo, last⟩ := by
  refine ⟨List.mem_singleton_self lo, rank_le_last lo, fun cut member above => ?_⟩
  rw [List.mem_singleton.mp member] at above
  exact (Nat.lt_irrefl _ above).elim

theorem Rising.next_le {lo next : Char} {rest : List Char} (rising : Rising (lo :: next :: rest)) :
    ∀ cut ∈ next :: rest, rank next ≤ rank cut := by
  obtain ⟨-, others⟩ := List.pairwise_cons.mp rising
  obtain ⟨later, -⟩ := List.pairwise_cons.mp others
  exact List.forall_mem_cons.mpr ⟨Nat.le_refl _, fun cut member => Nat.le_of_lt (later cut member)⟩

theorem Rising.between_first {lo next hi : Char} {rest : List Char}
    (rising : Rising (lo :: next :: rest)) (previous : rank hi + 1 = rank next) :
    Between (lo :: next :: rest) ⟨lo, hi⟩ := by
  have first : rank lo < rank next := (List.pairwise_cons.mp rising).1 next List.mem_cons_self
  refine ⟨List.mem_cons_self, ?_, ?_⟩
  · change rank lo ≤ rank hi
    omega
  · intro cut member greater
    change rank lo < rank cut at greater
    change rank hi < rank cut
    rcases List.mem_cons.mp member with rfl | inRest
    · omega
    · have far := rising.next_le cut inRest
      omega

theorem Between.later {lo : Char} {cuts : List Char} {stretch : CharRange}
    (rising : Rising (lo :: cuts)) (between : Between cuts stretch) :
    Between (lo :: cuts) stretch := by
  obtain ⟨begins, wellFormed, ends⟩ := between
  refine ⟨List.mem_cons_of_mem _ begins, wellFormed, ?_⟩
  intro cut inCuts greater
  rcases List.mem_cons.mp inCuts with rfl | inRest
  · have far : rank cut < rank stretch.lo := (List.pairwise_cons.mp rising).1 _ begins
    omega
  · exact ends cut inRest greater

/-- The stretches between rising cuts rise, and cover all that is not below the cuts. -/
theorem stretches_spec {cuts : List Char} (rising : Rising cuts) :
    (∀ stretch ∈ stretches cuts, Between cuts stretch) ∧
      (stretches cuts).Pairwise (fun left right => rank left.hi < rank right.lo) ∧
      ∀ char, ∀ cut ∈ cuts, rank cut ≤ rank char →
        ∃ stretch ∈ stretches cuts, stretch.contains char = true := by
  fun_induction stretches cuts with
  | case1 => exact ⟨nofun, .nil, nofun⟩
  | case2 lo =>
      refine ⟨List.forall_mem_singleton.mpr (between_last lo), List.pairwise_singleton _ _, ?_⟩
      intro char cut member low
      rw [List.mem_singleton.mp member] at low
      exact ⟨⟨lo, last⟩, List.mem_singleton_self _,
        CharRange.contains_iff.mpr ⟨low, rank_le_last char⟩⟩
  | case3 lo next rest hi previous ih =>
      obtain ⟨between, ascending, covers⟩ := ih (List.pairwise_cons.mp rising).2
      rw [pred?_eq_some_iff] at previous
      refine ⟨List.forall_mem_cons.mpr ⟨rising.between_first previous, ?_⟩,
        List.pairwise_cons.mpr ⟨?_, ascending⟩, ?_⟩
      · intro stretch member
        exact (between stretch member).later rising
      · intro stretch member
        have far := rising.next_le _ (between stretch member).begins
        change rank hi < rank stretch.lo
        omega
      · intro char cut member low
        by_cases far : rank next ≤ rank char
        · obtain ⟨stretch, inRest, inside⟩ := covers char next List.mem_cons_self far
          exact ⟨stretch, List.mem_cons_of_mem _ inRest, inside⟩
        · rcases List.mem_cons.mp member with rfl | inRest
          · refine ⟨⟨cut, hi⟩, List.mem_cons_self, CharRange.contains_iff.mpr ⟨low, ?_⟩⟩
            change rank char ≤ rank hi
            omega
          · have beyond := rising.next_le cut inRest
            omega
  | case4 lo next rest missing ih =>
      have first := (List.pairwise_cons.mp rising).1 next List.mem_cons_self
      rw [pred?_eq_none_iff] at missing
      omega

def targetsOn (arcs : List Arc) (char : Char) : List Nat :=
  (arcs.filter fun arc => arc.range.contains char).map Arc.target

theorem targetsOn_stretch {arcs : List Arc} {stretch : CharRange} {char : Char}
    (member : stretch ∈ stretches (cuts arcs)) (inside : stretch.contains char = true) :
    targetsOn arcs char = targetsOn arcs stretch.lo := by
  have between := (stretches_spec (rising_cuts arcs)).1 stretch member
  rw [CharRange.contains_iff] at inside
  refine congrArg (List.map Arc.target) (List.filter_congr fun arc inArcs => ?_)
  rw [Bool.eq_iff_iff, CharRange.contains_iff, CharRange.contains_iff]
  have begins := between.ends _ (lo_mem_cuts inArcs)
  constructor
  · rintro ⟨low, high⟩
    omega
  · rintro ⟨low, high⟩
    refine ⟨by omega, ?_⟩
    cases following : arc.range.hi.succ? with
    | none =>
        rw [succ?_eq_none_iff.mp following]
        exact rank_le_last char
    | some next =>
        have ends := between.ends next (succ_mem_cuts inArcs following)
        rw [succ?_eq_some_iff.mp following] at ends
        omega

theorem targetsOn_outside {arcs : List Arc} {char : Char}
    (outside : ∀ stretch ∈ stretches (cuts arcs), ¬stretch.contains char = true) :
    targetsOn arcs char = [] := by
  rw [targetsOn, List.map_eq_nil_iff, List.filter_eq_nil_iff]
  intro arc member inside
  rw [CharRange.contains_iff] at inside
  obtain ⟨stretch, inStretches, contained⟩ :=
    (stretches_spec (rising_cuts arcs)).2.2 char _ (lo_mem_cuts member) inside.1
  exact outside stretch inStretches contained

/-! ### Filling a state -/

open DfaState (Ordered Leads)

/-- The sets are different, and each is a set of states in ascending order. -/
structure Catalog (nfa : Nfa) (sets : Array (List Nat)) : Prop where
  distinct : sets.toList.Nodup
  ascending : ∀ set ∈ sets.toList, set.Sublist (List.range nfa.states.size)

/-- Sets keep their numbers. -/
def Extends (before after : Array (List Nat)) : Prop :=
  ∀ (id : Nat) (set : List Nat), before[id]? = some set → after[id]? = some set

theorem getElem?_of_idxOf? {sets : Array (List Nat)} {set : List Nat} {id : Nat}
    (found : sets.idxOf? set = some id) : sets[id]? = some set := by
  rw [← sets.toArray_toList, List.idxOf?_toArray, List.idxOf?_eq_some_iff] at found
  obtain ⟨inRange, same, -⟩ := found
  rw [← Array.getElem?_toList, List.getElem?_eq_getElem inRange, same]

theorem extends_push (sets : Array (List Nat)) (set : List Nat) : Extends sets (sets.push set) := by
  intro id old known
  rw [Array.getElem?_push, if_neg (Nat.ne_of_lt (Array.getElem?_eq_some_iff.mp known).1)]
  exact known

theorem Extends.size_le {before after : Array (List Nat)} (extended : Extends before after) :
    before.size ≤ after.size := by
  by_cases empty : before.size = 0
  · omega
  · have inRange : before.size - 1 < before.size := by omega
    have known : before[before.size - 1]? = some before[before.size - 1] :=
      Array.getElem?_eq_getElem inRange
    have still := (Array.getElem?_eq_some_iff.mp (extended _ _ known)).1
    omega

theorem Catalog.push {nfa : Nfa} {sets : Array (List Nat)} (catalog : Catalog nfa sets)
    {seeds : List Nat} (new : nfa.closure seeds ∉ sets) :
    Catalog nfa (sets.push (nfa.closure seeds)) where
  distinct := by
    rw [Array.toList_push, List.nodup_append]
    refine ⟨catalog.distinct, List.nodup_singleton _, ?_⟩
    intro set member other isNew same
    rw [same, List.mem_singleton.mp isNew, Array.mem_toList_iff] at member
    exact new member
  ascending := by
    intro set member
    rw [Array.toList_push] at member
    rcases List.mem_append.mp member with old | isNew
    · exact catalog.ascending set old
    · rw [List.mem_singleton.mp isNew]
      exact nfa.closure_sublist seeds

/-- What one stretch can do. Without targets it adds nothing; otherwise its arc leads to
the number of the set that its targets give, which is known or becomes the last one. -/
theorem fillStretch_cases {nfa : Nfa} (arcs : List Arc) (filling : Filling) (stretch : CharRange) :
    (targetsOn arcs stretch.lo = [] ∧ fillStretch nfa arcs filling stretch = filling) ∨
      targetsOn arcs stretch.lo ≠ [] ∧
        ((∃ id, filling.sets[id]? = some (nfa.closure (targetsOn arcs stretch.lo)) ∧
            fillStretch nfa arcs filling stretch =
              ⟨filling.sets, DfaState.pushArc filling.arcs ⟨stretch, id⟩⟩) ∨
          nfa.closure (targetsOn arcs stretch.lo) ∉ filling.sets ∧
            fillStretch nfa arcs filling stretch =
              ⟨filling.sets.push (nfa.closure (targetsOn arcs stretch.lo)),
                DfaState.pushArc filling.arcs ⟨stretch, filling.sets.size⟩⟩) := by
  by_cases none : targetsOn arcs stretch.lo = []
  · exact Or.inl ⟨none, if_pos (List.isEmpty_iff.mpr none)⟩
  · refine Or.inr ⟨none, ?_⟩
    have unfolded : fillStretch nfa arcs filling stretch = _ :=
      if_neg fun empty => none (List.isEmpty_iff.mp empty)
    rw [unfolded]
    split
    case h_1 id found => exact Or.inl ⟨id, getElem?_of_idxOf? found, rfl⟩
    case h_2 found => exact Or.inr ⟨Array.idxOf?_eq_none_iff.mp found, rfl⟩

theorem fillStretch_arc {nfa : Nfa} {arcs : List Arc} (filling : Filling) {stretch : CharRange}
    (some : targetsOn arcs stretch.lo ≠ []) :
    ∃ id sets, fillStretch nfa arcs filling stretch =
        ⟨sets, DfaState.pushArc filling.arcs ⟨stretch, id⟩⟩ ∧
      sets[id]? = Option.some (nfa.closure (targetsOn arcs stretch.lo)) ∧
      Extends filling.sets sets ∧ (Catalog nfa filling.sets → Catalog nfa sets) := by
  rcases fillStretch_cases arcs filling stretch with
    ⟨none, -⟩ | ⟨-, ⟨id, known, same⟩ | ⟨new, same⟩⟩
  · exact (some none).elim
  · exact ⟨id, filling.sets, same, known, fun _ _ kept => kept, fun catalog => catalog⟩
  · exact ⟨filling.sets.size, _, same, Array.getElem?_push_size, extends_push _ _,
      fun catalog => catalog.push new⟩

structure Filled (nfa : Nfa) (arcs : List Arc) (seen : List CharRange) (filling : Filling) :
    Prop where
  catalog : Catalog nfa filling.sets
  ordered : Ordered filling.arcs.toList
  ends : ∀ arc ∈ filling.arcs.toList, ∃ stretch ∈ seen, rank arc.range.hi ≤ rank stretch.hi
  sound : ∀ char target, Leads filling.arcs.toList char target →
    ∃ stretch ∈ seen, stretch.contains char = true ∧ targetsOn arcs stretch.lo ≠ [] ∧
      filling.sets[target]? = some (nfa.closure (targetsOn arcs stretch.lo))
  complete : ∀ stretch ∈ seen, ∀ char, stretch.contains char = true →
    targetsOn arcs stretch.lo ≠ [] → ∃ target, Leads filling.arcs.toList char target

theorem fillStretch_filled {nfa : Nfa} {arcs : List Arc} {seen : List CharRange} {filling : Filling}
    (filled : Filled nfa arcs seen filling) {stretch : CharRange} (wellFormed : stretch.WellFormed)
    (behind : ∀ other ∈ seen, rank other.hi < rank stretch.lo) :
    Filled nfa arcs (seen ++ [stretch]) (fillStretch nfa arcs filling stretch) ∧
      Extends filling.sets (fillStretch nfa arcs filling stretch).sets := by
  have inSeen : ∀ {other}, other ∈ seen → other ∈ seen ++ [stretch] := List.mem_append_left _
  rcases fillStretch_cases arcs filling stretch with ⟨none, same⟩ | ⟨some, -⟩
  · rw [same]
    refine ⟨⟨filled.catalog, filled.ordered, ?_, ?_, ?_⟩, fun _ _ known => known⟩
    · intro arc member
      obtain ⟨other, isSeen, high⟩ := filled.ends arc member
      exact ⟨other, inSeen isSeen, high⟩
    · intro char target leads
      obtain ⟨other, isSeen, parts⟩ := filled.sound char target leads
      exact ⟨other, inSeen isSeen, parts⟩
    · intro other member char inside targets
      rcases List.mem_append.mp member with isSeen | isNew
      · exact filled.complete other isSeen char inside targets
      · rw [List.mem_singleton.mp isNew] at targets
        exact (targets none).elim
  · obtain ⟨id, sets, same, numbered, extended, catalogued⟩ := fillStretch_arc filling some
    rw [same]
    have after : ∀ arc ∈ filling.arcs.toList, rank arc.range.hi < rank stretch.lo := by
      intro arc member
      obtain ⟨other, isSeen, high⟩ := filled.ends arc member
      exact Nat.lt_of_le_of_lt high (behind other isSeen)
    obtain ⟨ordered, within, leads⟩ :=
      DfaState.pushArc_spec ⟨stretch, id⟩ filled.ordered wellFormed after
    have isNew : stretch ∈ seen ++ [stretch] :=
      List.mem_append_right _ (List.mem_singleton_self stretch)
    refine ⟨⟨catalogued filled.catalog, ordered, ?_, ?_, ?_⟩, extended⟩
    · exact fun arc member => ⟨stretch, isNew, within arc member⟩
    · intro char target isTarget
      rcases (leads char target).mp isTarget with old | ⟨inside, rfl⟩
      · obtain ⟨other, isSeen, contained, targets, set⟩ := filled.sound char target old
        exact ⟨other, inSeen isSeen, contained, targets, extended target _ set⟩
      · exact ⟨stretch, isNew, inside, some, numbered⟩
    · intro other member char inside targets
      rcases List.mem_append.mp member with isSeen | isLast
      · obtain ⟨target, old⟩ := filled.complete other isSeen char inside targets
        exact ⟨target, (leads char target).mpr (Or.inl old)⟩
      · rw [List.mem_singleton.mp isLast] at inside
        exact ⟨id, (leads char id).mpr (Or.inr ⟨inside, rfl⟩)⟩

theorem foldl_filled {nfa : Nfa} {arcs : List Arc} (todo : List CharRange) {seen : List CharRange}
    {filling : Filling} (filled : Filled nfa arcs seen filling)
    (wellFormed : ∀ stretch ∈ todo, stretch.WellFormed)
    (ascending : (seen ++ todo).Pairwise fun left right => rank left.hi < rank right.lo) :
    Filled nfa arcs (seen ++ todo) (todo.foldl (fillStretch nfa arcs) filling) ∧
      Extends filling.sets (todo.foldl (fillStretch nfa arcs) filling).sets := by
  induction todo generalizing seen filling with
  | nil =>
      rw [List.append_nil]
      exact ⟨filled, fun _ _ known => known⟩
  | cons stretch rest ih =>
      obtain ⟨formed, restFormed⟩ := List.forall_mem_cons.mp wellFormed
      have behind : ∀ other ∈ seen, rank other.hi < rank stretch.lo := fun other member =>
        (List.pairwise_append.mp ascending).2.2 other member stretch List.mem_cons_self
      obtain ⟨once, extended⟩ := fillStretch_filled filled formed behind
      have regrouped : (seen ++ [stretch]) ++ rest = seen ++ stretch :: rest :=
        List.append_assoc ..
      obtain ⟨all, further⟩ := ih once restFormed (regrouped ▸ ascending)
      rw [regrouped] at all
      exact ⟨all, fun id set known => further id set (extended id set known)⟩

/-- A state stands for a set: its arcs lead from each character to the number of the
set that the character moves to. -/
structure Stands (nfa : Nfa) (sets : Array (List Nat)) (set : List Nat) (state : DfaState) :
    Prop where
  accept : state.accept = tagOf nfa set
  stops : ∀ char, nfa.move set char = [] → state.next? char = none
  goes : ∀ char, nfa.move set char ≠ [] →
    ∃ id, state.next? char = some id ∧ sets[id]? = some (nfa.closure (nfa.move set char))

theorem Stands.mono {nfa : Nfa} {before after : Array (List Nat)} {set : List Nat}
    {state : DfaState} (stands : Stands nfa before set state) (extended : Extends before after) :
    Stands nfa after set state := by
  refine ⟨stands.accept, stands.stops, fun char some => ?_⟩
  obtain ⟨id, next, known⟩ := stands.goes char some
  exact ⟨id, next, extended id _ known⟩

theorem fill_keeps {nfa : Nfa} (sets : Array (List Nat)) (set : List Nat)
    (kept : Filling → Prop) (start : kept ⟨sets, #[]⟩)
    (known : ∀ filling stretch id,
      filling.sets[id]? = some (nfa.closure (nfa.move set stretch.lo)) → kept filling →
        kept ⟨filling.sets, DfaState.pushArc filling.arcs ⟨stretch, id⟩⟩)
    (new : ∀ filling stretch, nfa.move set stretch.lo ≠ [] → kept filling →
      kept ⟨filling.sets.push (nfa.closure (nfa.move set stretch.lo)),
        DfaState.pushArc filling.arcs ⟨stretch, filling.sets.size⟩⟩) :
    kept ⟨(fill nfa sets set).1, (fill nfa sets set).2.arcs⟩ := by
  apply List.foldlRecOn _ _ start
  intro filling before stretch _
  rcases fillStretch_cases (set.flatMap nfa.arcsOf) filling stretch with
    ⟨-, same⟩ | ⟨moves, ⟨id, numbered, same⟩ | ⟨-, same⟩⟩
  · rw [same]
    exact before
  · rw [same]
    exact known filling stretch id numbered before
  · rw [same]
    exact new filling stretch moves before

theorem fill_filled {nfa : Nfa} {sets : Array (List Nat)} (catalog : Catalog nfa sets)
    (set : List Nat) :
    Filled nfa (set.flatMap nfa.arcsOf) (stretches (cuts (set.flatMap nfa.arcsOf)))
        ⟨(fill nfa sets set).1, (fill nfa sets set).2.arcs⟩ ∧
      Extends sets (fill nfa sets set).1 := by
  obtain ⟨between, ascending, -⟩ := stretches_spec (rising_cuts (set.flatMap nfa.arcsOf))
  have nothing : Filled nfa (set.flatMap nfa.arcsOf) [] ⟨sets, #[]⟩ := by
    refine ⟨catalog, ⟨nofun, .nil⟩, nofun, ?_, nofun⟩
    rintro char target ⟨arc, member, -⟩
    cases member
  have filled := foldl_filled (stretches (cuts (set.flatMap nfa.arcsOf))) nothing
    (fun stretch member => (between stretch member).wellFormed) ascending
  rw [List.nil_append] at filled
  exact filled

theorem fill_stands {nfa : Nfa} {sets : Array (List Nat)} (catalog : Catalog nfa sets)
    (set : List Nat) :
    Catalog nfa (fill nfa sets set).1 ∧ Extends sets (fill nfa sets set).1 ∧
      Stands nfa (fill nfa sets set).1 set (fill nfa sets set).2 := by
  obtain ⟨filled, extended⟩ := fill_filled catalog set
  refine ⟨filled.catalog, extended, rfl, ?_, ?_⟩
  · intro char none
    cases next : (fill nfa sets set).2.next? char with
    | none => rfl
    | some target =>
        obtain ⟨stretch, member, inside, targets, -⟩ :=
          filled.sound char target ((DfaState.next?_eq_some_iff filled.ordered).mp next)
        rw [← targetsOn_stretch member inside] at targets
        exact (targets none).elim
  · intro char some
    obtain ⟨stretch, member, inside⟩ : ∃ stretch ∈ stretches (cuts (set.flatMap nfa.arcsOf)),
        stretch.contains char = true := by
      by_cases covered : ∃ stretch ∈ stretches (cuts (set.flatMap nfa.arcsOf)),
          stretch.contains char = true
      · exact covered
      · refine (some (targetsOn_outside fun stretch member inside => covered ?_)).elim
        exact ⟨stretch, member, inside⟩
    have targets : targetsOn (set.flatMap nfa.arcsOf) stretch.lo ≠ [] :=
      targetsOn_stretch member inside ▸ some
    obtain ⟨target, leads⟩ := filled.complete stretch member char inside targets
    obtain ⟨other, isSeen, contained, -, numbered⟩ := filled.sound char target leads
    rw [← targetsOn_stretch isSeen contained] at numbered
    exact ⟨target, (DfaState.next?_eq_some_iff filled.ordered).mpr leads, numbered⟩

/-! ### Exploring -/

structure Explored (nfa : Nfa) (exploration : Exploration) : Prop where
  catalog : Catalog nfa exploration.sets
  first : exploration.sets[0]? = some (nfa.closure [nfa.start])
  size_le : exploration.states.size ≤ exploration.sets.size
  stands : ∀ (id : Nat) state, exploration.states[id]? = some state →
    ∃ set, exploration.sets[id]? = some set ∧ Stands nfa exploration.sets set state

theorem initial_explored (nfa : Nfa) : Explored nfa (.initial nfa) := by
  refine ⟨⟨List.nodup_singleton _, ?_⟩, rfl, Nat.zero_le _, ?_⟩
  · exact List.forall_mem_singleton.mpr (nfa.closure_sublist [nfa.start])
  · intro id state found
    cases found

theorem step_cases (nfa : Nfa) (exploration : Exploration) :
    (exploration.sets[exploration.states.size]? = none ∧ exploration.step nfa = exploration) ∨
      ∃ set, exploration.sets[exploration.states.size]? = some set ∧
        exploration.step nfa = ⟨(fill nfa exploration.sets set).1,
          exploration.states.push (fill nfa exploration.sets set).2⟩ := by
  cases waits : exploration.sets[exploration.states.size]? with
  | none => exact Or.inl ⟨rfl, by rw [Exploration.step, waits]⟩
  | some set => exact Or.inr ⟨set, rfl, by rw [Exploration.step, waits]⟩

theorem step_explored {nfa : Nfa} {exploration : Exploration}
    (explored : Explored nfa exploration) : Explored nfa (exploration.step nfa) := by
  rcases step_cases nfa exploration with ⟨-, same⟩ | ⟨set, waits, same⟩
  · rw [same]
    exact explored
  · rw [same]
    obtain ⟨catalog, extended, stands⟩ := fill_stands explored.catalog set
    have still := extended _ set waits
    refine ⟨catalog, extended 0 _ explored.first, ?_, ?_⟩
    · change (exploration.states.push _).size ≤ _
      rw [Array.size_push]
      exact (Array.getElem?_eq_some_iff.mp still).1
    · intro id state found
      change (exploration.states.push _)[id]? = some state at found
      rw [Array.getElem?_push] at found
      split at found
      case isTrue isLast =>
        cases found
        exact ⟨set, isLast ▸ still, stands⟩
      case isFalse =>
        obtain ⟨other, known, old⟩ := explored.stands id state found
        exact ⟨other, extended id other known, old.mono extended⟩

theorem Catalog.size_le {nfa : Nfa} {sets : Array (List Nat)} (catalog : Catalog nfa sets) :
    sets.size ≤ 2 ^ nfa.states.size := by
  have among : sets.toList ⊆ (List.range nfa.states.size).sublists := fun set member =>
    List.mem_sublists.mpr (catalog.ascending set member)
  have bound := (List.subperm_of_subset catalog.distinct among).length_le
  rwa [List.length_sublists, List.length_range, Array.length_toList] at bound

theorem run_explored {nfa : Nfa} (fuel : Nat) {exploration : Exploration}
    (explored : Explored nfa exploration)
    (enough : 2 ^ nfa.states.size ≤ fuel + exploration.states.size) :
    Explored nfa (exploration.run nfa fuel) ∧
      (exploration.run nfa fuel).states.size = (exploration.run nfa fuel).sets.size := by
  have bound := explored.catalog.size_le
  have atMost := explored.size_le
  induction fuel generalizing exploration with
  | zero => exact ⟨explored, by rw [Exploration.run]; omega⟩
  | succ fuel ih =>
      unfold Exploration.run
      split
      case isTrue waits =>
        have next := step_explored explored
        have grown : (exploration.step nfa).states.size = exploration.states.size + 1 := by
          simp only [Exploration.step, Array.getElem?_eq_getElem waits, Array.size_push]
        exact ih next (by omega) next.catalog.size_le next.size_le
      case isFalse done => exact ⟨explored, by omega⟩

/-- What holds at first and is kept when the set that waits first is filled holds in the
end. -/
theorem explore_keeps {nfa : Nfa} (kept : Exploration → Prop) (start : kept (.initial nfa))
    (step : ∀ exploration set, Explored nfa exploration →
      exploration.sets[exploration.states.size]? = some set → kept exploration →
        kept ⟨(fill nfa exploration.sets set).1,
          exploration.states.push (fill nfa exploration.sets set).2⟩) : kept (explore nfa) := by
  have run : ∀ fuel exploration, Explored nfa exploration → kept exploration →
      kept (exploration.run nfa fuel) := by
    intro fuel
    induction fuel with
    | zero => exact fun exploration explored known => known
    | succ fuel ih =>
        intro exploration explored known
        unfold Exploration.run
        split
        case isTrue =>
          apply ih _ (step_explored explored)
          rcases step_cases nfa exploration with ⟨-, same⟩ | ⟨set, waits, same⟩
          · rw [same]
            exact known
          · rw [same]
            exact step exploration set explored waits known
        case isFalse => exact known
  exact run _ _ (initial_explored nfa) start

theorem explore_spec (nfa : Nfa) :
    Explored nfa (explore nfa) ∧ (explore nfa).states.size = (explore nfa).sets.size :=
  run_explored _ (initial_explored nfa) (Nat.le_add_right _ _)

end Predictive.Subset

namespace Predictive.Dfa

theorem stands_ofNfa {nfa : Nfa} {id : Nat} {set : List Nat}
    (known : (Subset.explore nfa).sets[id]? = some set) :
    ∃ state, (ofNfa nfa).states[id]? = some state ∧
      Subset.Stands nfa (Subset.explore nfa).sets set state := by
  obtain ⟨explored, complete⟩ := Subset.explore_spec nfa
  have inRange : id < (Subset.explore nfa).states.size :=
    complete ▸ (Array.getElem?_eq_some_iff.mp known).1
  obtain ⟨other, same, stands⟩ := explored.stands id _ (Array.getElem?_eq_getElem inRange)
  rw [known] at same
  cases same
  exact ⟨_, Array.getElem?_eq_getElem inRange, stands⟩

theorem run?_ofNfa {nfa : Nfa} (text : List Char) {id : Nat} {set : List Nat}
    (known : (Subset.explore nfa).sets[id]? = some set) :
    match nfa.after? set text with
    | some result => ∃ last, (ofNfa nfa).run? id text = some last ∧
        (Subset.explore nfa).sets[last]? = some result
    | none => (ofNfa nfa).run? id text = none := by
  induction text generalizing id set with
  | nil => exact ⟨id, rfl, known⟩
  | cons char rest ih =>
      obtain ⟨state, found, stands⟩ := stands_ofNfa known
      by_cases none : nfa.move set char = []
      · simp only [Nfa.after?, none, List.isEmpty_nil, if_true, run?, next?, found,
          Option.bind_some, stands.stops char none, Option.bind_none]
      · obtain ⟨target, goes, numbered⟩ := stands.goes char none
        have isSome : ¬(nfa.move set char).isEmpty = true := fun empty =>
          none (List.isEmpty_iff.mp empty)
        simp only [Nfa.after?, if_neg isSome, run?, next?, found, Option.bind_some, goes]
        exact ih numbered

/-- The state after a text stands for the closed set after it. -/
theorem run?_ofNfa_after (nfa : Nfa) (text : List Char) :
    match nfa.after? (nfa.closure [nfa.start]) text with
    | some set => ∃ id state, (ofNfa nfa).run? 0 text = some id ∧
        (ofNfa nfa).states[id]? = some state ∧ state.accept = Subset.tagOf nfa set
    | none => (ofNfa nfa).run? 0 text = none := by
  have runs := run?_ofNfa text (Subset.explore_spec nfa).1.first
  cases after : nfa.after? (nfa.closure [nfa.start]) text with
  | none =>
      rw [after] at runs
      exact runs
  | some set =>
      rw [after] at runs
      obtain ⟨id, ran, numbered⟩ := runs
      obtain ⟨state, found, stands⟩ := stands_ofNfa numbered
      exact ⟨id, state, ran, found, stands.accept⟩

theorem run?_ofNfa_start (nfa : Nfa) (text : List Char) :
    match (ofNfa nfa).run? 0 text with
    | some id => ∃ set, (ofNfa nfa).acceptOf id = Subset.tagOf nfa set ∧
        ∀ final, final ∈ set ↔ nfa.Ends [nfa.start] text final
    | none => ∀ final, ¬nfa.Ends [nfa.start] text final := by
  have runs := run?_ofNfa_after nfa text
  have ends := nfa.after?_closure [nfa.start] text
  cases after : nfa.after? (nfa.closure [nfa.start]) text with
  | none =>
      rw [after] at runs ends
      rw [show (ofNfa nfa).run? 0 text = none from runs]
      exact ends
  | some set =>
      rw [after] at runs ends
      obtain ⟨last, state, ran, found, accept⟩ := runs
      rw [ran]
      refine ⟨set, ?_, ends⟩
      rw [acceptOf, found, Option.bind_some, accept]

end Predictive.Dfa
