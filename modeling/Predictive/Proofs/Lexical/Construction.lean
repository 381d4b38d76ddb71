/-
The construction of automata is correct. Adding a pattern to an arena leaves the
old states as they were and gives a part that recognizes the pattern, in whatever
automaton the part ends up, as long as edges are added to its accept state only.
-/

import Predictive.Proofs.Lexical.CharSet
import Predictive.Proofs.Lexical.Recognition

namespace Predictive.Arena

def stateAt (arena : Arena) (id : Nat) : NfaState := arena.getD id .blank

variable {arena grown : Arena}

/-! ### Edits of an arena -/

theorem stateAt_of_size_le {id : Nat} (outside : arena.size ≤ id) : arena.stateAt id = .blank := by
  rw [stateAt, Array.getD_eq_getD_getElem?, Array.getElem?_eq_none outside, Option.getD_none]

theorem stateAt_push (arena : Arena) (state : NfaState) (id : Nat) :
    stateAt (arena.push state) id = if id = arena.size then state else arena.stateAt id := by
  rw [stateAt, Array.getD_eq_getD_getElem?, Array.getElem?_push]
  split
  case isTrue => rfl
  case isFalse => rw [stateAt, Array.getD_eq_getD_getElem?]

theorem size_link (arena : Arena) (source target : Nat) :
    (arena.link source target).size = arena.size := Array.size_modify

theorem size_fan (arena : Arena) (outer inner : Fragment) :
    (arena.fan outer inner).size = arena.size := by
  rw [fan, size_link, size_link]

theorem size_blanks (arena : Arena) :
    Array.size ((arena.push .blank).push .blank) = arena.size + 2 := by
  rw [Array.size_push, Array.size_push]

theorem stateAt_link_of_ne {source id : Nat} (target : Nat) (different : id ≠ source) :
    (arena.link source target).stateAt id = arena.stateAt id := by
  rw [stateAt, stateAt, link, Array.getD_eq_getD_getElem?, Array.getElem?_modify,
    if_neg fun same => different same.symm, Array.getD_eq_getD_getElem?]

theorem stateAt_link_self {source : Nat} (target : Nat) (inRange : source < arena.size) :
    (arena.link source target).stateAt source =
      { arena.stateAt source with
        epsilons := (arena.stateAt source).epsilons ++ [target] } := by
  simp only [stateAt, link, Array.getD_eq_getD_getElem?, Array.getElem?_modify, if_true,
    Array.getElem?_eq_getElem inRange, Option.map_some, Option.getD_some]

/-! ### Parts of an automaton -/

def SameEdges (left right : NfaState) : Prop :=
  left.arcs = right.arcs ∧ left.epsilons = right.epsilons

/-- From a number on, the automaton leads on as the arena does, but for one state. -/
def Agrees (nfa : Nfa) (lo accept : Nat) (arena : Arena) : Prop :=
  ∀ id, lo ≤ id → id < arena.size → id ≠ accept → SameEdges (nfa.stateAt id) (arena.stateAt id)

structure Framed (arena grown : Arena) (whole : Fragment) : Prop where
  start_inside : arena.size ≤ whole.start ∧ whole.start < grown.size
  accept_inside : arena.size ≤ whole.accept ∧ whole.accept < grown.size
  old : ∀ id < arena.size, grown.stateAt id = arena.stateAt id
  bare : grown.stateAt whole.accept = .blank
  untagged : ∀ id, arena.size ≤ id → (grown.stateAt id).tag = none

structure Compiled (arena grown : Arena) (pattern : Pattern) (whole : Fragment) : Prop
    extends Framed arena grown whole where
  recognizes : ∀ nfa, Agrees nfa arena.size whole.accept grown →
    nfa.Recognizes pattern arena.size grown.size whole

/-! ### Single characters and literals -/

theorem compiled_hop {pattern : Pattern} (arena : Arena) {ranges : List CharRange}
    (single : ∀ text, pattern.Matches text ↔
      ∃ char, text = [char] ∧ ∃ range ∈ ranges, range.contains char = true) :
    Compiled arena (arena.hop ranges).1 pattern (arena.hop ranges).2 := by
  have size : (arena.hop ranges).1.size = arena.size + 2 := by
    simp only [hop, Array.size_push]
  have states : ∀ id, (arena.hop ranges).1.stateAt id =
      if id = arena.size + 1 then .blank
      else if id = arena.size then
        { NfaState.blank with arcs := ranges.map fun range => ⟨range, arena.size + 1⟩ }
      else arena.stateAt id := by
    intro id
    simp only [hop, stateAt_push, Array.size_push]
  have first := states arena.size
  rw [if_neg (Nat.succ_ne_self arena.size).symm, if_pos rfl] at first
  refine ⟨⟨⟨Nat.le_refl _, ?_⟩, ⟨Nat.le_succ _, ?_⟩, ?_, ?_, ?_⟩, ?_⟩
  · rw [size]
    exact Nat.lt_add_of_pos_right (Nat.succ_pos 1)
  · rw [size]
    exact Nat.lt_succ_self _
  · intro id old
    rw [states, if_neg (by omega), if_neg (by omega)]
  · exact (states (arena.size + 1)).trans (if_pos rfl)
  · intro id new
    rw [states]
    split
    · rfl
    · split
      · rfl
      · rw [stateAt_of_size_le new]
        rfl
  · intro nfa agrees
    have edges := agrees arena.size (Nat.le_refl _) (by omega) (Nat.succ_ne_self _).symm
    rw [first] at edges
    rw [size]
    exact .hop single edges.1 edges.2

theorem size_chain (arena : Arena) (chars : List Char) :
    (arena.chain chars).size = arena.size + chars.length + 1 := by
  induction chars generalizing arena with
  | nil => exact Array.size_push ..
  | cons char rest ih =>
      rw [chain, ih, Array.size_push, List.length_cons]
      omega

theorem stateAt_chain_of_lt (chars : List Char) {id : Nat} (old : id < arena.size) :
    (arena.chain chars).stateAt id = arena.stateAt id := by
  induction chars generalizing arena with
  | nil => rw [chain, stateAt_push, if_neg (Nat.ne_of_lt old)]
  | cons char rest ih =>
      rw [chain, ih (by rw [Array.size_push]; omega), stateAt_push, if_neg (Nat.ne_of_lt old)]

theorem stateAt_chain_last (arena : Arena) (chars : List Char) :
    (arena.chain chars).stateAt (arena.size + chars.length) = .blank := by
  induction chars generalizing arena with
  | nil => exact (stateAt_push ..).trans (if_pos rfl)
  | cons char rest ih =>
      have last := ih (arena.push ⟨[⟨⟨char, char⟩, arena.size + 1⟩], [], none⟩)
      rw [Array.size_push, Nat.add_assoc, Nat.add_comm 1] at last
      exact last

theorem untagged_chain (arena : Arena) (chars : List Char) {id : Nat} (new : arena.size ≤ id) :
    ((arena.chain chars).stateAt id).tag = none := by
  induction chars generalizing arena with
  | nil =>
      rw [chain, stateAt_push]
      split
      · rfl
      · rw [stateAt_of_size_le new]
        rfl
  | cons char rest ih =>
      by_cases first : id = arena.size
      · subst first
        rw [chain, stateAt_chain_of_lt rest (by rw [Array.size_push]; omega), stateAt_push,
          if_pos rfl]
        rfl
      · exact ih _ (by rw [Array.size_push]; omega)

theorem chained_of_agrees {nfa : Nfa} {chars : List Char}
    (agrees : Agrees nfa arena.size (arena.size + chars.length) (arena.chain chars)) :
    Nfa.Recognizes.Chained nfa arena.size chars := by
  induction chars generalizing arena with
  | nil => trivial
  | cons char rest ih =>
      have bound : arena.size < (arena.push
          { NfaState.blank with arcs := [⟨⟨char, char⟩, arena.size + 1⟩] }).size := by
        rw [Array.size_push]
        exact Nat.lt_succ_self _
      have edges := agrees arena.size (Nat.le_refl _) (by rw [size_chain]; omega)
        (by rw [List.length_cons]; omega)
      rw [chain, stateAt_chain_of_lt rest bound, stateAt_push, if_pos rfl] at edges
      refine ⟨edges.1, edges.2, ?_⟩
      have later := @ih (arena.push _) fun id low high different =>
        agrees id (Nat.le_of_lt (Nat.lt_of_lt_of_le bound low)) high fun same => different <| by
          rw [same, Array.size_push, List.length_cons]
          omega
      rwa [Array.size_push] at later

theorem compiled_literal (arena : Arena) (text : String) :
    Compiled arena (arena.chain text.toList) (.literal text)
      ⟨arena.size, arena.size + text.toList.length⟩ := by
  have size := size_chain arena text.toList
  refine ⟨⟨⟨Nat.le_refl _, ?_⟩, ⟨Nat.le_add_right .., ?_⟩, ?_, ?_, ?_⟩, ?_⟩
  · rw [size]
    simp only
    omega
  · rw [size]
    exact Nat.lt_succ_self _
  · exact fun id old => stateAt_chain_of_lt _ old
  · exact stateAt_chain_last arena _
  · exact fun id new => untagged_chain arena _ new
  · intro nfa agrees
    rw [size]
    exact .literal (chained_of_agrees agrees)

/-! ### Sequences -/

theorem size_joinAll (arena : Arena) (parts : List Fragment) :
    (arena.joinAll parts).size = arena.size := by
  fun_induction joinAll arena parts with
  | case1 arena first second rest ih => rw [ih, size_link]
  | case2 => rfl

theorem stateAt_joinAll_of_ne {parts : List Fragment} {id : Nat}
    (different : ∀ part ∈ parts, id ≠ part.accept) :
    (arena.joinAll parts).stateAt id = arena.stateAt id := by
  fun_induction joinAll arena parts with
  | case1 arena first second rest ih =>
      rw [ih (List.forall_mem_cons.mp different).2,
        stateAt_link_of_ne _ (different first List.mem_cons_self)]
  | case2 => rfl

theorem stateAt_joinAll_congr {other : Arena} {parts : List Fragment} {id : Nat}
    (inRange : ∀ part ∈ parts, part.accept < arena.size) (size : other.size = arena.size)
    (same : other.stateAt id = arena.stateAt id) :
    (other.joinAll parts).stateAt id = (arena.joinAll parts).stateAt id := by
  fun_induction joinAll arena parts generalizing other with
  | case1 arena first second rest ih =>
      obtain ⟨firstInRange, restInRange⟩ := List.forall_mem_cons.mp inRange
      rw [joinAll]
      apply ih
      · simpa only [size_link] using restInRange
      · rw [size_link, size_link, size]
      · by_cases linked : id = first.accept
        · subst linked
          rw [stateAt_link_self _ firstInRange, stateAt_link_self _ (size ▸ firstInRange), same]
        · rw [stateAt_link_of_ne _ linked, stateAt_link_of_ne _ linked, same]
  | case2 arena parts short => 
      rw [joinAll]
      · exact same
      · exact short

structure Laid (arena grown : Arena) (items : List Pattern) (parts : List Fragment) : Prop where
  empty : parts = [] → items = [] ∧ grown = arena
  size_le : arena.size ≤ grown.size
  old : ∀ id < arena.size, grown.stateAt id = arena.stateAt id
  untagged : ∀ id, arena.size ≤ id → (grown.stateAt id).tag = none
  accepts : ∀ part ∈ parts, arena.size ≤ part.accept ∧ part.accept < grown.size
  joined : ∀ first rest, parts = first :: rest →
    Compiled arena (grown.joinAll parts) (.sequence items)
      ⟨first.start, ((first :: rest).getLast (List.cons_ne_nil _ _)).accept⟩

theorem laid_nil (arena : Arena) : Laid arena arena [] [] :=
  ⟨fun _ => ⟨rfl, rfl⟩, Nat.le_refl _, fun _ _ => rfl,
    fun id new => by rw [stateAt_of_size_le new]; rfl, nofun, nofun⟩

theorem compiled_join {middle : Arena} {item : Pattern} {items : List Pattern}
    {first second : Fragment} {rest : List Fragment} {accept : Nat}
    (head : Compiled arena middle item first)
    (tail : Compiled middle (grown.joinAll (second :: rest)) (.sequence items)
      ⟨second.start, accept⟩)
    (accepts : ∀ part ∈ second :: rest, middle.size ≤ part.accept ∧ part.accept < grown.size)
    (old : ∀ id < middle.size, grown.stateAt id = middle.stateAt id) :
    Compiled arena (grown.joinAll (first :: second :: rest)) (.sequence (item :: items))
      ⟨first.start, accept⟩ := by
  have firstStart := head.start_inside
  have firstAccept := head.accept_inside
  have lastAccept := tail.accept_inside
  have size := size_joinAll grown (first :: second :: rest)
  rw [size_joinAll] at lastAccept
  simp only at lastAccept
  have behind : ∀ id, id ≠ first.accept → (grown.joinAll (first :: second :: rest)).stateAt id =
      (grown.joinAll (second :: rest)).stateAt id := by
    intro id different
    exact stateAt_joinAll_congr (fun part member => (accepts part member).2) (size_link ..)
      (stateAt_link_of_ne _ different)
  have link : (grown.joinAll (first :: second :: rest)).stateAt first.accept =
      ⟨[], [second.start], none⟩ := by
    have apart : ∀ part ∈ second :: rest, first.accept ≠ part.accept := fun part member same =>
      Nat.not_lt_of_le (accepts part member).1 (same ▸ firstAccept.2)
    rw [joinAll, stateAt_joinAll_of_ne apart, stateAt_link_self _ (by omega), old _ firstAccept.2,
      head.bare]
    rfl
  have front : ∀ id < middle.size, id ≠ first.accept →
      (grown.joinAll (first :: second :: rest)).stateAt id = middle.stateAt id :=
    fun id low different => (behind id different).trans (tail.old id low)
  refine ⟨⟨⟨firstStart.1, by rw [size]; simp only; omega⟩,
    ⟨by simp only; omega, by rw [size]; exact lastAccept.2⟩, ?_, ?_, ?_⟩, ?_⟩
  · intro id low
    rw [front id (by omega) (by omega), head.old id low]
  · exact (behind accept (by omega)).trans tail.bare
  · intro id new
    by_cases linked : id = first.accept
    · rw [linked, link]
    · by_cases low : id < middle.size
      · rw [front id low linked]
        exact head.untagged id new
      · rw [behind id linked]
        exact tail.untagged id (Nat.le_of_not_lt low)
  · intro nfa agrees
    rw [size]
    have firstAgrees : Agrees nfa arena.size first.accept middle := by
      intro id low high different
      have edges := agrees id low (by omega) (by simp only; omega)
      rwa [front id high different] at edges
    have restAgrees : Agrees nfa middle.size accept (grown.joinAll (second :: rest)) := by
      intro id low high different
      rw [size_joinAll] at high
      have edges := agrees id (by omega) (by omega) different
      rwa [behind id (by omega)] at edges
    have edges := agrees first.accept firstAccept.1 (by omega) (by simp only; omega)
    rw [link] at edges
    have rests := tail.recognizes nfa restAgrees
    rw [size_joinAll] at rests
    exact .sequenceCons (head.recognizes nfa firstAgrees) rests edges.1 edges.2

theorem laid_cons {middle : Arena} {item : Pattern} {items : List Pattern} {first : Fragment}
    {rest : List Fragment} (head : Compiled arena middle item first)
    (tail : Laid middle grown items rest) : Laid arena grown (item :: items) (first :: rest) := by
  have firstAccept := head.accept_inside
  have grows := tail.size_le
  refine ⟨nofun, by omega, ?_, ?_, ?_, ?_⟩
  · intro id low
    rw [tail.old id (by omega), head.old id low]
  · intro id new
    by_cases low : id < middle.size
    · rw [tail.old id low]
      exact head.untagged id new
    · exact tail.untagged id (Nat.le_of_not_lt low)
  · refine List.forall_mem_cons.mpr ⟨by omega, fun part member => ?_⟩
    have inside := tail.accepts part member
    omega
  · intro other others same
    cases same
    cases rest with
    | nil =>
        obtain ⟨rfl, rfl⟩ := tail.empty rfl
        exact ⟨head.toFramed, fun nfa agrees => .sequenceSingle (head.recognizes nfa agrees)⟩
    | cons second rest =>
        rw [List.getLast_cons (List.cons_ne_nil _ _)]
        exact compiled_join head (tail.joined second rest rfl) tail.accepts tail.old

theorem compiled_sequenceNil (arena : Arena) :
    Compiled arena (arena.push .blank) (.sequence []) ⟨arena.size, arena.size⟩ := by
  have inside : arena.size ≤ arena.size ∧ arena.size < (arena.push .blank).size :=
    ⟨Nat.le_refl _, by rw [Array.size_push]; exact Nat.lt_succ_self _⟩
  refine ⟨⟨inside, inside, ?_, ?_, ?_⟩, ?_⟩
  · intro id low
    rw [stateAt_push, if_neg (Nat.ne_of_lt low)]
  · exact (stateAt_push ..).trans (if_pos rfl)
  · intro id new
    rw [stateAt_push, stateAt_of_size_le new, ite_self]
    rfl
  · intro nfa _
    rw [Array.size_push]
    exact .sequenceNil arena.size

/-! ### Alternatives -/

open Nfa.Recognizes (Branch)

structure Branched (arena grown : Arena) (outer : Fragment) (items : List Pattern) : Prop where
  size_le : arena.size ≤ grown.size
  old : ∀ id < arena.size, id ≠ outer.start → grown.stateAt id = arena.stateAt id
  untagged : ∀ id, arena.size ≤ id → (grown.stateAt id).tag = none
  entered : ∃ starts : List Nat,
    grown.stateAt outer.start =
      { arena.stateAt outer.start with
        epsilons := (arena.stateAt outer.start).epsilons ++ starts } ∧
    ∀ nfa, Agrees nfa arena.size outer.accept grown →
      (∀ start ∈ starts, ∃ item ∈ items,
        Branch nfa arena.size grown.size outer.accept item start) ∧
      ∀ item ∈ items, ∃ start ∈ starts,
        Branch nfa arena.size grown.size outer.accept item start

theorem branched_nil (arena : Arena) (outer : Fragment) : Branched arena arena outer [] := by
  refine ⟨Nat.le_refl _, fun _ _ _ => rfl, ?_, [], ?_, fun nfa _ => ⟨nofun, nofun⟩⟩
  · intro id new
    rw [stateAt_of_size_le new]
    rfl
  · rw [List.append_nil]

theorem branch_mono {nfa : Nfa} {lo low hi accept start : Nat} {item : Pattern}
    (branch : Branch nfa low hi accept item start) (lower : lo ≤ low) :
    Branch nfa lo hi accept item start := by
  obtain ⟨inner, inside, high, same, above, below, part⟩ := branch
  exact ⟨inner, inside, high, same, Nat.le_trans lower above, below, part⟩

theorem branched_cons {middle : Arena} {outer inner : Fragment} {item : Pattern}
    {items : List Pattern} (startInside : outer.start < arena.size)
    (acceptInside : outer.accept < arena.size) (head : Compiled arena middle item inner)
    (tail : Branched (middle.fan outer inner) grown outer items) :
    Branched arena grown outer (item :: items) := by
  have innerAccept := head.accept_inside
  have size := size_fan middle outer inner
  have grows := tail.size_le
  rw [size] at grows
  have fanned : ∀ id, id ≠ outer.start → id ≠ inner.accept →
      (middle.fan outer inner).stateAt id = middle.stateAt id := by
    intro id notStart notAccept
    rw [fan, stateAt_link_of_ne _ notAccept, stateAt_link_of_ne _ notStart]
  have kept : ∀ id < middle.size, id ≠ outer.start → id ≠ inner.accept →
      grown.stateAt id = middle.stateAt id := fun id low notStart notAccept =>
    (tail.old id (size ▸ low) notStart).trans (fanned id notStart notAccept)
  have left : grown.stateAt inner.accept = ⟨[], [outer.accept], none⟩ := by
    rw [tail.old _ (size ▸ innerAccept.2) (by omega), fan,
      stateAt_link_self _ (by rw [size_link]; exact innerAccept.2), stateAt_link_of_ne _ (by omega),
      head.bare]
    rfl
  obtain ⟨starts, startEdges, branches⟩ := tail.entered
  refine ⟨by omega, ?_, ?_, inner.start :: starts, ?_, ?_⟩
  · intro id low notStart
    rw [kept id (by omega) notStart (by omega), head.old id low]
  · intro id new
    by_cases isAccept : id = inner.accept
    · rw [isAccept, left]
    · by_cases low : id < middle.size
      · rw [kept id low (by omega) isAccept]
        exact head.untagged id new
      · exact tail.untagged id (size ▸ Nat.le_of_not_lt low)
  · rw [startEdges, fan, stateAt_link_of_ne _ (by omega), stateAt_link_self _ (by omega),
      head.old _ startInside, List.append_assoc, List.singleton_append]
  · intro nfa agrees
    have innerAgrees : Agrees nfa arena.size inner.accept middle := by
      intro id low high different
      have edges := agrees id low (by omega) (by omega)
      rwa [kept id high (by omega) different] at edges
    have edges := agrees inner.accept innerAccept.1 (by omega) (by omega)
    rw [left] at edges
    have first : Branch nfa arena.size grown.size outer.accept item inner.start :=
      ⟨inner, arena.size, middle.size, rfl, Nat.le_refl _, grows,
        head.recognizes nfa innerAgrees, edges.1, edges.2⟩
    have restAgrees : Agrees nfa (middle.fan outer inner).size outer.accept grown :=
      fun id low high different => agrees id (by rw [size] at low; omega) high different
    obtain ⟨each, offered⟩ := branches nfa restAgrees
    have lower : arena.size ≤ (middle.fan outer inner).size := by omega
    refine ⟨List.forall_mem_cons.mpr ⟨⟨item, List.mem_cons_self, first⟩, ?_⟩,
      List.forall_mem_cons.mpr ⟨⟨inner.start, List.mem_cons_self, first⟩, ?_⟩⟩
    · intro start member
      obtain ⟨other, inItems, branch⟩ := each start member
      exact ⟨other, List.mem_cons_of_mem _ inItems, branch_mono branch lower⟩
    · intro other inItems
      obtain ⟨start, member, branch⟩ := offered other inItems
      exact ⟨start, List.mem_cons_of_mem _ member, branch_mono branch lower⟩

theorem compiled_alternative {items : List Pattern}
    (branched : Branched ((arena.push .blank).push .blank) grown ⟨arena.size, arena.size + 1⟩
      items) :
    Compiled arena grown (.alternative items) ⟨arena.size, arena.size + 1⟩ := by
  have size := arena.size_blanks
  have blank : ∀ id, arena.size ≤ id → stateAt ((arena.push .blank).push .blank) id = .blank := by
    intro id new
    rw [stateAt_push, stateAt_push, stateAt_of_size_le new, ite_self, ite_self]
  have grows := branched.size_le
  have untagged := branched.untagged
  have old := branched.old
  obtain ⟨starts, startEdges, branches⟩ := branched.entered
  rw [size] at grows untagged branches old
  simp only at startEdges branches old
  rw [blank _ (Nat.le_refl _)] at startEdges
  have accept := (old (arena.size + 1) (by omega) (by omega)).trans (blank _ (by omega))
  refine ⟨⟨⟨Nat.le_refl _, by simp only; omega⟩, ⟨Nat.le_succ _, by simp only; omega⟩, ?_,
    accept, ?_⟩, ?_⟩
  · intro id low
    rw [old id (by omega) (by omega), stateAt_push, if_neg (by rw [Array.size_push]; omega),
      stateAt_push, if_neg (by omega)]
  · intro id new
    by_cases isStart : id = arena.size
    · rw [isStart, startEdges]
      rfl
    · by_cases isAccept : id = arena.size + 1
      · rw [isAccept, accept]
        rfl
      · exact untagged id (by omega)
  · intro nfa agrees
    have edges := agrees arena.size (Nat.le_refl _) (by omega) (by simp only; omega)
    rw [startEdges] at edges
    have silent : nfa.epsilonsOf arena.size = starts := edges.2
    obtain ⟨each, offered⟩ := branches nfa fun id low high different =>
      agrees id (by omega) high different
    refine .alternative (by omega) edges.1 ?_ ?_
    · rwa [silent]
    · rwa [silent]

/-! ### Repetition -/

/-- A part stands between a new start and accept state, and may be passed by or
repeated. -/
structure Wrapped (grown final : Arena) (body : Fragment) (skips repeats : Bool) : Prop where
  inside : body.accept < grown.size
  size : final.size = grown.size + 2
  kept : ∀ id < grown.size, id ≠ body.accept → final.stateAt id = grown.stateAt id
  start : final.stateAt grown.size =
    ⟨[], body.start :: if skips then [grown.size + 1] else [], none⟩
  left : final.stateAt body.accept =
    ⟨[], (grown.size + 1) :: if repeats then [body.start] else [], none⟩
  accept : final.stateAt (grown.size + 1) = .blank

theorem wrapped_bracket {body : Fragment} (inside : body.accept < grown.size)
    (bare : grown.stateAt body.accept = .blank) :
    Wrapped grown (grown.bracket body).1 body false false := by
  have states : ∀ id, id ≠ body.accept → id ≠ grown.size →
      (grown.bracket body).1.stateAt id = grown.stateAt id := by
    intro id notAccept notStart
    rw [bracket, stateAt_link_of_ne _ notAccept, stateAt_link_of_ne _ notStart, stateAt_push]
    split
    case isTrue last =>
      rw [Array.size_push] at last
      rw [stateAt_of_size_le (by omega)]
    case isFalse => rw [stateAt_push, if_neg notStart]
  have blank : stateAt ((grown.push .blank).push .blank) grown.size = .blank := by
    rw [stateAt_push, stateAt_push, if_pos rfl, ite_self]
  refine ⟨inside, ?_, fun id low notAccept => states id notAccept (by omega), ?_, ?_, ?_⟩
  · simp only [bracket, size_link, Array.size_push]
  · rw [bracket, stateAt_link_of_ne _ (by omega),
      stateAt_link_self _ (by simp only [Array.size_push]; omega), blank]
    rfl
  · rw [bracket, stateAt_link_self _ (by simp only [size_link, Array.size_push]; omega),
      stateAt_link_of_ne _ (by omega), stateAt_push, if_neg (by rw [Array.size_push]; omega),
      stateAt_push, if_neg (by omega), bare]
    rfl
  · rw [states _ (by omega) (by omega), stateAt_of_size_le (Nat.le_succ _)]

namespace Wrapped

variable {final : Arena} {body : Fragment} {skips repeats : Bool}

theorem skip (wrapped : Wrapped grown final body false repeats) :
    Wrapped grown (final.link grown.size (grown.size + 1)) body true repeats := by
  have inside := wrapped.inside
  have size := wrapped.size
  refine ⟨inside, (size_link ..).trans size, ?_, ?_, ?_, ?_⟩
  · intro id low different
    rw [stateAt_link_of_ne _ (by omega), wrapped.kept id low different]
  · rw [stateAt_link_self _ (by omega), wrapped.start]
    rfl
  · rw [stateAt_link_of_ne _ (by omega), wrapped.left]
  · rw [stateAt_link_of_ne _ (by omega), wrapped.accept]

theorem again (wrapped : Wrapped grown final body skips false) :
    Wrapped grown (final.link body.accept body.start) body skips true := by
  have inside := wrapped.inside
  have size := wrapped.size
  refine ⟨inside, (size_link ..).trans size, ?_, ?_, ?_, ?_⟩
  · intro id low different
    rw [stateAt_link_of_ne _ different, wrapped.kept id low different]
  · rw [stateAt_link_of_ne _ (by omega), wrapped.start]
  · rw [stateAt_link_self _ (by omega), wrapped.left]
    rfl
  · rw [stateAt_link_of_ne _ (by omega), wrapped.accept]

open Nfa.Recognizes (Rounds Bracketed)

theorem compiled (wrapped : Wrapped grown final body skips repeats) {pattern outer : Pattern}
    (inner : Compiled arena grown pattern body)
    (counts : ∀ text, outer.Matches text ↔ Rounds pattern skips repeats text) :
    Compiled arena final outer ⟨grown.size, grown.size + 1⟩ := by
  have inside := inner.accept_inside
  have size := wrapped.size
  refine ⟨⟨⟨by simp only; omega, by simp only; omega⟩, ⟨by simp only; omega, by simp only; omega⟩,
    ?_, wrapped.accept, ?_⟩, ?_⟩
  · intro id low
    rw [wrapped.kept id (by omega) (by omega), inner.old id low]
  · intro id new
    by_cases isLeft : id = body.accept
    · rw [isLeft, wrapped.left]
    · by_cases isStart : id = grown.size
      · rw [isStart, wrapped.start]
      · by_cases low : id < grown.size
        · rw [wrapped.kept id low isLeft]
          exact inner.untagged id new
        · by_cases isAccept : id = grown.size + 1
          · rw [isAccept, wrapped.accept]
            rfl
          · rw [stateAt_of_size_le (by omega)]
            rfl
  · intro nfa agrees
    have bodyAgrees : Agrees nfa arena.size body.accept grown := by
      intro id low high different
      have edges := agrees id low (by omega) (by simp only; omega)
      rwa [wrapped.kept id high different] at edges
    have startEdges := agrees grown.size (by omega) (by omega) (by simp only; omega)
    have leftEdges := agrees body.accept inside.1 (by omega) (by simp only; omega)
    rw [wrapped.start] at startEdges
    rw [wrapped.left] at leftEdges
    have bracketed : Bracketed nfa pattern arena.size grown.size skips repeats body := by
      refine ⟨inner.recognizes nfa bodyAgrees, startEdges.1, ?_, leftEdges.1, ?_⟩
      · intro target
        rw [Nfa.epsilonsOf, startEdges.2]
        cases skips <;> simp
      · intro target
        rw [Nfa.epsilonsOf, leftEdges.2]
        cases repeats <;> simp
    rw [size]
    exact bracketed.recognizes counts

end Wrapped

/-! ### Operators -/

theorem fragment_optional {inner : Pattern}
    (body : Compiled arena (arena.fragment inner).1 inner (arena.fragment inner).2) :
    ∃ final, arena.fragment (.optional inner) =
        (final, ⟨(arena.fragment inner).1.size, (arena.fragment inner).1.size + 1⟩) ∧
      Wrapped (arena.fragment inner).1 final (arena.fragment inner).2 true false := by
  rw [fragment]
  exact ⟨_, rfl, (wrapped_bracket body.accept_inside.2 body.bare).skip⟩

theorem fragment_zeroOrMore {inner : Pattern}
    (body : Compiled arena (arena.fragment inner).1 inner (arena.fragment inner).2) :
    ∃ final, arena.fragment (.zeroOrMore inner) =
        (final, ⟨(arena.fragment inner).1.size, (arena.fragment inner).1.size + 1⟩) ∧
      Wrapped (arena.fragment inner).1 final (arena.fragment inner).2 true true := by
  rw [fragment]
  exact ⟨_, rfl, (wrapped_bracket body.accept_inside.2 body.bare).skip.again⟩

theorem fragment_oneOrMore {inner : Pattern}
    (body : Compiled arena (arena.fragment inner).1 inner (arena.fragment inner).2) :
    ∃ final, arena.fragment (.oneOrMore inner) =
        (final, ⟨(arena.fragment inner).1.size, (arena.fragment inner).1.size + 1⟩) ∧
      Wrapped (arena.fragment inner).1 final (arena.fragment inner).2 false true := by
  rw [fragment]
  exact ⟨_, rfl, (wrapped_bracket body.accept_inside.2 body.bare).again⟩

/-! ### Every pattern -/

theorem matches_range_iff {lo hi : Char} (text : List Char) :
    (Pattern.range lo hi).Matches text ↔
      ∃ char, text = [char] ∧ ∃ range ∈ [CharRange.mk lo hi], range.contains char = true := by
  simp only [List.mem_singleton, exists_eq_left, CharRange.contains, Bool.and_eq_true,
    decide_eq_true_eq]
  constructor
  · intro matched
    cases matched with
    | range inside => exact ⟨_, rfl, inside⟩
  · rintro ⟨char, rfl, inside⟩
    exact .range inside

theorem matches_set_iff {chars : CharSet} (text : List Char) :
    (Pattern.set chars).Matches text ↔
      ∃ char, text = [char] ∧ ∃ range ∈ chars.ranges, range.contains char = true := by
  constructor
  · intro matched
    cases matched with
    | set member => exact ⟨_, rfl, List.any_eq_true.mp member⟩
  · rintro ⟨char, rfl, member⟩
    exact .set (List.any_eq_true.mpr member)

theorem matches_any_iff {domain : CharDomain} (text : List Char) :
    (Pattern.any domain).Matches text ↔
      ∃ char, text = [char] ∧ ∃ range ∈ [domain.range], range.contains char = true := by
  simp only [List.mem_singleton, exists_eq_left]
  constructor
  · intro matched
    cases matched with
    | any inside => exact ⟨_, rfl, inside⟩
  · rintro ⟨char, rfl, inside⟩
    exact .any inside

theorem matches_anyExcept_iff {excluded : CharSet} {domain : CharDomain} (text : List Char) :
    (Pattern.anyExcept excluded domain).Matches text ↔
      ∃ char, text = [char] ∧
        ∃ range ∈ excluded.complementIn domain, range.contains char = true := by
  change _ ↔ ∃ char, text = [char] ∧ CharSet.Holds (excluded.complementIn domain) char
  simp only [CharSet.holds_complementIn_iff]
  constructor
  · intro matched
    cases matched with
    | anyExcept inside outside => exact ⟨_, rfl, inside, outside⟩
  · rintro ⟨char, rfl, inside, outside⟩
    exact .anyExcept inside outside

mutual

/-- Adding a pattern to an arena gives a part that recognizes it. -/
theorem fragment_compiled (arena : Arena) (pattern : Pattern) :
    Compiled arena (arena.fragment pattern).1 pattern (arena.fragment pattern).2 := by
  cases pattern with
  | literal text =>
      rw [fragment]
      exact compiled_literal arena text
  | range lo hi =>
      rw [fragment]
      exact compiled_hop arena matches_range_iff
  | set chars =>
      rw [fragment]
      exact compiled_hop arena matches_set_iff
  | any domain =>
      rw [fragment]
      exact compiled_hop arena matches_any_iff
  | anyExcept excluded domain =>
      rw [fragment]
      exact compiled_hop arena matches_anyExcept_iff
  | sequence items =>
      have laid := fragments_laid arena items
      rw [fragment]
      generalize arena.fragments items = built at laid ⊢
      obtain ⟨grown, parts⟩ := built
      cases parts with
      | cons first rest => exact laid.joined first rest rfl
      | nil =>
          obtain ⟨rfl, same⟩ := laid.empty rfl
          subst same
          exact compiled_sequenceNil grown
  | alternative items =>
      rw [fragment]
      refine compiled_alternative (branches_branched _ _ items ?_ ?_)
      · simp only [Array.size_push]
        omega
      · simp only [Array.size_push]
        omega
  | optional inner =>
      have body := fragment_compiled arena inner
      obtain ⟨final, same, wrapped⟩ := fragment_optional body
      rw [same]
      exact wrapped.compiled body fun text => Nfa.Recognizes.matches_optional_iff
  | zeroOrMore inner =>
      have body := fragment_compiled arena inner
      obtain ⟨final, same, wrapped⟩ := fragment_zeroOrMore body
      rw [same]
      exact wrapped.compiled body fun text => Nfa.Recognizes.matches_zeroOrMore_iff
  | oneOrMore inner =>
      have body := fragment_compiled arena inner
      obtain ⟨final, same, wrapped⟩ := fragment_oneOrMore body
      rw [same]
      exact wrapped.compiled body fun text => Nfa.Recognizes.matches_oneOrMore_iff

theorem fragments_laid (arena : Arena) (items : List Pattern) :
    Laid arena (arena.fragments items).1 items (arena.fragments items).2 := by
  cases items with
  | nil =>
      rw [fragments]
      exact laid_nil arena
  | cons item rest =>
      have head := fragment_compiled arena item
      have tail := fragments_laid (arena.fragment item).1 rest
      rw [fragments]
      generalize arena.fragment item = built at head tail ⊢
      obtain ⟨middle, first⟩ := built
      dsimp only at tail ⊢
      generalize fragments middle rest = others at tail ⊢
      exact laid_cons head tail

theorem branches_branched (arena : Arena) (outer : Fragment) (items : List Pattern)
    (startInside : outer.start < arena.size) (acceptInside : outer.accept < arena.size) :
    Branched arena (arena.branches outer items) outer items := by
  cases items with
  | nil =>
      rw [branches]
      exact branched_nil arena outer
  | cons item rest =>
      have head := fragment_compiled arena item
      have bound := head.accept_inside
      have size := size_fan (arena.fragment item).1 outer (arena.fragment item).2
      have tail := branches_branched ((arena.fragment item).1.fan outer (arena.fragment item).2)
        outer rest (by omega) (by omega)
      rw [branches]
      generalize arena.fragment item = built at head tail ⊢
      exact branched_cons startInside acceptInside head tail

end

/-! ### Token rules -/

theorem size_setTag (arena : Arena) (id : Nat) (tag : AcceptTag) :
    (arena.setTag id tag).size = arena.size := Array.size_modify

theorem stateAt_setTag_of_ne {tagged id : Nat} (tag : AcceptTag) (different : id ≠ tagged) :
    (arena.setTag tagged tag).stateAt id = arena.stateAt id := by
  rw [stateAt, stateAt, setTag, Array.getD_eq_getD_getElem?, Array.getElem?_modify,
    if_neg fun same => different same.symm, Array.getD_eq_getD_getElem?]

theorem stateAt_setTag_self {id : Nat} (tag : AcceptTag) (inRange : id < arena.size) :
    (arena.setTag id tag).stateAt id = { arena.stateAt id with tag := some tag } := by
  simp only [stateAt, setTag, Array.getD_eq_getD_getElem?, Array.getElem?_modify, if_true,
    Array.getElem?_eq_getElem inRange, Option.map_some, Option.getD_some]

end Predictive.Arena

namespace Predictive.Nfa

open Arena (stateAt)

/-- A part that recognizes a token rule. It has one tag, where nothing leads on. -/
def Offers (nfa : Nfa) (start index : Nat) (rule : TokenRule) : Prop :=
  ∃ inner low high, inner.start = start ∧ nfa.Recognizes rule.pattern low high inner ∧
    nfa.stateAt inner.accept = ⟨[], [], some ⟨rule.name, rule.priority, index⟩⟩ ∧
      ∀ id, low ≤ id → id < high → id ≠ inner.accept → nfa.tagOf id = none

structure Tokened (start : Nat) (arena grown : Arena) (index : Nat) (rules : List TokenRule) :
    Prop where
  old : ∀ id < arena.size, id ≠ start → grown.stateAt id = arena.stateAt id
  entered : ∃ starts : List Nat,
    grown.stateAt start =
      { arena.stateAt start with epsilons := (arena.stateAt start).epsilons ++ starts } ∧
    ∀ nfa : Nfa, (∀ id, arena.size ≤ id → nfa.stateAt id = grown.stateAt id) →
      (∀ entry ∈ starts, ∃ place rule, rules[place]? = some rule ∧
        nfa.Offers entry (index + place) rule) ∧
      ∀ place rule, rules[place]? = some rule → ∃ entry ∈ starts,
        nfa.Offers entry (index + place) rule

theorem tokened_cons {start index : Nat} {arena middle grown : Arena} {inner : Fragment}
    {rule : TokenRule} {rules : List TokenRule} (inRange : start < arena.size)
    (head : arena.Compiled middle rule.pattern inner)
    (tail : Tokened start ((middle.link start inner.start).setTag inner.accept
      ⟨rule.name, rule.priority, index⟩) grown (index + 1) rules) :
    Tokened start arena grown index (rule :: rules) := by
  have accept := head.accept_inside
  have old := tail.old
  obtain ⟨starts, startEdges, offers⟩ := tail.entered
  rw [Arena.size_setTag, Arena.size_link] at old offers
  have kept : ∀ id < middle.size, id ≠ start → id ≠ inner.accept →
      grown.stateAt id = middle.stateAt id := by
    intro id low notStart notAccept
    rw [old id low notStart, Arena.stateAt_setTag_of_ne _ notAccept,
      Arena.stateAt_link_of_ne _ notStart]
  have tagged : grown.stateAt inner.accept = ⟨[], [], some ⟨rule.name, rule.priority, index⟩⟩ := by
    rw [old _ accept.2 (by omega), Arena.stateAt_setTag_self _ (by rw [Arena.size_link]; omega),
      Arena.stateAt_link_of_ne _ (by omega), head.bare]
    rfl
  refine ⟨?_, inner.start :: starts, ?_, ?_⟩
  · intro id low notStart
    rw [kept id (by omega) notStart (by omega), head.old id low]
  · rw [startEdges, Arena.stateAt_setTag_of_ne _ (by omega),
      Arena.stateAt_link_self _ (by omega), head.old _ inRange, List.append_assoc,
      List.singleton_append]
  · intro nfa agrees
    have innerAgrees : Arena.Agrees nfa arena.size inner.accept middle := by
      intro id low high different
      rw [agrees id low, kept id high (by omega) different]
      exact ⟨rfl, rfl⟩
    have first : nfa.Offers inner.start (index + 0) rule := by
      refine ⟨inner, arena.size, middle.size, rfl, head.recognizes nfa innerAgrees, ?_, ?_⟩
      · rw [agrees _ accept.1, tagged]
        rfl
      · intro id low high different
        rw [tagOf, agrees id low, kept id high (by omega) different]
        exact head.untagged id low
    obtain ⟨each, offered⟩ := offers nfa fun id new => agrees id (by omega)
    refine ⟨List.forall_mem_cons.mpr ⟨⟨0, rule, rfl, first⟩, ?_⟩, ?_⟩
    · intro entry member
      obtain ⟨place, other, found, offer⟩ := each entry member
      rw [Nat.add_assoc, Nat.add_comm 1] at offer
      exact ⟨place + 1, other, found, offer⟩
    · intro place other found
      cases place with
      | zero =>
          cases found
          exact ⟨inner.start, List.mem_cons_self, first⟩
      | succ place =>
          obtain ⟨entry, member, offer⟩ := offered place other found
          rw [Nat.add_assoc, Nat.add_comm 1] at offer
          exact ⟨entry, List.mem_cons_of_mem _ member, offer⟩

theorem addTokens_tokened {start : Nat} {arena : Arena} (index : Nat) (rules : List TokenRule)
    (inRange : start < arena.size) :
    Tokened start arena (addTokens start arena index rules) index rules := by
  induction rules generalizing arena index with
  | nil =>
      refine ⟨fun _ _ _ => rfl, [], ?_, fun nfa _ => ⟨nofun, nofun⟩⟩
      rw [List.append_nil]
      rfl
  | cons rule rules ih =>
      have head := Arena.fragment_compiled arena rule.pattern
      have bound := head.accept_inside
      refine tokened_cons inRange head (ih (index + 1) ?_)
      rw [Arena.size_setTag, Arena.size_link]
      omega

theorem Offers.tag_of_walk {nfa : Nfa} {start index : Nat} {rule : TokenRule}
    (offers : nfa.Offers start index rule) {steps id : Nat} {text : List Char} {tag : AcceptTag}
    (walk : nfa.Walk steps start text id) (tagged : nfa.tagOf id = some tag) :
    rule.pattern.Matches text ∧ tag = ⟨rule.name, rule.priority, index⟩ := by
  obtain ⟨inner, low, high, rfl, part, accept, untagged⟩ := offers
  have beyond : Beyond low high inner.accept id := by
    by_cases inside : low ≤ id ∧ id < high ∧ id ≠ inner.accept
    · rw [untagged id inside.1 inside.2.1 inside.2.2] at tagged
      cases tagged
    · unfold Beyond
      omega
  obtain ⟨left, right, fewer, rfl, -, matched, later⟩ := part.split walk beyond
  cases later with
  | refl =>
      rw [tagOf, accept] at tagged
      cases tagged
      rw [List.append_nil]
      exact ⟨matched, rfl⟩
  | epsilon edge =>
      rw [epsilonsOf, accept] at edge
      cases edge
  | arc edge =>
      rw [arcsOf, accept] at edge
      cases edge

theorem ofGrammar_tagged_iff (grammar : LexicalGrammar) (text : List Char) (tag : AcceptTag) :
    (∃ id, (ofGrammar grammar).Path 0 text id ∧ (ofGrammar grammar).tagOf id = some tag) ↔
      ∃ index rule, grammar.tokens[index]? = some rule ∧ rule.pattern.Matches text ∧
        tag = ⟨rule.name, rule.priority, index⟩ := by
  have tokened : Tokened 0 #[NfaState.blank] (ofGrammar grammar).states 0 grammar.tokens :=
    addTokens_tokened 0 grammar.tokens Nat.zero_lt_one
  obtain ⟨starts, startState, parts⟩ := tokened.entered
  obtain ⟨each, offered⟩ := parts (ofGrammar grammar) fun _ _ => rfl
  simp only [Nat.zero_add] at each offered
  have start : (ofGrammar grammar).stateAt 0 = ⟨[], starts, none⟩ := startState
  constructor
  · rintro ⟨id, path, tagged⟩
    obtain ⟨steps, walk⟩ := path.walk
    have goesOn : id ≠ 0 := by
      rintro rfl
      rw [tagOf, start] at tagged
      cases tagged
    obtain ⟨entry, edge, fewer, -, onward⟩ :=
      walk.next (by rw [arcsOf, start]) goesOn
    rw [epsilonsOf, start] at edge
    obtain ⟨place, rule, found, offers⟩ := each entry edge
    exact ⟨place, rule, found, offers.tag_of_walk onward tagged⟩
  · rintro ⟨index, rule, found, matched, rfl⟩
    obtain ⟨entry, edge, inner, low, high, rfl, part, accept, -⟩ := offered index rule found
    refine ⟨inner.accept, .epsilon ?_ (part.path matched), ?_⟩
    · rw [epsilonsOf, start]
      exact edge
    · rw [tagOf, accept]

end Predictive.Nfa
