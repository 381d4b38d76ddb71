/-
What it means that a part of an automaton recognizes a pattern: a path from its
start to its accept state reads every text that the pattern matches, and a walk
that gets out of the part does so through the accept state, where it has read a
match. The ways to join parts keep this.
-/

import Predictive.Lexical.Fragment
import Predictive.Lexical.Language
import Predictive.Proofs.Lexical.Closure

namespace Predictive.Nfa

variable {nfa : Nfa}

inductive Walk (nfa : Nfa) : Nat → Nat → List Char → Nat → Prop where
  | refl (id : Nat) : Walk nfa 0 id [] id
  | epsilon {steps first second third : Nat} {text : List Char}
      (edge : second ∈ nfa.epsilonsOf first) (others : Walk nfa steps second text third) :
      Walk nfa (steps + 1) first text third
  | arc {steps first third : Nat} {arc : Arc} {char : Char} {text : List Char}
      (edge : arc ∈ nfa.arcsOf first) (inside : arc.range.contains char = true)
      (others : Walk nfa steps arc.target text third) :
      Walk nfa (steps + 1) first (char :: text) third

theorem Path.walk {first last : Nat} {text : List Char} (path : nfa.Path first text last) :
    ∃ steps, nfa.Walk steps first text last := by
  induction path with
  | refl id => exact ⟨0, .refl id⟩
  | epsilon edge _ ih =>
      obtain ⟨steps, others⟩ := ih
      exact ⟨steps + 1, .epsilon edge others⟩
  | arc edge inside _ ih =>
      obtain ⟨steps, others⟩ := ih
      exact ⟨steps + 1, .arc edge inside others⟩

theorem Walk.next {steps first last : Nat} {text : List Char}
    (walk : nfa.Walk steps first text last) (bare : nfa.arcsOf first = []) (goesOn : last ≠ first) :
    ∃ second ∈ nfa.epsilonsOf first, ∃ fewer, fewer < steps ∧ nfa.Walk fewer second text last := by
  cases walk with
  | refl => exact (goesOn rfl).elim
  | @epsilon steps _ second _ _ edge others =>
      exact ⟨second, edge, steps, Nat.lt_succ_self steps, others⟩
  | arc edge =>
      rw [bare] at edge
      cases edge

def Beyond (lo hi accept id : Nat) : Prop := id = accept ∨ id < lo ∨ hi ≤ id

/-- The states from `lo` up to `hi`, entered and left by the states of a fragment,
recognize a pattern. -/
structure Recognizes (nfa : Nfa) (pattern : Pattern) (lo hi : Nat) (whole : Fragment) : Prop where
  start_inside : lo ≤ whole.start ∧ whole.start < hi
  accept_inside : lo ≤ whole.accept ∧ whole.accept < hi
  path : ∀ {text : List Char}, pattern.Matches text → nfa.Path whole.start text whole.accept
  split : ∀ {steps id : Nat} {text : List Char}, nfa.Walk steps whole.start text id →
    Beyond lo hi whole.accept id →
      ∃ left right fewer, text = left ++ right ∧ fewer ≤ steps ∧ pattern.Matches left ∧
        nfa.Walk fewer whole.accept right id

namespace Recognizes

/-! ### Single characters and literals -/

theorem hop {pattern : Pattern} {ranges : List CharRange} {lo : Nat}
    (single : ∀ text, pattern.Matches text ↔
      ∃ char, text = [char] ∧ ∃ range ∈ ranges, range.contains char = true)
    (arcs : nfa.arcsOf lo = ranges.map fun range => ⟨range, lo + 1⟩)
    (silent : nfa.epsilonsOf lo = []) : nfa.Recognizes pattern lo (lo + 2) ⟨lo, lo + 1⟩ := by
  refine ⟨⟨Nat.le_refl lo, by simp only; omega⟩, ⟨Nat.le_succ lo, Nat.lt_succ_self _⟩, ?_, ?_⟩
  · intro text matched
    obtain ⟨char, rfl, range, member, inside⟩ := (single text).mp matched
    have edge : ⟨range, lo + 1⟩ ∈ nfa.arcsOf lo := arcs ▸ List.mem_map_of_mem member
    exact .arc edge inside (.refl (lo + 1))
  · intro steps id text walk beyond
    cases walk with
    | refl =>
        rcases beyond with same | below | above
        · exact (Nat.succ_ne_self lo same.symm).elim
        · exact (Nat.lt_irrefl lo below).elim
        · simp only at above
          omega
    | epsilon edge =>
        rw [silent] at edge
        cases edge
    | @arc steps _ _ arc char text edge inside others =>
        rw [arcs] at edge
        obtain ⟨range, member, rfl⟩ := List.mem_map.mp edge
        exact ⟨[char], text, steps, rfl, Nat.le_succ steps,
          (single [char]).mpr ⟨char, rfl, range, member, inside⟩, others⟩

/-- The states from a number on read the characters one after another. -/
def Chained (nfa : Nfa) : Nat → List Char → Prop
  | _, [] => True
  | lo, char :: rest =>
      nfa.arcsOf lo = [⟨⟨char, char⟩, lo + 1⟩] ∧ nfa.epsilonsOf lo = [] ∧ Chained nfa (lo + 1) rest

theorem contains_self_iff {char other : Char} :
    (CharRange.mk char char).contains other = true ↔ other = char := by
  rw [CharRange.contains_iff, Scalar.eq_iff_rank_eq]
  change Scalar.rank char ≤ Scalar.rank other ∧ Scalar.rank other ≤ Scalar.rank char ↔ _
  omega

theorem path_of_chained {lo : Nat} {chars : List Char} (chained : Chained nfa lo chars) :
    nfa.Path lo chars (lo + chars.length) := by
  induction chars generalizing lo with
  | nil => exact .refl lo
  | cons char rest ih =>
      obtain ⟨arcs, -, others⟩ := chained
      have edge : ⟨⟨char, char⟩, lo + 1⟩ ∈ nfa.arcsOf lo := arcs ▸ List.mem_singleton_self _
      have later := ih others
      rw [Nat.add_assoc, Nat.add_comm 1] at later
      exact .arc edge (contains_self_iff.mpr rfl) later

theorem split_of_chained {lo : Nat} {chars : List Char} (chained : Chained nfa lo chars)
    {steps id : Nat} {text : List Char} (walk : nfa.Walk steps lo text id)
    (beyond : Beyond lo (lo + chars.length + 1) (lo + chars.length) id) :
    ∃ right fewer, text = chars ++ right ∧ fewer ≤ steps ∧
      nfa.Walk fewer (lo + chars.length) right id := by
  induction chars generalizing lo steps text with
  | nil => exact ⟨text, steps, rfl, Nat.le_refl steps, walk⟩
  | cons char rest ih =>
      obtain ⟨arcs, silent, others⟩ := chained
      rw [List.length_cons] at beyond ⊢
      have shifted : lo + (rest.length + 1) = lo + 1 + rest.length := by omega
      cases walk with
      | refl =>
          rcases beyond with same | below | above <;> omega
      | epsilon edge =>
          rw [silent] at edge
          cases edge
      | @arc steps _ _ arc read text edge inside walk =>
          rw [arcs, List.mem_singleton] at edge
          subst edge
          have further : Beyond (lo + 1) (lo + 1 + rest.length + 1) (lo + 1 + rest.length) id := by
            unfold Beyond at beyond ⊢
            omega
          obtain ⟨right, fewer, whole, within, later⟩ := ih others walk further
          refine ⟨right, fewer, ?_, Nat.le_succ_of_le within, shifted ▸ later⟩
          rw [contains_self_iff.mp inside, whole, List.cons_append]

theorem literal {text : String} {lo : Nat} (chained : Chained nfa lo text.toList) :
    nfa.Recognizes (.literal text) lo (lo + text.toList.length + 1)
      ⟨lo, lo + text.toList.length⟩ := by
  refine ⟨⟨Nat.le_refl lo, by simp only; omega⟩, ⟨Nat.le_add_right .., Nat.lt_succ_self _⟩, ?_, ?_⟩
  · intro read matched
    cases matched
    exact path_of_chained chained
  · intro steps id read walk beyond
    obtain ⟨right, fewer, whole, within, later⟩ := split_of_chained chained walk beyond
    exact ⟨text.toList, right, fewer, whole, within, .literal, later⟩

/-! ### Sequences -/

theorem sequenceNil (lo : Nat) : nfa.Recognizes (.sequence []) lo (lo + 1) ⟨lo, lo⟩ := by
  have inside : lo ≤ lo ∧ lo < lo + 1 := ⟨Nat.le_refl lo, Nat.lt_succ_self lo⟩
  refine ⟨inside, inside, ?_, ?_⟩
  · intro text matched
    cases matched
    exact .refl lo
  · intro steps id text walk _
    exact ⟨[], text, steps, rfl, Nat.le_refl steps, .sequenceNil, walk⟩

theorem sequenceSingle {item : Pattern} {lo hi : Nat} {whole : Fragment}
    (only : nfa.Recognizes item lo hi whole) : nfa.Recognizes (.sequence [item]) lo hi whole := by
  refine ⟨only.start_inside, only.accept_inside, ?_, ?_⟩
  · intro text matched
    cases matched with
    | sequenceCons first others =>
        cases others
        rw [List.append_nil]
        exact only.path first
  · intro steps id text walk beyond
    obtain ⟨left, right, fewer, rfl, within, matched, later⟩ := only.split walk beyond
    have single := Pattern.Matches.sequenceCons matched .sequenceNil
    rw [List.append_nil] at single
    exact ⟨left, right, fewer, rfl, within, single, later⟩

theorem sequenceCons {item : Pattern} {items : List Pattern} {lo middle hi : Nat}
    {first rest : Fragment} (head : nfa.Recognizes item lo middle first)
    (tail : nfa.Recognizes (.sequence items) middle hi rest)
    (bare : nfa.arcsOf first.accept = []) (joined : nfa.epsilonsOf first.accept = [rest.start]) :
    nfa.Recognizes (.sequence (item :: items)) lo hi ⟨first.start, rest.accept⟩ := by
  have firstStart := head.start_inside
  have firstAccept := head.accept_inside
  have restStart := tail.start_inside
  have restAccept := tail.accept_inside
  refine ⟨⟨firstStart.1, by simp only; omega⟩, ⟨by simp only; omega, restAccept.2⟩, ?_, ?_⟩
  · intro text matched
    cases matched with
    | sequenceCons left right =>
        have edge : rest.start ∈ nfa.epsilonsOf first.accept := joined ▸ List.mem_singleton_self _
        exact (head.path left).trans (.epsilon edge (tail.path right))
  · intro steps id text walk beyond
    change Beyond lo hi rest.accept id at beyond
    have leaves : Beyond lo middle first.accept id ∧ id ≠ first.accept := by
      unfold Beyond at beyond ⊢
      omega
    obtain ⟨left, between, fewer, rfl, within, matched, later⟩ := head.split walk leaves.1
    obtain ⟨second, edge, fewest, shorter, onward⟩ := later.next bare leaves.2
    rw [joined, List.mem_singleton] at edge
    subst edge
    have restLeaves : Beyond middle hi rest.accept id := by
      unfold Beyond at beyond ⊢
      omega
    obtain ⟨inner, right, last, rfl, shortest, others, final⟩ := tail.split onward restLeaves
    refine ⟨left ++ inner, right, last, (List.append_assoc ..).symm, by omega, ?_, final⟩
    exact .sequenceCons matched others

/-! ### Alternatives -/

/-- A part between two states that recognizes a pattern and leads on to a state
outside it. -/
def Branch (nfa : Nfa) (lo hi accept : Nat) (pattern : Pattern) (start : Nat) : Prop :=
  ∃ inner low high, inner.start = start ∧ lo ≤ low ∧ high ≤ hi ∧
    nfa.Recognizes pattern low high inner ∧ nfa.arcsOf inner.accept = [] ∧
      nfa.epsilonsOf inner.accept = [accept]

theorem alternative {items : List Pattern} {lo hi : Nat} (room : lo + 2 ≤ hi)
    (bare : nfa.arcsOf lo = [])
    (entered : ∀ start ∈ nfa.epsilonsOf lo, ∃ item ∈ items,
      Branch nfa (lo + 2) hi (lo + 1) item start)
    (offered : ∀ item ∈ items, ∃ start ∈ nfa.epsilonsOf lo,
      Branch nfa (lo + 2) hi (lo + 1) item start) :
    nfa.Recognizes (.alternative items) lo hi ⟨lo, lo + 1⟩ := by
  refine ⟨⟨Nat.le_refl lo, by simp only; omega⟩, ⟨Nat.le_succ lo, by simp only; omega⟩, ?_, ?_⟩
  · intro text matched
    cases matched with
    | alternative member chosen =>
        obtain ⟨start, edge, inner, low, high, rfl, -, -, part, -, joined⟩ := offered _ member
        have leaves : lo + 1 ∈ nfa.epsilonsOf inner.accept := joined ▸ List.mem_singleton_self _
        have through := (part.path chosen).trans (.epsilon leaves (.refl (lo + 1)))
        rw [List.append_nil] at through
        exact .epsilon edge through
  · intro steps id text walk beyond
    change Beyond lo hi (lo + 1) id at beyond
    have goesOn : id ≠ lo := by
      unfold Beyond at beyond
      omega
    obtain ⟨start, edge, fewer, shorter, onward⟩ := walk.next bare goesOn
    obtain ⟨item, member, inner, low, high, rfl, above, below, part, innerBare, joined⟩ :=
      entered start edge
    have accepts := part.accept_inside
    have leaves : Beyond low high inner.accept id ∧ id ≠ inner.accept := by
      unfold Beyond at beyond ⊢
      omega
    obtain ⟨left, right, fewest, rfl, within, matched, later⟩ := part.split onward leaves.1
    obtain ⟨last, lastEdge, final, shortest, ends⟩ := later.next innerBare leaves.2
    rw [joined, List.mem_singleton] at lastEdge
    subst lastEdge
    exact ⟨left, right, final, rfl, by omega, .alternative member matched, ends⟩

/-! ### Repetition -/

structure Bracketed (nfa : Nfa) (pattern : Pattern) (lo hi : Nat) (skips repeats : Bool)
    (body : Fragment) : Prop where
  part : nfa.Recognizes pattern lo hi body
  start_bare : nfa.arcsOf hi = []
  start_edges : ∀ target, target ∈ nfa.epsilonsOf hi ↔
    target = body.start ∨ skips = true ∧ target = hi + 1
  body_bare : nfa.arcsOf body.accept = []
  body_edges : ∀ target, target ∈ nfa.epsilonsOf body.accept ↔
    target = hi + 1 ∨ repeats = true ∧ target = body.start

/-- The text is so many matches of a pattern as passing by and repeating allow. -/
def Rounds (pattern : Pattern) (skips repeats : Bool) (text : List Char) : Prop :=
  ∃ rounds : List (List Char), text = rounds.flatten ∧ (∀ round ∈ rounds, pattern.Matches round) ∧
    (rounds = [] → skips = true) ∧ (1 < rounds.length → repeats = true)

namespace Bracketed

variable {pattern : Pattern} {lo hi : Nat} {skips repeats : Bool} {body : Fragment}

theorem path_of_rounds (bracketed : Bracketed nfa pattern lo hi skips repeats body)
    {round : List Char} {rounds : List (List Char)} (first : pattern.Matches round)
    (others : ∀ round ∈ rounds, pattern.Matches round)
    (again : rounds ≠ [] → repeats = true) :
    nfa.Path body.start (round ++ rounds.flatten) (hi + 1) := by
  refine (bracketed.part.path first).trans ?_
  induction rounds generalizing round with
  | nil => exact .epsilon ((bracketed.body_edges _).mpr (Or.inl rfl)) (.refl _)
  | cons second rounds ih =>
      have repeating := again (List.cons_ne_nil _ _)
      have edge := (bracketed.body_edges _).mpr (Or.inr ⟨repeating, rfl⟩)
      obtain ⟨matched, rest⟩ := List.forall_mem_cons.mp others
      have later := ih matched rest fun _ => repeating
      exact .epsilon edge ((bracketed.part.path matched).trans later)

/-- A walk that gets out of the part has read some matches. -/
theorem split_rounds (bracketed : Bracketed nfa pattern lo hi skips repeats body)
    {steps id : Nat} {text : List Char} (walk : nfa.Walk steps body.start text id)
    (beyond : Beyond lo (hi + 2) (hi + 1) id) :
    ∃ round rounds right fewer, text = round ++ List.flatten rounds ++ right ∧ fewer ≤ steps ∧
      pattern.Matches round ∧ (∀ round ∈ rounds, pattern.Matches round) ∧
        (rounds ≠ [] → repeats = true) ∧ nfa.Walk fewer (hi + 1) right id := by
  have accepts := bracketed.part.accept_inside
  have leaves : Beyond lo hi body.accept id ∧ id ≠ body.accept := by
    unfold Beyond at beyond ⊢
    omega
  induction steps using Nat.strongRecOn generalizing text with
  | ind steps ih =>
      obtain ⟨left, between, fewer, rfl, within, matched, later⟩ :=
        bracketed.part.split walk leaves.1
      obtain ⟨second, edge, fewest, shorter, onward⟩ := later.next bracketed.body_bare leaves.2
      rcases (bracketed.body_edges second).mp edge with rfl | ⟨repeating, rfl⟩
      · refine ⟨left, [], between, fewest, ?_, by omega, matched, nofun, nofun, onward⟩
        rw [List.flatten_nil, List.append_nil]
      · obtain ⟨round, rounds, right, last, rfl, shortest, roundMatched, others, -, final⟩ :=
          ih fewest (by omega) onward
        refine ⟨left, round :: rounds, right, last, ?_, by omega, matched,
          List.forall_mem_cons.mpr ⟨roundMatched, others⟩, fun _ => repeating, final⟩
        rw [List.flatten_cons, List.append_assoc, List.append_assoc, List.append_assoc]

theorem recognizes (bracketed : Bracketed nfa pattern lo hi skips repeats body) {outer : Pattern}
    (counts : ∀ text, outer.Matches text ↔ Rounds pattern skips repeats text) :
    nfa.Recognizes outer lo (hi + 2) ⟨hi, hi + 1⟩ := by
  have accepts := bracketed.part.accept_inside
  refine ⟨⟨by simp only; omega, by simp only; omega⟩, ⟨by simp only; omega, by simp only; omega⟩,
    ?_, ?_⟩
  · intro text matched
    obtain ⟨rounds, rfl, each, passes, again⟩ := (counts text).mp matched
    cases rounds with
    | nil =>
        exact .epsilon ((bracketed.start_edges _).mpr (Or.inr ⟨passes rfl, rfl⟩)) (.refl _)
    | cons round rounds =>
        obtain ⟨first, others⟩ := List.forall_mem_cons.mp each
        refine .epsilon ((bracketed.start_edges _).mpr (Or.inl rfl)) ?_
        refine bracketed.path_of_rounds first others fun some => again ?_
        have positive := List.length_pos_iff.mpr some
        rw [List.length_cons]
        omega
  · intro steps id text walk beyond
    change Beyond lo (hi + 2) (hi + 1) id at beyond
    have goesOn : id ≠ hi := by
      unfold Beyond at beyond
      omega
    obtain ⟨second, edge, fewer, shorter, onward⟩ := walk.next bracketed.start_bare goesOn
    rcases (bracketed.start_edges second).mp edge with rfl | ⟨passes, rfl⟩
    · obtain ⟨round, rounds, right, last, rfl, within, first, others, again, final⟩ :=
        bracketed.split_rounds onward beyond
      refine ⟨round ++ rounds.flatten, right, last, rfl, by omega, (counts _).mpr ?_, final⟩
      refine ⟨round :: rounds, rfl, List.forall_mem_cons.mpr ⟨first, others⟩, nofun,
        fun long => again ?_⟩
      rintro rfl
      exact Nat.lt_irrefl _ long
    · have none : outer.Matches [] := (counts []).mpr ⟨[], rfl, nofun, fun _ => passes, nofun⟩
      exact ⟨[], text, fewer, rfl, Nat.le_of_lt shorter, none, onward⟩

end Bracketed

theorem matches_optional_iff {pattern : Pattern} {text : List Char} :
    (Pattern.optional pattern).Matches text ↔ Rounds pattern true false text := by
  constructor
  · intro matched
    cases matched with
    | optionalNone => exact ⟨[], rfl, nofun, fun _ => rfl, nofun⟩
    | optionalSome once =>
        refine ⟨[text], (List.append_nil text).symm, ?_, nofun, nofun⟩
        intro round member
        exact List.mem_singleton.mp member ▸ once
  · rintro ⟨rounds, rfl, each, -, again⟩
    match rounds with
    | [] => exact .optionalNone
    | [round] =>
        rw [List.flatten_cons, List.flatten_nil, List.append_nil]
        exact .optionalSome (each round (List.mem_singleton_self round))
    | _ :: _ :: rest => cases again (by simp only [List.length_cons]; omega)

theorem matches_zeroOrMore_iff {pattern : Pattern} {text : List Char} :
    (Pattern.zeroOrMore pattern).Matches text ↔ Rounds pattern true true text := by
  constructor
  · intro matched
    generalize star : Pattern.zeroOrMore pattern = outer at matched
    induction matched with
    | zeroOrMoreNil => exact ⟨[], rfl, nofun, fun _ => rfl, fun _ => rfl⟩
    | @zeroOrMoreCons inner left right first others _ ih =>
        cases star
        obtain ⟨rounds, rfl, each, -, -⟩ := ih rfl
        exact ⟨left :: rounds, rfl, List.forall_mem_cons.mpr ⟨first, each⟩, fun _ => rfl,
          fun _ => rfl⟩
    | _ => cases star
  · rintro ⟨rounds, rfl, each, -, -⟩
    induction rounds with
    | nil => exact .zeroOrMoreNil
    | cons round rounds ih =>
        obtain ⟨first, others⟩ := List.forall_mem_cons.mp each
        exact .zeroOrMoreCons first (ih others)

theorem matches_oneOrMore_iff {pattern : Pattern} {text : List Char} :
    (Pattern.oneOrMore pattern).Matches text ↔ Rounds pattern false true text := by
  constructor
  · intro matched
    cases matched with
    | @oneOrMore _ left right first others =>
        obtain ⟨rounds, rfl, each, -, -⟩ := matches_zeroOrMore_iff.mp others
        exact ⟨left :: rounds, rfl, List.forall_mem_cons.mpr ⟨first, each⟩, nofun, fun _ => rfl⟩
  · rintro ⟨rounds, rfl, each, passes, -⟩
    cases rounds with
    | nil => cases passes rfl
    | cons round rounds =>
        obtain ⟨first, others⟩ := List.forall_mem_cons.mp each
        exact .oneOrMore first
          (matches_zeroOrMore_iff.mpr ⟨rounds, rfl, others, fun _ => rfl, fun _ => rfl⟩)

end Recognizes

end Predictive.Nfa
