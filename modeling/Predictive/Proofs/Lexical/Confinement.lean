/-
Edges stay inside. Adding a pattern to an arena adds edges between new states only,
so the automata that are built have no edge out of their states, and every path
from the start ends in a state.
-/

import Predictive.Proofs.Lexical.Construction

namespace Predictive

/-- An epsilon edge or an arc of the state leads to the target; an arc counts
whatever its range. -/
def NfaState.LeadsTo (state : NfaState) (target : Nat) : Prop :=
  target ∈ state.epsilons ∨ ∃ arc ∈ state.arcs, arc.target = target

theorem NfaState.not_leadsTo_blank (target : Nat) : ¬NfaState.blank.LeadsTo target := by
  rintro (edge | ⟨arc, edge, -⟩) <;> cases edge

namespace Arena

variable {arena : Arena} {lo hi : Nat}

/-- Every edge of a state from `lo` on leads to a state from `lo` up to `hi`. -/
def Confined (arena : Arena) (lo hi : Nat) : Prop :=
  ∀ id target, lo ≤ id → (arena.stateAt id).LeadsTo target → lo ≤ target ∧ target < hi

namespace Confined

theorem empty (hi : Nat) : Confined #[] 0 hi := fun _ target _ edge =>
  absurd edge (NfaState.not_leadsTo_blank target)

theorem mono {wider : Nat} (confined : arena.Confined lo hi) (within : hi ≤ wider) :
    arena.Confined lo wider := by
  intro id target low edge
  have inside := confined id target low edge
  omega

theorem push {state : NfaState} (confined : arena.Confined lo hi)
    (inside : ∀ target, state.LeadsTo target → lo ≤ target ∧ target < hi) :
    Confined (arena.push state) lo hi := by
  intro id target low edge
  rw [stateAt_push] at edge
  split at edge
  · exact inside target edge
  · exact confined id target low edge

theorem push_blank (confined : arena.Confined lo hi) : Confined (arena.push .blank) lo hi :=
  confined.push fun target edge => absurd edge (NfaState.not_leadsTo_blank target)

theorem link {source added : Nat} (confined : arena.Confined lo hi)
    (inside : lo ≤ added ∧ added < hi) : (arena.link source added).Confined lo hi := by
  intro id target low edge
  by_cases linked : id = source ∧ source < arena.size
  · obtain ⟨rfl, inRange⟩ := linked
    rw [stateAt_link_self _ inRange] at edge
    rcases edge with silent | arc
    · rcases List.mem_append.mp silent with old | new
      · exact confined id target low (Or.inl old)
      · rwa [List.mem_singleton.mp new]
    · exact confined id target low (Or.inr arc)
  · have same : (arena.link source added).stateAt id = arena.stateAt id := by
      by_cases here : id = source
      · have outside : arena.size ≤ id := by omega
        rw [stateAt_of_size_le outside, stateAt_of_size_le (by rwa [size_link])]
      · exact stateAt_link_of_ne _ here
    rw [same] at edge
    exact confined id target low edge

theorem setTag (confined : arena.Confined lo hi) (tagged : Nat) (tag : AcceptTag) :
    (arena.setTag tagged tag).Confined lo hi := by
  intro id target low edge
  by_cases same : id = tagged
  · subst same
    by_cases inRange : id < arena.size
    · rw [stateAt_setTag_self _ inRange] at edge
      exact confined id target low edge
    · rw [stateAt_of_size_le (by rw [size_setTag]; omega)] at edge
      exact absurd edge (NfaState.not_leadsTo_blank target)
  · rw [stateAt_setTag_of_ne _ same] at edge
    exact confined id target low edge

theorem joinAll {parts : List Fragment} (confined : arena.Confined lo hi)
    (inside : ∀ part ∈ parts, lo ≤ part.start ∧ part.start < hi) :
    (arena.joinAll parts).Confined lo hi := by
  fun_induction Arena.joinAll arena parts with
  | case1 arena first second rest ih =>
      obtain ⟨-, others⟩ := List.forall_mem_cons.mp inside
      exact ih (confined.link (others second List.mem_cons_self)) others
  | case2 => exact confined

theorem hop (confined : arena.Confined lo arena.size) (low : lo ≤ arena.size)
    (ranges : List CharRange) :
    (arena.hop ranges).1.Confined lo (arena.hop ranges).1.size := by
  simp only [Arena.hop, Array.size_push]
  refine ((confined.mono (by omega)).push ?_).push_blank
  rintro target (silent | ⟨arc, edge, rfl⟩)
  · cases silent
  · obtain ⟨range, -, rfl⟩ := List.mem_map.mp edge
    exact ⟨by simp only; omega, Nat.lt_succ_self _⟩

theorem chain {chars : List Char} (confined : arena.Confined lo hi) (low : lo ≤ arena.size)
    (high : arena.size + chars.length < hi) : (arena.chain chars).Confined lo hi := by
  induction chars generalizing arena with
  | nil => exact confined.push_blank
  | cons char rest ih =>
      rw [List.length_cons] at high
      refine ih (confined.push ?_) (by rw [Array.size_push]; omega) (by rw [Array.size_push]; omega)
      rintro target (silent | ⟨arc, edge, rfl⟩)
      · cases silent
      · rw [List.mem_singleton.mp edge]
        simp only
        omega

theorem bracket {inner : Fragment} (confined : arena.Confined lo arena.size)
    (inside : lo ≤ inner.start ∧ inner.start < arena.size) :
    (arena.bracket inner).1.Confined lo (arena.size + 2) := by
  have pushed := (confined.mono (Nat.le_add_right _ 2)).push_blank.push_blank
  exact (pushed.link (by omega)).link (by omega)

end Confined

theorem size_bracket (arena : Arena) (inner : Fragment) :
    (arena.bracket inner).1.size = arena.size + 2 := by
  simp only [bracket, size_link, Array.size_push]

mutual

/-- Where no edge leaves the states from `lo` on, a pattern that is added there keeps
it so. -/
theorem fragment_confined (arena : Arena) (pattern : Pattern)
    (confined : arena.Confined lo arena.size) (low : lo ≤ arena.size) :
    (arena.fragment pattern).1.Confined lo (arena.fragment pattern).1.size := by
  cases pattern with
  | literal text =>
      rw [fragment]
      simp only [size_chain]
      exact (confined.mono (by omega)).chain low (Nat.lt_succ_self _)
  | range first last =>
      rw [fragment]
      exact confined.hop low _
  | set chars =>
      rw [fragment]
      exact confined.hop low _
  | any domain =>
      rw [fragment]
      exact confined.hop low _
  | anyExcept excluded domain =>
      rw [fragment]
      exact confined.hop low _
  | sequence items =>
      obtain ⟨laid, starts⟩ := fragments_confined arena items confined low
      rw [fragment]
      generalize arena.fragments items = built at laid starts ⊢
      obtain ⟨grown, parts⟩ := built
      cases parts with
      | nil =>
          simp only [Array.size_push]
          exact (laid.mono (Nat.le_succ _)).push_blank
      | cons first rest =>
          simp only [size_joinAll]
          exact laid.joinAll starts
  | alternative items =>
      rw [fragment]
      refine branches_confined _ ⟨arena.size, arena.size + 1⟩ items ?_ ?_ ?_
      · simp only [Array.size_push]
        exact (confined.mono (by omega)).push_blank.push_blank
      · simp only [Array.size_push]
        omega
      · simp only [Array.size_push]
        omega
  | optional inner =>
      have bounds := (fragment_compiled arena inner).start_inside
      have body := fragment_confined arena inner confined low
      rw [fragment]
      generalize arena.fragment inner = built at bounds body ⊢
      simp only [size_link, size_bracket]
      exact (body.bracket (by omega)).link ⟨by simp only [bracket]; omega, Nat.lt_succ_self _⟩
  | zeroOrMore inner =>
      have bounds := (fragment_compiled arena inner).start_inside
      have body := fragment_confined arena inner confined low
      rw [fragment]
      generalize arena.fragment inner = built at bounds body ⊢
      simp only [size_link, size_bracket]
      refine ((body.bracket (by omega)).link ?_).link (by omega)
      exact ⟨by simp only [bracket]; omega, Nat.lt_succ_self _⟩
  | oneOrMore inner =>
      have bounds := (fragment_compiled arena inner).start_inside
      have body := fragment_confined arena inner confined low
      rw [fragment]
      generalize arena.fragment inner = built at bounds body ⊢
      simp only [size_link, size_bracket]
      exact (body.bracket (by omega)).link (by omega)

theorem fragments_confined (arena : Arena) (items : List Pattern)
    (confined : arena.Confined lo arena.size) (low : lo ≤ arena.size) :
    (arena.fragments items).1.Confined lo (arena.fragments items).1.size ∧
      ∀ part ∈ (arena.fragments items).2,
        lo ≤ part.start ∧ part.start < (arena.fragments items).1.size := by
  cases items with
  | nil =>
      rw [fragments]
      exact ⟨confined, nofun⟩
  | cons item rest =>
      have bounds := (fragment_compiled arena item).start_inside
      have head := fragment_confined arena item confined low
      have grows := (fragments_laid (arena.fragment item).1 rest).size_le
      obtain ⟨tail, starts⟩ := fragments_confined (arena.fragment item).1 rest head (by omega)
      rw [fragments]
      refine ⟨tail, List.forall_mem_cons.mpr ⟨?_, starts⟩⟩
      simp only
      omega

theorem branches_confined (arena : Arena) (outer : Fragment) (items : List Pattern)
    (confined : arena.Confined lo arena.size) (low : lo ≤ arena.size)
    (inside : lo ≤ outer.accept ∧ outer.accept < arena.size) :
    (arena.branches outer items).Confined lo (arena.branches outer items).size := by
  cases items with
  | nil =>
      rw [branches]
      exact confined
  | cons item rest =>
      have bounds := (fragment_compiled arena item).start_inside
      have head := fragment_confined arena item confined low
      have size := size_fan (arena.fragment item).1 outer (arena.fragment item).2
      rw [branches]
      refine branches_confined _ outer rest ?_ (by omega) (by omega)
      rw [size]
      exact (head.link (by omega)).link (by omega)

end

end Arena

namespace Nfa

/-- The start is a state, and every edge leads to a state. -/
structure Closed (nfa : Nfa) : Prop where
  start : nfa.start < nfa.states.size
  edges : ∀ {source target : Nat}, nfa.Edge source target → target < nfa.states.size

theorem addTokens_confined (start index : Nat) (rules : List TokenRule) {arena : Arena}
    (confined : arena.Confined 0 arena.size) :
    (addTokens start arena index rules).Confined 0 (addTokens start arena index rules).size ∧
      arena.size ≤ (addTokens start arena index rules).size := by
  induction rules generalizing arena index with
  | nil => exact ⟨confined, Nat.le_refl _⟩
  | cons rule rules ih =>
      have bounds := (Arena.fragment_compiled arena rule.pattern).start_inside
      have head := arena.fragment_confined rule.pattern confined (Nat.zero_le _)
      rw [addTokens]
      generalize arena.fragment rule.pattern = built at bounds head ⊢
      have linked : (built.1.link start built.2.start).Confined 0 built.1.size :=
        head.link ⟨Nat.zero_le _, bounds.2⟩
      have tagged := linked.setTag built.2.accept ⟨rule.name, rule.priority, index⟩
      have size : ((built.1.link start built.2.start).setTag built.2.accept
          ⟨rule.name, rule.priority, index⟩).size = built.1.size := by
        rw [Arena.size_setTag, Arena.size_link]
      obtain ⟨whole, grows⟩ := ih (index + 1) (size ▸ tagged)
      refine ⟨whole, Nat.le_trans ?_ grows⟩
      rw [size]
      omega

theorem closed_of_confined {nfa : Nfa} (start : nfa.start < nfa.states.size)
    (confined : Arena.Confined nfa.states 0 nfa.states.size) : nfa.Closed :=
  ⟨start, fun edge => (confined _ _ (Nat.zero_le _) edge).2⟩

theorem closed_ofToken (kind : String) (pattern : Pattern) : (ofToken kind pattern).Closed := by
  have bounds := (Arena.fragment_compiled #[] pattern).start_inside
  have confined := Arena.fragment_confined #[] pattern (.empty 0) (Nat.le_refl 0)
  apply closed_of_confined
  · simp only [ofToken, Arena.size_setTag]
    exact bounds.2
  · simp only [ofToken, Arena.size_setTag]
    exact confined.setTag _ _

theorem closed_ofGrammar (grammar : LexicalGrammar) : (ofGrammar grammar).Closed := by
  have single : Arena.Confined #[.blank] 0 1 := (Arena.Confined.empty 1).push_blank
  obtain ⟨confined, grows⟩ := addTokens_confined 0 0 grammar.tokens single
  exact closed_of_confined grows confined

theorem Built.closed {nfa : Nfa} (built : nfa.Built) : nfa.Closed := by
  cases built with
  | pattern pattern => exact closed_ofToken _ pattern
  | token kind pattern => exact closed_ofToken kind pattern
  | grammar grammar => exact closed_ofGrammar grammar

theorem Path.lt_size {nfa : Nfa} (closed : nfa.Closed) {first last : Nat} {text : List Char}
    (path : nfa.Path first text last) (inRange : first < nfa.states.size) :
    last < nfa.states.size := by
  induction path with
  | refl => exact inRange
  | epsilon edge _ ih => exact ih (closed.edges (Or.inl edge))
  | arc edge _ _ ih => exact ih (closed.edges (Or.inr ⟨_, edge, rfl⟩))

theorem Closed.exists_mem_after? {nfa : Nfa} (closed : nfa.Closed) (text : List Char)
    {seeds set : List Nat} {seed : Nat} (member : seed ∈ seeds) (inRange : seed < nfa.states.size)
    (after : nfa.after? (nfa.closure seeds) text = some set) : ∃ id, id ∈ set := by
  induction text generalizing seeds seed with
  | nil =>
      cases after
      exact ⟨seed, mem_closure_iff.mpr ⟨inRange, seed, member, .refl seed⟩⟩
  | cons char rest ih =>
      simp only [after?] at after
      split at after
      · cases after
      · rename_i moved
        obtain ⟨target, leads⟩ := List.exists_mem_of_ne_nil _ fun none =>
          moved (List.isEmpty_iff.mpr none)
        obtain ⟨source, -, arc, edge, -, rfl⟩ := mem_move_iff.mp leads
        exact ih leads (closed.edges (Or.inr ⟨arc, edge, rfl⟩)) after

end Nfa

end Predictive
