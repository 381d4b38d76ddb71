/-
The closure as a function of the set of its seeds. Neither their order nor a repetition
matters, because the states come out in ascending order and an ascending list is known by
its members; and a closure is closed, so that closing it again changes nothing.
-/

import Predictive.Proofs.Lexical.Confinement

namespace Predictive.Nfa

variable {nfa : Nfa} {seeds others : List Nat}

namespace EpsilonReaches

variable {first second third : Nat}

theorem trans (start : nfa.EpsilonReaches first second)
    (rest : nfa.EpsilonReaches second third) : nfa.EpsilonReaches first third := by
  induction start with
  | refl => exact rest
  | step edge _ ih => exact .step edge (ih rest)

theorem target_lt_size (closed : nfa.Closed) (reaches : nfa.EpsilonReaches first second)
    (inRange : first < nfa.states.size) : second < nfa.states.size :=
  (Path.nil_iff.mpr reaches).lt_size closed inRange

end EpsilonReaches

theorem closure_congr
    (same : ∀ id, (∃ seed ∈ seeds, nfa.EpsilonReaches seed id) ↔
      ∃ seed ∈ others, nfa.EpsilonReaches seed id) :
    nfa.closure seeds = nfa.closure others := by
  apply (nfa.ascending_closure seeds).eq_of_mem_iff (nfa.ascending_closure others)
  intro id
  rw [mem_closure_iff, mem_closure_iff, same]

theorem closure_of_mem_iff (same : ∀ id, id ∈ others ↔ id ∈ seeds) :
    nfa.closure others = nfa.closure seeds := by
  apply closure_congr
  intro id
  simp only [same]

theorem closure_closure (nfa : Nfa) (seeds : List Nat) :
    nfa.closure (nfa.closure seeds) = nfa.closure seeds := by
  apply (nfa.ascending_closure _).eq_of_mem_iff (nfa.ascending_closure seeds)
  intro id
  constructor
  · intro member
    obtain ⟨inRange, middle, inClosure, onward⟩ := mem_closure_iff.mp member
    obtain ⟨-, seed, isSeed, reaches⟩ := mem_closure_iff.mp inClosure
    exact mem_closure_iff.mpr ⟨inRange, seed, isSeed, reaches.trans onward⟩
  · intro member
    have inRange := (mem_closure_iff.mp member).1
    exact mem_closure_iff.mpr ⟨inRange, id, member, .refl id⟩

theorem closure?_of_lt (inRange : ∀ seed ∈ seeds, seed < nfa.states.size) :
    nfa.closure? seeds = some (nfa.closure seeds) := by
  rw [closure?, if_pos]
  rw [List.all_eq_true]
  exact fun seed member => decide_eq_true (inRange seed member)

/-- Seeds that are states of a built automaton have a closure. It lists in ascending order
the states that epsilon edges reach from a seed, all of them and no other. Other seeds that
make up the same set have the same closure, and the closure is its own closure. -/
theorem Built.closure?_exact (built : nfa.Built)
    (inRange : ∀ seed ∈ seeds, seed < nfa.states.size) :
    ∃ set, nfa.closure? seeds = some set ∧ set.Pairwise (· < ·) ∧
      (∀ id, id ∈ set ↔ ∃ seed ∈ seeds, nfa.EpsilonReaches seed id) ∧
      (∀ others : List Nat, (∀ id, id ∈ others ↔ id ∈ seeds) → nfa.closure? others = some set) ∧
      nfa.closure? set = some set := by
  have states : ∀ id ∈ nfa.closure seeds, id < nfa.states.size := fun id member =>
    (mem_closure_iff.mp member).1
  refine ⟨nfa.closure seeds, closure?_of_lt inRange, nfa.ascending_closure seeds, ?_, ?_, ?_⟩
  · intro id
    rw [mem_closure_iff]
    constructor
    · exact fun member => member.2
    · intro reached
      obtain ⟨seed, member, reaches⟩ := reached
      exact ⟨reaches.target_lt_size built.closed (inRange seed member), seed, member, reaches⟩
  · intro others same
    rw [closure?_of_lt fun seed member => inRange seed ((same seed).mp member),
      closure_of_mem_iff same]
  · rw [closure?_of_lt states, closure_closure]

/-- A repetition of a part that may be empty: epsilon edges lead from its start through the
empty branch to its end and back. -/
def maybeEmptyOver : Pattern := .zeroOrMore (.alternative [.sequence [], .literal "x"])

theorem closure?_maybeEmptyOver :
    (ofToken "runs" maybeEmptyOver).Built ∧
      (∀ seed ∈ [4, 1, 4], seed < (ofToken "runs" maybeEmptyOver).states.size) ∧
      (ofToken "runs" maybeEmptyOver).closure? [4, 1, 4] = some [0, 1, 2, 3, 4, 6] ∧
      (ofToken "runs" maybeEmptyOver).closure? [1, 4] = some [0, 1, 2, 3, 4, 6] ∧
      (ofToken "runs" maybeEmptyOver).closure? [0, 1, 2, 3, 4, 6] = some [0, 1, 2, 3, 4, 6] := by
  have built := Built.token "runs" maybeEmptyOver
  have size : (ofToken "runs" maybeEmptyOver).states.size = 7 := by cbv
  have inRange : ∀ seed ∈ [4, 1, 4], seed < (ofToken "runs" maybeEmptyOver).states.size := by
    rw [size]
    decide
  have computed : (ofToken "runs" maybeEmptyOver).closure? [4, 1, 4] =
      some [0, 1, 2, 3, 4, 6] := by cbv
  obtain ⟨set, found, -, -, sameSet, again⟩ := built.closure?_exact inRange
  rw [computed] at found
  cases found
  refine ⟨built, inRange, computed, sameSet [1, 4] ?_, again⟩
  intro id
  simp only [List.mem_cons, List.not_mem_nil, or_false]
  omega

end Predictive.Nfa
