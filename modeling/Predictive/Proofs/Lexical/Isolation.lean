/-
The states that a pattern adds to an arena stand apart. What was there before is left as
it was, and the new states lead to each other alone. Within them no edge leads back to the
start and none leads on from the accept state, however deep the pattern repeats its parts:
a part may be entered again, but then a new start has been put before it.
-/

import Predictive.Proofs.Lexical.Reachability

namespace Predictive.Arena

variable {arena : Arena} {lo id : Nat}

theorem getElem?_of_lt (inRange : id < arena.size) : arena[id]? = some (arena.stateAt id) := by
  rw [stateAt, Array.getD_eq_getD_getElem?, Array.getElem?_eq_getElem inRange, Option.getD_some]

/-! ### Edges into the start -/

theorem unenteredFrom_size (arena : Arena) : arena.UnenteredFrom arena.size arena.size :=
  arena.confined_self.unenteredFrom (Nat.le_refl _)

namespace UnenteredFrom

theorem push {state : NfaState} (unentered : arena.UnenteredFrom lo id)
    (apart : ¬state.LeadsTo id) : UnenteredFrom (arena.push state) lo id := by
  intro source low leads
  rcases leads_push_iff.mp leads with old | ⟨-, new⟩
  · exact unentered source low old
  · exact apart new

theorem push_blank (unentered : arena.UnenteredFrom lo id) :
    UnenteredFrom (arena.push .blank) lo id := unentered.push (NfaState.not_leadsTo_blank id)

theorem hop (unentered : arena.UnenteredFrom lo id) (different : id ≠ arena.size + 1)
    (ranges : List CharRange) : (arena.hop ranges).1.UnenteredFrom lo id := by
  refine (unentered.push ?_).push_blank
  intro leads
  rcases leads with silent | ⟨arc, edge, target⟩
  · cases silent
  · obtain ⟨range, -, rfl⟩ := List.mem_map.mp edge
    exact different target.symm

theorem chain (unentered : arena.UnenteredFrom lo id) (inside : id ≤ arena.size)
    (chars : List Char) : (arena.chain chars).UnenteredFrom lo id := by
  induction chars generalizing arena with
  | nil => exact unentered.push_blank
  | cons char rest ih =>
      refine ih (unentered.push ?_) (by rw [Array.size_push]; omega)
      intro leads
      rcases leads with silent | ⟨arc, edge, target⟩
      · cases silent
      · rw [List.mem_singleton.mp edge] at target
        simp only at target
        omega

theorem fragment (unentered : arena.UnenteredFrom lo id) (inRange : id < arena.size)
    (pattern : Pattern) : (arena.fragment pattern).1.UnenteredFrom lo id :=
  unentered.of_old (fragment_compiled arena pattern).old (fragment_confined_self arena pattern)
    inRange

theorem fragments (unentered : arena.UnenteredFrom lo id) (inRange : id < arena.size)
    (items : List Pattern) : (arena.fragments items).1.UnenteredFrom lo id :=
  unentered.of_old (fragments_laid arena items).old (fragments_confined_self arena items).1
    inRange

theorem branches {outer : Fragment} (unentered : arena.UnenteredFrom lo id)
    (inRange : id < arena.size) (different : id ≠ outer.accept)
    (startInside : outer.start < arena.size) (items : List Pattern) :
    (arena.branches outer items).UnenteredFrom lo id := by
  induction items generalizing arena with
  | nil =>
      rw [Arena.branches]
      exact unentered
  | cons item rest ih =>
      have compiled := fragment_compiled arena item
      have start := compiled.start_inside
      have accept := compiled.accept_inside
      have head := unentered.fragment inRange item
      have size := size_fan (arena.fragment item).1 outer (arena.fragment item).2
      have fanned : ((arena.fragment item).1.fan outer (arena.fragment item).2).UnenteredFrom
          lo id :=
        (head.link (by omega) (by omega)).link (by rw [size_link]; exact accept.2) different
      rw [Arena.branches]
      exact ih fanned (by omega) (by omega)

end UnenteredFrom

theorem Wrapped.unenteredFrom {final : Arena} {body : Fragment} {skips repeats : Bool}
    (wrapped : Wrapped arena final body skips repeats) (confined : arena.Confined lo arena.size)
    (startInside : body.start < arena.size) : final.UnenteredFrom lo arena.size := by
  intro source low leads
  rcases wrapped.leads_cases leads with old | isStart | isAccept
  · exact confined.unenteredFrom (Nat.le_refl _) source low old
  · omega
  · omega

theorem fragment_start_unentered (arena : Arena) (pattern : Pattern) :
    (arena.fragment pattern).1.UnenteredFrom arena.size (arena.fragment pattern).2.start := by
  cases pattern with
  | literal text =>
      rw [Arena.fragment]
      exact arena.unenteredFrom_size.chain (Nat.le_refl _) _
  | range lo hi =>
      rw [Arena.fragment]
      exact arena.unenteredFrom_size.hop (Nat.succ_ne_self _).symm _
  | set chars =>
      rw [Arena.fragment]
      exact arena.unenteredFrom_size.hop (Nat.succ_ne_self _).symm _
  | any domain =>
      rw [Arena.fragment]
      exact arena.unenteredFrom_size.hop (Nat.succ_ne_self _).symm _
  | anyExcept excluded domain =>
      rw [Arena.fragment]
      exact arena.unenteredFrom_size.hop (Nat.succ_ne_self _).symm _
  | sequence items =>
      cases items with
      | nil =>
          rw [Arena.fragment, Arena.fragments]
          exact arena.unenteredFrom_size.push_blank
      | cons item rest =>
          have bounds := (fragment_compiled arena item).start_inside
          have head := fragment_start_unentered arena item
          have laid := fragments_laid arena (item :: rest)
          have starts := (fragments_confined_self (arena.fragment item).1 rest).2
          have accepts := fun part member => (laid.accepts part member).2
          rw [Arena.fragments] at accepts
          rw [Arena.fragment, Arena.fragments]
          refine (head.fragments bounds.2 rest).joinAll accepts ?_
          intro part inRest
          have behind := (starts part inRest).1
          omega
  | alternative items =>
      have blanks : UnenteredFrom ((arena.push .blank).push .blank) arena.size arena.size :=
        arena.unenteredFrom_size.push_blank.push_blank
      have inside : arena.size < Array.size ((arena.push .blank).push .blank) := by
        simp only [Array.size_push]
        omega
      rw [Arena.fragment]
      exact blanks.branches inside (Nat.succ_ne_self _).symm inside items
  | optional inner =>
      have compiled := fragment_compiled arena inner
      have confined := fragment_confined_self arena inner
      obtain ⟨final, same, wrapped⟩ := fragment_optional compiled
      rw [same]
      exact wrapped.unenteredFrom confined compiled.start_inside.2
  | zeroOrMore inner =>
      have compiled := fragment_compiled arena inner
      have confined := fragment_confined_self arena inner
      obtain ⟨final, same, wrapped⟩ := fragment_zeroOrMore compiled
      rw [same]
      exact wrapped.unenteredFrom confined compiled.start_inside.2
  | oneOrMore inner =>
      have compiled := fragment_compiled arena inner
      have confined := fragment_confined_self arena inner
      obtain ⟨final, same, wrapped⟩ := fragment_oneOrMore compiled
      rw [same]
      exact wrapped.unenteredFrom confined compiled.start_inside.2

/-! ### New states and old ones -/

/-- States have been added to an arena. The old ones are as they were, and the new ones lead
to each other alone, none of them to the start and none from the accept state. -/
structure Isolated (arena grown : Arena) (whole : Fragment) : Prop where
  old : ∀ id < arena.size, grown[id]? = arena[id]?
  inward : ∀ source target, arena.size ≤ source → source < grown.size →
    grown.Leads source target → arena.size ≤ target ∧ target < grown.size
  start_new : arena.size ≤ whole.start ∧ whole.start < grown.size
  accept_new : arena.size ≤ whole.accept ∧ whole.accept < grown.size
  start_unentered : ∀ source, arena.size ≤ source → source < grown.size →
    ¬grown.Leads source whole.start
  accept_final : ∀ target, ¬grown.Leads whole.accept target

/-- Adding a pattern to any arena leaves its states as they are. The new states lead to new
states alone, none of them to the start of the pattern, and its accept state leads nowhere. -/
theorem fragment_isolated (arena : Arena) (pattern : Pattern) :
    Isolated arena (arena.fragment pattern).1 (arena.fragment pattern).2 := by
  have framed := (fragment_compiled arena pattern).toFramed
  have confined := fragment_confined_self arena pattern
  have start := framed.start_inside
  constructor
  case old =>
    intro id low
    rw [getElem?_of_lt low, getElem?_of_lt (by omega), framed.old id low]
  case inward => exact fun source target new _ leads => confined source target new leads
  case start_new => exact framed.start_inside
  case accept_new => exact framed.accept_inside
  case start_unentered =>
    exact fun source new _ => fragment_start_unentered arena pattern source new
  case accept_final =>
    intro target leads
    rw [Leads, framed.bare] at leads
    exact NfaState.not_leadsTo_blank target leads

/-- The part that is repeated leads back to its own start, but not to the new one. -/
example : fragment #[.blank] (.oneOrMore (.sequence [])) =
    (#[.blank, ⟨[], [3, 1], none⟩, ⟨[], [1], none⟩, .blank], ⟨2, 3⟩) := by
  cbv

end Predictive.Arena
