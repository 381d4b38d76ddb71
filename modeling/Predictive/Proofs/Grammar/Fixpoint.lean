/-
Passes that are repeated until one changes nothing. A pass is made of small
changes, each of which leaves the state alone or makes it heavier; where the
weight is bounded, enough passes end in a state that no small change alters.
-/

import Mathlib.Algebra.GroupWithZero.Nat
import Predictive.Grammar.First

namespace Predictive

namespace OrderedSet

variable {α : Type} [Ord α]

theorem nodup_of_ascending [Std.LawfulEqOrd α] {set : List α} (ascending : Ascending set) :
    set.Nodup := by
  refine List.Pairwise.imp ?_ ascending
  rintro left _ smaller rfl
  have same : compare left left = .eq := Std.ReflCmp.compare_self
  rw [same] at smaller
  cases smaller

theorem insert_eq_self [Std.TransOrd α] [Std.LawfulEqOrd α] {item : α} {set : List α}
    (ascending : Ascending set) (member : item ∈ set) : insert item set = set := by
  induction set with
  | nil => cases member
  | cons head rest ih =>
      have parts := List.pairwise_cons.mp ascending
      unfold insert
      rcases List.mem_cons.mp member with rfl | inRest
      · have same : compare item item = .eq := Std.ReflCmp.compare_self
        rw [same]
      · have larger : compare item head = .gt := Std.OrientedCmp.gt_of_lt (parts.1 item inRest)
        rw [larger]
        exact congrArg (head :: ·) (ih parts.2 inRest)

theorem length_insert_of_not_mem [Std.LawfulEqOrd α] {item : α} {set : List α}
    (missing : item ∉ set) : (insert item set).length = set.length + 1 := by
  induction set with
  | nil => rfl
  | cons head rest ih =>
      unfold insert
      split
      case h_1 => rfl
      case h_2 same =>
        have equal := Std.LawfulEqOrd.eq_of_compare same
        exact absurd (equal ▸ List.mem_cons_self) missing
      case h_3 =>
        rw [List.length_cons, ih fun inRest => missing (List.mem_cons_of_mem _ inRest),
          List.length_cons]

theorem insertAll_eq_or_length_lt [Std.TransOrd α] [Std.LawfulEqOrd α] {set items : List α}
    (ascending : Ascending set) :
    insertAll set items = set ∨ set.length < (insertAll set items).length := by
  induction items generalizing set with
  | nil => exact Or.inl rfl
  | cons item rest ih =>
      have unfolded : insertAll set (item :: rest) = insertAll (insert item set) rest := rfl
      rw [unfolded]
      by_cases member : item ∈ set
      · rw [insert_eq_self ascending member]
        exact ih ascending
      · have longer := length_insert_of_not_mem member
        rcases ih (ascending_insert ascending) with same | further
        · rw [same]
          exact Or.inr (by omega)
        · exact Or.inr (by omega)

theorem eq_of_mem_iff [Std.TransOrd α] [Std.LawfulEqOrd α] {left right : List α}
    (leftAscending : Ascending left) (rightAscending : Ascending right)
    (same : ∀ item, item ∈ left ↔ item ∈ right) : left = right := by
  have arranged : left.Perm right :=
    (List.perm_ext_iff_of_nodup (nodup_of_ascending leftAscending)
      (nodup_of_ascending rightAscending)).mpr same
  apply List.Perm.eq_of_pairwise ?_ leftAscending rightAscending arranged
  intro first second _ _ smaller larger
  have greater := Std.OrientedCmp.gt_of_lt larger
  rw [smaller] at greater
  cases greater

theorem length_le_of_subset [Std.LawfulEqOrd α] {set items : List α} (ascending : Ascending set)
    (within : set ⊆ items) : set.length ≤ items.length :=
  (nodup_of_ascending ascending).length_le_of_subset within

end OrderedSet

variable {σ ι : Type} {invariant : σ → Prop} {weight : σ → Nat}

/-- A change that keeps an invariant, and under it leaves the state alone or makes
it heavier. -/
structure Inflates (invariant : σ → Prop) (weight : σ → Nat) (change : σ → σ) : Prop where
  keeps : ∀ {state}, invariant state → invariant (change state)
  grows : ∀ {state}, invariant state → change state = state ∨ weight state < weight (change state)

namespace Inflates

theorem comp {first second : σ → σ} (inFirst : Inflates invariant weight first)
    (inSecond : Inflates invariant weight second) :
    Inflates invariant weight fun state => second (first state) where
  keeps := fun holds => inSecond.keeps (inFirst.keeps holds)
  grows := by
    intro state holds
    rcases inFirst.grows holds with same | heavier
    · rw [same]
      exact inSecond.grows holds
    · rcases inSecond.grows (inFirst.keeps holds) with same | further
      · rw [same]
        exact Or.inr heavier
      · exact Or.inr (Nat.lt_trans heavier further)

theorem foldl {change : σ → ι → σ} (items : List ι)
    (each : ∀ item ∈ items, Inflates invariant weight fun state => change state item) :
    Inflates invariant weight fun state => items.foldl change state := by
  induction items with
  | nil => exact ⟨id, fun _ => Or.inl rfl⟩
  | cons item rest ih =>
      exact (each item List.mem_cons_self).comp
        (ih fun other member => each other (List.mem_cons_of_mem _ member))

/-- A composition that changes nothing is made of changes that change nothing:
what the first adds, the second cannot take away. -/
theorem fixed_of_comp {first second : σ → σ} (inFirst : Inflates invariant weight first)
    (inSecond : Inflates invariant weight second) {state : σ} (holds : invariant state)
    (fixed : second (first state) = state) : first state = state ∧ second state = state := by
  rcases inFirst.grows holds with same | heavier
  · exact ⟨same, by rwa [same] at fixed⟩
  · rcases inSecond.grows (inFirst.keeps holds) with same | further
    · rw [← same, fixed] at heavier
      exact absurd heavier (Nat.lt_irrefl _)
    · rw [fixed] at further
      exact absurd (Nat.lt_trans heavier further) (Nat.lt_irrefl _)

theorem fixed_of_foldl {change : σ → ι → σ} (items : List ι)
    (each : ∀ item ∈ items, Inflates invariant weight fun state => change state item) {state : σ}
    (holds : invariant state) (fixed : items.foldl change state = state) :
    ∀ item ∈ items, change state item = state := by
  induction items with
  | nil => exact fun _ member => absurd member List.not_mem_nil
  | cons head rest ih =>
      have others := fun other member => each other (List.mem_cons_of_mem head member)
      obtain ⟨here, later⟩ :=
        fixed_of_comp (each head List.mem_cons_self) (foldl rest others) holds fixed
      intro item member
      rcases List.mem_cons.mp member with rfl | inRest
      · exact here
      · exact ih others later item inRest

end Inflates

section Modify

variable {α : Type} {heft : α → Nat} {change : α → α}

theorem list_modify_eq_or_sum_lt (items : List α) (index : Nat)
    (each : ∀ item ∈ items, change item = item ∨ heft item < heft (change item)) :
    items.modify index change = items ∨
      (items.map heft).sum < ((items.modify index change).map heft).sum := by
  induction items generalizing index with
  | nil => exact Or.inl (List.modify_nil ..)
  | cons head rest ih =>
      cases index with
      | zero =>
          simp only [List.modify_zero_cons, List.map_cons, List.sum_cons]
          rcases each head List.mem_cons_self with same | heavier
          · exact Or.inl (by rw [same])
          · exact Or.inr (by omega)
      | succ index =>
          simp only [List.modify_succ_cons, List.map_cons, List.sum_cons]
          rcases ih index fun item member => each item (List.mem_cons_of_mem _ member) with
            same | heavier
          · exact Or.inl (by rw [same])
          · exact Or.inr (by omega)

theorem modify_eq_or_sum_lt (items : Array α) (index : Nat)
    (each : ∀ item ∈ items, change item = item ∨ heft item < heft (change item)) :
    items.modify index change = items ∨
      (items.toList.map heft).sum < ((items.modify index change).toList.map heft).sum := by
  rw [← Array.toList_inj, Array.toList_modify]
  exact list_modify_eq_or_sum_lt items.toList index
    fun item member => each item (Array.mem_toList_iff.mp member)

theorem mem_of_mem_modify {items : Array α} {index : Nat} {item : α}
    (member : item ∈ items.modify index change) :
    item ∈ items ∨ ∃ old, items[index]? = some old ∧ item = change old := by
  obtain ⟨place, found⟩ := Array.mem_iff_getElem?.mp member
  rw [Array.getElem?_modify] at found
  split at found
  case isTrue same =>
    obtain ⟨old, oldFound, rfl⟩ := Option.map_eq_some_iff.mp found
    exact Or.inr ⟨old, same ▸ oldFound, rfl⟩
  case isFalse => exact Or.inl (Array.mem_of_getElem? found)

theorem sum_le_length_mul {items : List α} {bound : Nat}
    (each : ∀ item ∈ items, heft item ≤ bound) :
    (items.map heft).sum ≤ items.length * bound := by
  induction items with
  | nil => exact Nat.zero_le _
  | cons head rest ih =>
      have here := each head List.mem_cons_self
      have others := ih fun item member => each item (List.mem_cons_of_mem _ member)
      rw [List.map_cons, List.sum_cons, List.length_cons, Nat.succ_mul]
      omega

end Modify

/-- A pass is repeated until it changes nothing, however many passes that takes; the
one that changes nothing counts too. -/
inductive Settles (pass : σ → σ) : Nat → σ → σ → Prop where
  | done {state : σ} (fixed : pass state = state) : Settles pass 1 state state
  | again {passes : Nat} {state result : σ} (changed : pass state ≠ state)
      (others : Settles pass passes (pass state) result) : Settles pass (passes + 1) state result

namespace Settles

variable {pass : σ → σ} {passes : Nat} {state result : σ}

theorem fixed (settles : Settles pass passes state result) : pass result = result := by
  induction settles with
  | done fixed => exact fixed
  | again _ _ ih => exact ih

theorem keeps (settles : Settles pass passes state result) (property : σ → Prop)
    (step : ∀ {state}, property state → property (pass state)) (start : property state) :
    property result := by
  induction settles with
  | done => exact start
  | again _ _ ih => exact ih (step start)

end Settles

/-- Where the weight is bounded the limit on the number of passes is never felt. -/
theorem settle_settles [DecidableEq σ] {pass : σ → σ} (inflates : Inflates invariant weight pass)
    {bound : Nat} (bounded : ∀ {state}, invariant state → weight state ≤ bound)
    (fuel passes : Nat) {state : σ} (holds : invariant state)
    (enough : bound < weight state + fuel) :
    ∃ more, (settle pass fuel passes state).2 = passes + more ∧
      Settles pass more state (settle pass fuel passes state).1 := by
  induction fuel generalizing passes state with
  | zero =>
      have limit := bounded holds
      omega
  | succ fuel ih =>
      unfold settle
      simp only
      split
      case isTrue same => exact ⟨1, rfl, .done same⟩
      case isFalse different =>
        have heavier := (inflates.grows holds).resolve_left different
        obtain ⟨more, count, settles⟩ := ih (passes + 1) (inflates.keeps holds) (by omega)
        exact ⟨more + 1, by omega, .again different settles⟩

end Predictive
