/-
Finite sets kept as strictly ascending lists. Each set has one such list, so two
sets with the same members are equal as lists and a set is printed in order.
-/

namespace Predictive.OrderedSet

variable {α : Type} [Ord α]

/-- Adds a member; one that is present already changes nothing. -/
def insert (item : α) : List α → List α
  | [] => [item]
  | head :: rest =>
      match compare item head with
      | .lt => item :: head :: rest
      | .eq => head :: rest
      | .gt => head :: insert item rest

/-- Adds every item of a list. -/
def insertAll (set items : List α) : List α :=
  items.foldl (fun set item => insert item set) set

/-- The set of the items of a list. -/
def ofList (items : List α) : List α := insertAll [] items

/-- Strictly ascending lists. -/
def Ascending (set : List α) : Prop :=
  set.Pairwise fun left right => compare left right = .lt

theorem mem_insert [Std.LawfulEqOrd α] {item other : α} {set : List α} :
    other ∈ insert item set ↔ other = item ∨ other ∈ set := by
  induction set with
  | nil => simp [insert]
  | cons head rest ih =>
      unfold insert
      split
      case h_1 => simp
      case h_2 same =>
        have equal := Std.LawfulEqOrd.eq_of_compare same
        subst equal
        simp
      case h_3 =>
        simp only [List.mem_cons, ih]
        constructor
        · rintro (here | new | old)
          · exact Or.inr (Or.inl here)
          · exact Or.inl new
          · exact Or.inr (Or.inr old)
        · rintro (new | here | old)
          · exact Or.inr (Or.inl new)
          · exact Or.inl here
          · exact Or.inr (Or.inr old)

theorem mem_insertAll [Std.LawfulEqOrd α] {other : α} {set items : List α} :
    other ∈ insertAll set items ↔ other ∈ set ∨ other ∈ items := by
  unfold insertAll
  induction items generalizing set with
  | nil => simp
  | cons head rest ih =>
      rw [List.foldl_cons, ih, mem_insert, List.mem_cons]
      constructor
      · rintro ((new | old) | later)
        · exact Or.inr (Or.inl new)
        · exact Or.inl old
        · exact Or.inr (Or.inr later)
      · rintro (old | new | later)
        · exact Or.inl (Or.inr old)
        · exact Or.inl (Or.inl new)
        · exact Or.inr later

theorem mem_ofList [Std.LawfulEqOrd α] {other : α} {items : List α} :
    other ∈ ofList items ↔ other ∈ items := by
  simp [ofList, mem_insertAll]

theorem ascending_insert [Std.TransOrd α] [Std.LawfulEqOrd α] {item : α} {set : List α}
    (ascending : Ascending set) : Ascending (insert item set) := by
  induction set with
  | nil => exact List.pairwise_singleton _ _
  | cons head rest ih =>
      have parts := List.pairwise_cons.mp ascending
      unfold insert
      split
      case h_1 smaller =>
        refine List.pairwise_cons.mpr ⟨?_, ascending⟩
        intro other member
        rcases List.mem_cons.mp member with rfl | inRest
        · exact smaller
        · exact Std.TransCmp.lt_trans smaller (parts.1 other inRest)
      case h_2 => exact ascending
      case h_3 larger =>
        refine List.pairwise_cons.mpr ⟨?_, ih parts.2⟩
        intro other member
        rcases mem_insert.mp member with rfl | inRest
        · exact Std.OrientedCmp.lt_of_gt larger
        · exact parts.1 other inRest

theorem ascending_insertAll [Std.TransOrd α] [Std.LawfulEqOrd α] {set items : List α}
    (ascending : Ascending set) : Ascending (insertAll set items) := by
  unfold insertAll
  induction items generalizing set with
  | nil => exact ascending
  | cons head rest ih => exact ih (ascending_insert ascending)

theorem ascending_ofList [Std.TransOrd α] [Std.LawfulEqOrd α] (items : List α) :
    Ascending (ofList items) :=
  ascending_insertAll List.Pairwise.nil

end Predictive.OrderedSet
