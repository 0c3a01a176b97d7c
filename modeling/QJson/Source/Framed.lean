import Mathlib.Data.List.Basic

/-!
# Texts that are read back

A code writes every symbol as a list.  Where no written symbol can be taken for another one,
nor for the mark behind the text, a text and what follows it are told by what is written.
-/

namespace QJson

variable {α β : Type}

/-- Written symbols are told apart whatever follows. -/
def IsCode (write : α → List β) : Prop :=
  ∀ a b left right, write a ++ left = write b ++ right → a = b ∧ left = right

/-- No written symbol begins with the mark. -/
def Spares (write : α → List β) (mark : β) : Prop :=
  ∀ a, ∃ first rest, write a = first :: rest ∧ first ≠ mark

variable {write : α → List β} {mark : β}

theorem Spares.ne (spares : Spares write mark) (a : α) (left right : List β) :
    write a ++ left ≠ mark :: right := by
  obtain ⟨first, rest, written, apart⟩ := spares a
  intro same
  rw [written, List.cons_append] at same
  exact apart (List.cons.inj same).1

/-- A text and what is behind its mark are told by what is written. -/
theorem IsCode.framed (isCode : IsCode write) (spares : Spares write mark) {xs ys : List α}
    {left right : List β}
    (same : xs.flatMap write ++ mark :: left = ys.flatMap write ++ mark :: right) :
    xs = ys ∧ left = right := by
  induction xs generalizing ys with
  | nil =>
      cases ys with
      | nil => exact ⟨rfl, (List.cons.inj same).2⟩
      | cons y ys =>
          rw [List.flatMap_cons, List.append_assoc] at same
          exact absurd same.symm (spares.ne y _ _)
  | cons x xs ih =>
      cases ys with
      | nil =>
          rw [List.flatMap_cons, List.append_assoc] at same
          exact absurd same (spares.ne x _ _)
      | cons y ys =>
          rw [List.flatMap_cons, List.flatMap_cons, List.append_assoc, List.append_assoc] at same
          obtain ⟨rfl, rest⟩ := isCode x y _ _ same
          obtain ⟨rfl, behind⟩ := ih rest
          exact ⟨rfl, behind⟩

/-- A run of symbols of one sort and what is behind it. -/
theorem run_unique {sort : β → Prop} {xs ys left right : List β} (all : ∀ x ∈ xs, sort x)
    (all' : ∀ y ∈ ys, sort y) (stops : ∀ x ∈ left.head?, ¬ sort x)
    (stops' : ∀ y ∈ right.head?, ¬ sort y) (same : xs ++ left = ys ++ right) :
    xs = ys ∧ left = right := by
  induction xs generalizing ys with
  | nil =>
      cases ys with
      | nil => exact ⟨rfl, same⟩
      | cons y ys =>
          refine absurd (all' y List.mem_cons_self) (stops y ?_)
          rw [show left = y :: (ys ++ right) from same]
          rfl
  | cons x xs ih =>
      cases ys with
      | nil =>
          refine absurd (all x List.mem_cons_self) (stops' x ?_)
          rw [show right = x :: (xs ++ left) from same.symm]
          rfl
      | cons y ys =>
          obtain ⟨rfl, rest⟩ := List.cons.inj same
          obtain ⟨rfl, behind⟩ := ih (fun x member => all x (List.mem_cons_of_mem _ member))
            (fun y member => all' y (List.mem_cons_of_mem _ member)) rest
          exact ⟨rfl, behind⟩

end QJson
