import Mathlib.Order.MinMax
import QJson.Rfc8259.Tree

/-!
# Containers from their entries

A container that is written with nothing around its values: the texts of its entries between
brackets, with commas between them.
-/

namespace QJson.Rfc8259

/-- The text of an optional name and a value. -/
def entryText (pair : Option Name × Tree) : Bytes := nameText pair.1 ++ pair.2.render

/-- The entries of a container that has a first one. -/
def Entries.ofList (first : Option Name × Tree) : List (Option Name × Tree) → Entries
  | [] => .last first.1 [] first.2 []
  | next :: rest => .more first.1 [] first.2 [] (.ofList next rest)

/-- The container with the given entries. -/
def Tree.ofList (kind : Kind) : List (Option Name × Tree) → Tree
  | [] => .empty kind []
  | first :: rest => .node kind (.ofList first rest)

section Assemble

variable {kind : Kind} {first : Option Name × Tree} {rest pairs : List (Option Name × Tree)}

theorem Entries.render_ofList :
    (Entries.ofList first rest).render = [0x2C].intercalate ((first :: rest).map entryText) := by
  induction rest generalizing first with
  | nil => simp [ofList, Entries.render, entryText]
  | cons next rest ih =>
      rw [ofList, Entries.render, ih]
      simp [List.intercalate, entryText]

theorem Entries.valid_ofList
    (valid : ∀ pair ∈ first :: rest, nameValid kind pair.1 ∧ pair.2.Valid) :
    (Entries.ofList first rest).Valid kind := by
  induction rest generalizing first with
  | nil =>
      obtain ⟨name, value⟩ := valid first List.mem_cons_self
      exact ⟨name, isBlank_nil, value, isBlank_nil⟩
  | cons next rest ih =>
      obtain ⟨name, value⟩ := valid first List.mem_cons_self
      exact ⟨name, isBlank_nil, value, isBlank_nil,
        ih fun pair member => valid pair (List.mem_cons_of_mem _ member)⟩

theorem Entries.le_depth_ofList {n : Nat} :
    n ≤ (Entries.ofList first rest).depth ↔ ∃ pair ∈ first :: rest, n ≤ pair.2.depth := by
  induction rest generalizing first with
  | nil => simp [ofList, Entries.depth]
  | cons next rest ih =>
      rw [ofList, Entries.depth, le_max_iff, ih]
      simp only [List.exists_mem_cons_iff]

theorem Tree.render_ofList :
    (Tree.ofList kind pairs).render =
      kind.opener :: ([0x2C].intercalate (pairs.map entryText) ++ [kind.closer]) := by
  cases pairs with
  | nil => rfl
  | cons first rest => rw [ofList, Tree.render, Entries.render_ofList]

theorem Tree.valid_ofList (valid : ∀ pair ∈ pairs, nameValid kind pair.1 ∧ pair.2.Valid) :
    (Tree.ofList kind pairs).Valid := by
  cases pairs with
  | nil => exact isBlank_nil
  | cons first rest => exact Entries.valid_ofList valid

theorem Entries.toList_ofList : (Entries.ofList first rest).toList =
    (first :: rest).map fun pair => ⟨pair.1, [], pair.2, []⟩ := by
  induction rest generalizing first with
  | nil => rfl
  | cons next rest ih =>
      rw [ofList, Entries.toList, ih]
      rfl

@[simp] theorem Tree.children_ofList :
    (Tree.ofList kind pairs).children = pairs.map fun pair => ⟨pair.1, [], pair.2, []⟩ := by
  cases pairs with
  | nil => rfl
  | cons first rest => rw [ofList, Tree.children, Entries.toList_ofList]

@[simp] theorem Tree.kind?_ofList : (Tree.ofList kind pairs).kind? = some kind := by
  cases pairs <;> rfl

theorem Tree.le_depth_ofList {n : Nat} :
    n ≤ (Tree.ofList kind pairs).depth ↔ n ≤ 1 ∨ ∃ pair ∈ pairs, n ≤ pair.2.depth + 1 := by
  cases pairs with
  | nil => simp [ofList, Tree.depth]
  | cons first rest =>
      rw [ofList, Tree.depth]
      cases n with
      | zero => simp
      | succ n =>
          simp only [Nat.add_le_add_iff_right, Entries.le_depth_ofList]
          refine ⟨.inr, fun either => either.elim (fun small => ?_) id⟩
          exact ⟨first, List.mem_cons_self, by omega⟩

end Assemble

end QJson.Rfc8259
