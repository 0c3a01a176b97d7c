import QJson.Table.Fields
import QJson.Table.Sessions

/-!
# The plain table of a node

It holds under each key of an object the last member with that key, under each index of an
array its element, and so on below.  Materialization returns it unless the stack of Lua is too
small or a number cannot be read.
-/

namespace QJson.Table

open Rfc8259 Validate Doc Decode Ffi Lua

/-! ## Nodes as plain tables -/

/-- The child that the plain table of a container holds under a key. -/
def under {F : Type} (kind : Kind) (children : List Child) : Key F → Option Child
  | .str key => if kind = .obj then lastUnder children key else none
  | .idx n => if kind = .arr ∧ n ≠ 0 then children[n - 1]? else none
  | _ => none

/-- The key of a child among the children in front of it. -/
def keyAmong {F : Type} (kind : Kind) (done : List Child) (child : Child) : Key F :=
  match kind with
  | .obj => .str (keyText child)
  | .arr => .idx (done.length + 1)

/-- A value is the materialization of a node. -/
inductive Renders {F : Type} [DecidableEq F] (env : Env F) (s : State F) :
    Place → Value F → Prop where
  | leaf {place : Place} {v : Value F} : IsLeaf env place.node v → Renders env s place v
  | table {place : Place} {r : Nat} {p : Plain F} {kind : Kind} :
      place.node.kind? = some kind → s.plain? r = some p →
      (p.emptyArray = true ↔ kind = .arr ∧ place.children = []) →
      (∀ k, p.entries.lookup k = none ↔ under kind place.children k = none) →
      (∀ k child v, under kind place.children k = some child → p.entries.lookup k = some v →
        Renders env s child.place v) →
      Renders env s place (.table r)

/-- Every number of a tree can be read. -/
def Readable {F : Type} [DecidableEq F] (env : Env F) (tree : Tree) : Prop :=
  ∀ path inner, tree.sub? path = some inner → ¬ Unreadable env inner

/-- The numbers among the children of a container can be read. -/
def Legible {F : Type} [DecidableEq F] (env : Env F) (place : Place) : Prop :=
  ∀ child ∈ place.children, ¬ Unreadable env child.place.node

/-- The stack is too small for the tree, or a number cannot be read. -/
def Stuck {F : Type} [DecidableEq F] (env : Env F) (room : Nat) (tree : Tree) : Prop :=
  room ≤ tree.depth ∨ ¬ Readable env tree

section Nodes

variable {F : Type} {kind : Kind} {done : List Child} {child : Child} {k : Key F}

theorem under_nil : under kind [] k = none := by
  cases k with
  | str key =>
      rw [under]
      split <;> rfl
  | idx n =>
      rw [under]
      split <;> rfl
  | _ => rfl

theorem under_concat [DecidableEq F] :
    under kind (done ++ [child]) k =
      if k = keyAmong kind done child then some child else under kind done k := by
  cases kind with
  | obj =>
      cases k with
      | str key =>
          simp only [under, keyAmong, if_true, lastUnder_concat, Key.str.injEq]
          exact if_congr eq_comm rfl rfl
      | _ => simp [under, keyAmong]
  | arr =>
      cases k with
      | idx n =>
          cases n with
          | zero => simp [under, keyAmong]
          | succ n =>
              simp only [under, keyAmong, Nat.add_sub_cancel, Key.idx.injEq, ne_eq,
                Nat.add_one_ne_zero, not_false_eq_true, and_self, if_true, Nat.add_right_cancel_iff]
              split
              · rename_i last
                rw [last, List.getElem?_concat_length]
              · rename_i other
                rcases Nat.lt_or_gt_of_ne other with old | beyond
                · exact List.getElem?_append_left old
                · rw [List.getElem?_eq_none (by simp; omega), List.getElem?_eq_none (by omega)]
      | _ => simp [under, keyAmong]

variable [DecidableEq F] {env : Env F} {place : Place} {i : Nat}

theorem sub?_child (here : place.children[i]? = some child) :
    place.node.sub? [i] = some child.place.node := by
  rw [Tree.sub?_cons, ← place.children_map_entry, List.getElem?_map, here]
  exact Tree.sub?_nil _

theorem readable_child (readable : Readable env place.node)
    (here : place.children[i]? = some child) : Readable env child.place.node := by
  intro path inner found
  refine readable (i :: path) inner ?_
  rw [← List.singleton_append, Tree.sub?_append, sub?_child here]
  exact found

theorem Readable.legible (readable : Readable env place.node) : Legible env place := by
  intro child member
  obtain ⟨i, here⟩ := List.getElem?_of_mem member
  exact readable [i] _ (sub?_child here)

theorem legible_iff :
    Legible env place ↔ ∀ entry ∈ place.node.children, ¬ Unreadable env entry.value := by
  rw [← place.children_map_entry, List.forall_mem_map]
  rfl

theorem not_readable_of_child (member : child ∈ place.children)
    (unreadable : Unreadable env child.place.node) : ¬ Readable env place.node :=
  fun readable => readable.legible child member unreadable

theorem readable_of_children {kind : Kind} (container : place.node.kind? = some kind)
    (children : ∀ child ∈ place.children, Readable env child.place.node) :
    Readable env place.node := by
  intro path inner found
  cases path with
  | nil =>
      obtain rfl := Option.some.inj ((Tree.sub?_nil _).symm.trans found)
      rintro ⟨token, scalar, -⟩
      rw [scalar] at container
      cases container
  | cons i rest =>
      cases here : place.children[i]? with
      | none =>
          rw [Tree.sub?_cons, ← place.children_map_entry, List.getElem?_map, here] at found
          cases found
      | some child =>
          rw [← List.singleton_append, Tree.sub?_append, sub?_child here] at found
          exact children child (List.mem_of_getElem? here) rest inner found

theorem readable_of_leaf {v : Value F} (leaf : IsLeaf env place.node v) :
    Readable env place.node := by
  intro path inner found
  cases path with
  | nil =>
      obtain rfl := Option.some.inj ((Tree.sub?_nil _).symm.trans found)
      exact fun unreadable => unreadable.not_isLeaf leaf
  | cons i rest =>
      have none_ : place.node.children = [] := by
        have noKind := leaf.kind?
        generalize place.node = node at noKind
        cases node <;> first | rfl | cases noKind
      rw [Tree.sub?_cons, none_] at found
      cases found

/-- A child is less deep. -/
theorem depth_lt_of_child (member : child ∈ place.children) :
    child.place.node.depth < place.node.depth := by
  have entry : child.entry ∈ place.node.children := by
    rw [← place.children_map_entry]
    exact List.mem_map_of_mem member
  cases spelled : place.node with
  | node kind entries =>
      rw [spelled] at entry
      rw [Tree.depth]
      exact Nat.lt_succ_of_le (Entries.depth_le_of_mem entry)
  | _ =>
      rw [spelled] at entry
      cases entry

/-- What sticks at a child sticks at its parent. -/
theorem Stuck.parent {room : Nat} (stuck : Stuck env room child.place.node)
    (member : child ∈ place.children) : Stuck env (room + 1) place.node := by
  obtain ⟨i, here⟩ := List.getElem?_of_mem member
  rcases stuck with small | unreadable
  · have := depth_lt_of_child member
    exact .inl (by omega)
  · exact .inr fun readable => unreadable (readable_child readable here)

theorem Renders.grown {forest : Forest} {s s' : State F} {v : Value F}
    (renders : Renders env s place v) (grown : Grown env forest s s') :
    Renders env s' place v := by
  induction renders with
  | leaf leaf => exact .leaf leaf
  | table kind plain empty domain _ ih =>
      exact .table kind (grown.plain _ _ plain) empty domain ih

theorem Renders.isBelow {s : State F} {v : Value F} (renders : Renders env s place v) :
    v.Below s.tables.length := by
  cases renders with
  | leaf leaf => exact below_of_leaf leaf
  | table _ plain _ _ _ =>
      exact (List.getElem?_eq_some_iff.1 (plain?_eq_some.1 plain)).1

end Nodes

/-! ## Lists that are split -/

/-- What is related to a list that is split is split. -/
theorem forall₂_split {α β : Type} {rel : α → β → Prop} {left : List α} {done rest : List β}
    {x : β} (related : List.Forall₂ rel left (done ++ x :: rest)) :
    ∃ a, left[done.length]? = some a ∧ rel a x := by
  induction done generalizing left with
  | nil =>
      cases related with
      | cons head _ => exact ⟨_, rfl, head⟩
  | cons y done ih =>
      cases related with
      | cons _ tail => exact ih tail

end QJson.Table
