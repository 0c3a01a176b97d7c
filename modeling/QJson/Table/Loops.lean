import QJson.Table.Decoding

/-!
# Loops over the children of a node

The loops of the wrapper run over the iterator of an object or over the offsets of an array.
They meet the children of the node once each, in order, and come to an end.
-/

namespace QJson.Table

open Rfc8259 Validate Doc Decode Ffi Lua

/-! ## How many children there are -/

theorem Entries.length_le_signs (entries : Entries) :
    entries.toList.length ≤ entries.signs.length + 1 := by
  match entries with
  | .last name before value after => simp [Entries.toList]
  | .more name before value after rest =>
      have shorter := length_le_signs rest
      simp only [Entries.toList, Entries.signs, List.length_cons, List.length_append]
      omega

/-- A node has fewer children than its document has marks. -/
theorem length_children_lt {doc : Document} {tree : Tree} {start : Nat} {path : List Nat}
    {place : Place} (rep : Stands doc tree start)
    (found : (rootPlace tree start).locate path = some place) :
    place.children.length < doc.indices.length := by
  obtain ⟨more, marks⟩ := (rep.locate found).1.marks
  have upTo := congrArg List.length marks
  rw [List.length_drop, List.length_append, Tree.length_marks] at upTo
  have positive : 0 < doc.indices.length := by
    have := rep.length_indices.1
    omega
  have count : place.children.length = place.node.children.length := by
    rw [← place.children_map_entry, List.length_map]
  rw [count]
  cases spelled : place.node with
  | node kind entries =>
      have := Entries.length_le_signs entries
      rw [spelled, length_signs_node] at upTo
      simp only [Tree.children]
      omega
  | _ => exact positive

/-- An iterator does not pass its end. -/
theorem iterPlace_le {doc : Document} {tree : Tree} {start : Nat} {path : List Nat}
    {place : Place} (rep : Stands doc tree start)
    (found : (rootPlace tree start).locate path = some place)
    (object : place.node.kind? = some .obj) (k : Nat) :
    (iterPlace place k).idxCurrent ≤ (iterPlace place k).idxEnd := by
  cases here : place.children[k]? with
  | none => rw [iterPlace, here]; exact Nat.le_refl _
  | some child =>
      obtain ⟨sep, p, at_, -⟩ := member_at rep found object here
      obtain ⟨name, -, -, ix⟩ := name_of_member at_
      obtain ⟨current, ahead⟩ := iterPlace_lt here (by omega)
      rw [current]
      exact Nat.le_of_lt ahead

/-! ## The loops -/

/-- What a loop keeps, said of the children it has met: calls of the library leave it
alone. -/
structure LoopInv {F α : Type} (forest : Forest) (good : List Child → α → State F → Prop) :
    Prop where
  library : ∀ done acc s, good done acc s → Library forest s
  quiet : ∀ done acc s s', good done acc s → Quiet s s' → Library forest s' →
    good done acc s'

section Loops

variable {F : Type} [DecidableEq F] {env : Env F} {forest : Forest} {s : State F}
  {place : Place} {q : Proxy F} {α : Type} {good : List Child → α → State F → Prop}
  {err : State F → Prop}

theorem take_succ_of {k : Nat} {child : Child} {children : List Child}
    (here : children[k]? = some child) :
    children.take (k + 1) = children.take k ++ [child] := by
  rw [List.take_add_one, here]
  rfl

theorem wp_eachEntry {d : Nat} (at_ : At forest d place) (object : place.node.kind? = some .obj)
    (inv : LoopInv forest good) {body : α → Bytes → Cursor → Act F α}
    (step : ∀ k child acc s, place.children[k]? = some child →
      good (place.children.take k) acc s →
      Action.Wp (body acc (keyText child) child.cursor) s
        (good (place.children.take k ++ [child])) err) (fuel k : Nat) {acc : α} {s : State F}
    (room : (iterPlace place k).idxEnd < (iterPlace place k).idxCurrent + fuel)
    (start : good (place.children.take k) acc s) :
    Action.Wp (eachEntry env d body fuel (iterPlace place k) acc) s (good place.children) err := by
  obtain ⟨doc, cells, tree, begins, path, -, -, -, found, rep, -⟩ :=
    (inv.library _ _ _ start).doc at_
  induction fuel generalizing k acc s with
  | zero =>
      have := iterPlace_le rep found object k
      omega
  | succ fuel ih =>
      rw [eachEntry, Action.wp_bind]
      refine (inv.library _ _ _ start).wp_access at_
        (replies_iterNext (host_validator env) object k) fun s' quiet lib' => ?_
      have kept := inv.quiet _ _ _ s' start quiet lib'
      cases here : place.children[k]? with
      | none =>
          rw [List.take_of_length_le (List.getElem?_eq_none_iff.1 here)] at kept
          exact kept
      | some child =>
          have forward := iterPlace_forward rep found object here
          have stop : (iterPlace place (k + 1)).idxEnd = (iterPlace place k).idxEnd := rfl
          change Action.Wp (body acc (keyText child) child.cursor >>= fun acc =>
            eachEntry env d body fuel (iterPlace place (k + 1)) acc) s' _ _
          rw [Action.wp_bind]
          refine (step k child acc s' here kept).mono (fun acc' s'' kept' => ?_) fun _ => id
          refine ih (k + 1) (by omega) ?_
          rwa [take_succ_of here]

theorem wp_forEntries (at_ : At forest q.doc place) (cursor : q.cur = place.cursor)
    (object : place.node.kind? = some .obj)
    (inv : LoopInv forest good) {body : α → Bytes → Cursor → Act F α}
    (step : ∀ k child acc s, place.children[k]? = some child →
      good (place.children.take k) acc s →
      Action.Wp (body acc (keyText child) child.cursor) s
        (good (place.children.take k ++ [child])) err) {acc : α} {s : State F}
    (start : good [] acc s) :
    Action.Wp (forEntries env q body acc) s (good place.children) err := by
  obtain ⟨doc, cells, tree, begins, path, -, -, -, found, rep, -⟩ :=
    (inv.library _ _ _ start).doc at_
  rw [forEntries, Action.wp_bind, newObjectIter, Action.wp_bind, cursor]
  refine (inv.library _ _ _ start).wp_access at_ (replies_iterInit object) fun s' quiet lib' => ?_
  have kept := inv.quiet _ _ _ s' start quiet lib'
  have inside := iterPlace_le rep found object 0
  change Action.Wp (eachEntry env q.doc body _ (iterPlace place 0) acc) s' _ _
  exact wp_eachEntry at_ object inv step _ 0 (by omega) kept

omit [DecidableEq F] in
theorem wp_eachElement (at_ : At forest q.doc place) (cursor : q.cur = place.cursor)
    (array : place.node.kind? = some .arr) (inv : LoopInv forest good)
    {body : α → Nat → Cursor → Act F α}
    (step : ∀ k child acc s, place.children[k]? = some child →
      good (place.children.take k) acc s →
      Action.Wp (body acc k child.cursor) s (good (place.children.take k ++ [child])) err)
    (small : place.children.length < u32Max) (fuel k : Nat) {acc : α} {s : State F}
    (room : place.children.length < k + fuel) (within : k ≤ place.children.length)
    (start : good (place.children.take k) acc s) :
    Action.Wp (eachElement q body fuel k acc) s (good place.children) err := by
  induction fuel generalizing k acc s with
  | zero => omega
  | succ fuel ih =>
      have count : place.node.children.length = place.children.length := by
        rw [← place.children_map_entry, List.length_map]
      rw [eachElement, Action.wp_bind, cursor]
      refine (inv.library _ _ _ start).wp_access at_ (replies_index k) fun s' quiet lib' => ?_
      have kept := inv.quiet _ _ _ s' start quiet lib'
      rw [if_neg (by omega), pickNode, select, if_pos array, count]
      cases here : place.children[k]? with
      | none =>
          have beyond := List.getElem?_eq_none_iff.1 here
          rw [if_neg (by omega)]
          rw [List.take_of_length_le beyond] at kept
          exact kept
      | some child =>
          rw [if_pos (List.getElem?_eq_some_iff.1 here).1]
          simp only [here]
          change Action.Wp (body acc k child.cursor >>= fun acc =>
            eachElement q body fuel (k + 1) acc) s' _ _
          rw [Action.wp_bind]
          refine (step k child acc s' here kept).mono (fun acc' s'' kept' => ?_) fun _ => id
          refine ih (k + 1) (by omega) (List.getElem?_eq_some_iff.1 here).1 ?_
          rwa [take_succ_of here]

omit [DecidableEq F] in
theorem wp_forElements (at_ : At forest q.doc place) (cursor : q.cur = place.cursor)
    (array : place.node.kind? = some .arr) (inv : LoopInv forest good)
    {body : α → Nat → Cursor → Act F α}
    (step : ∀ k child acc s, place.children[k]? = some child →
      good (place.children.take k) acc s →
      Action.Wp (body acc k child.cursor) s (good (place.children.take k ++ [child])) err)
    {acc : α} {s : State F} (start : good [] acc s) :
    Action.Wp (forElements q body acc) s (good place.children) err := by
  obtain ⟨doc, cells, tree, begins, path, docAt, -, -, found, rep, -⟩ :=
    (inv.library _ _ _ start).doc at_
  have few := length_children_lt rep found
  have width := rep.length_indices.2
  rw [forElements, Action.wp_bind, Action.wp_get, docAt]
  exact wp_eachElement at_ cursor array inv step (by unfold u32Max; omega) _ 0
    (by simp only [Option.map_some, Option.getD_some]; omega) (Nat.zero_le _) start

end Loops

end QJson.Table
