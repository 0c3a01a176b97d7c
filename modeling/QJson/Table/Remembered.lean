import QJson.Table.Provenance
import QJson.Table.Rendered
import QJson.Table.Spelling

/-!
# What provenance records remember

A record of `keep_origin` has the text of a node, and under its keys the strings and the
records of the children.  A table that matches its record holds what the node holds, whatever
was done to the heap since the record was taken.
-/

namespace QJson.Table

open Rfc8259 Validate Doc Decode Ffi Lua

section Statements

variable {F : Type} [DecidableEq F] (env : Env F)

/-- A record was taken of a node. -/
inductive Remembers (origins : List (Origin F)) : Nat → Place → Prop where
  | intro {o : Nat} {origin : Origin F} {place : Place} :
      origins[o]? = some origin → place.node.kind? = some origin.kind →
      originTableSlice origin = place.node.render →
      (origin.kind = .obj → origin.keys = firstKeys (place.children.map keyText)) →
      (origin.kind = .arr → origin.len = place.children.length) →
      (∀ k, (origin.records.lookup k).isSome → (under origin.kind place.children k).isSome) →
      (∀ k child value raw, under origin.kind place.children k = some child →
        origin.records.lookup k = some (.string value raw) →
        IsLeaf env child.place.node (.str value) ∧ child.place.node.render = raw) →
      (∀ k child o', under origin.kind place.children k = some child →
        origin.records.lookup k = some (.table o') → Remembers origins o' child.place) →
      Remembers origins o place

/-- What is recorded of a child. -/
def IsRecordOf (origins : List (Origin F)) : Record F → Place → Prop
  | .string value _, place => IsLeaf env place.node (.str value)
  | .table o, place => Remembers env origins o place

/-- A value is what a node says: it has every key that a child is under, no other key that
Lua can look up, and under each of them what the child says. -/
inductive StillHolds (s : State F) : Place → Value F → Prop where
  | leaf {place : Place} {v : Value F} : IsLeaf env place.node v → StillHolds s place v
  | table {place : Place} {r : Nat} {p : Plain F} {kind : Kind} :
      place.node.kind? = some kind → s.plain? r = some p →
      (∀ k, p.entries.lookup k = none → under kind place.children k = none) →
      (∀ x k, toKey env x = some k → under kind place.children k = none →
        p.entries.lookup k = none) →
      (∀ k child v, under kind place.children k = some child → p.entries.lookup k = some v →
        StillHolds s child.place v) →
      StillHolds s place (.table r)

end Statements

section Remembering

variable {F : Type} [DecidableEq F] {env : Env F} {s : State F}
  {origins origins' : List (Origin F)} {o : Nat} {place : Place} {record : Record F} {v : Value F}

/-- Records stay. -/
theorem Remembers.later (remembers : Remembers env origins o place)
    (later : origins <+: origins') : Remembers env origins' o place := by
  induction remembers with
  | intro here isKind slice keys len known strings _ ih =>
      refine .intro ?_ isKind slice keys len known strings ih
      obtain ⟨rest, rfl⟩ := later
      exact (List.getElem?_append_left (List.getElem?_eq_some_iff.1 here).1).trans here

theorem Remembers.slice (remembers : Remembers env origins o place) {origin : Origin F}
    (here : origins[o]? = some origin) : originTableSlice origin = place.node.render := by
  cases remembers with
  | intro here' _ slice =>
      obtain rfl := Option.some.inj (here.symm.trans here')
      exact slice

/-- The text that is recorded of a string is the text of a string with this value. -/
theorem Remembers.raw (remembers : Remembers env origins o place) (valid : place.node.Valid)
    {origin : Origin F} (here : origins[o]? = some origin) (object : origin.kind = .obj)
    {key value raw : Bytes}
    (isRecord : origin.records.lookup (.str key) = some (.string value raw)) :
    ∃ node : Tree, node.Valid ∧ node.render = raw ∧ IsLeaf env node (.str value) := by
  obtain ⟨here', isKind, slice, keys, len, known, strings, tables⟩ := remembers
  obtain rfl := Option.some.inj (here.symm.trans here')
  obtain ⟨child, found⟩ := Option.isSome_iff_exists.1 (known (.str key) (by rw [isRecord]; rfl))
  obtain ⟨leaf, render⟩ := strings _ child value raw found isRecord
  rw [under, if_pos object] at found
  obtain ⟨i, inside⟩ := List.getElem?_of_mem (mem_of_lastUnder found).1
  exact ⟨child.place.node, (Tree.valid_of_sub? valid (sub?_child inside)).1, render, leaf⟩

variable (positive : ∀ x, env.numbers.key x ≠ some (.inl 0))
include positive

/-- No Lua value is the key `0` of an element. -/
theorem toKey_ne_zero (x : Option (Value F)) : toKey env x ≠ some (.idx 0) := by
  intro same
  cases x with
  | none => cases same
  | some x =>
      cases x with
      | num x =>
          rw [toKey] at same
          obtain ⟨key, isKey, index⟩ := Option.map_eq_some_iff.1 same
          cases key with
          | inl n =>
              obtain rfl := Key.idx.inj index
              exact positive x isKey
          | inr y => cases index
      | _ => cases same

/-- A value that matches its record holds what the node holds. -/
theorem Matches.stillHolds (matches_ : Matches env s record v)
    (recordOf : IsRecordOf env s.origins record place) : StillHolds env s place v := by
  induction matches_ generalizing place with
  | string value raw => exact .leaf recordOf
  | @object r o p origin plain isOrigin here object complete single present recorded _ ih =>
      obtain ⟨here', isKind, slice, keys, len, known, strings, tables⟩ := recordOf
      obtain rfl := Option.some.inj (here.symm.trans here')
      refine .table isKind plain (fun k missing => ?_) (fun x k isKey none_ => ?_)
        fun k child v found entry => ?_
      · by_contra found
        obtain ⟨child, found⟩ := Option.ne_none_iff_exists'.1 found
        rw [object] at found
        cases k with
        | str key =>
            rw [under, if_pos rfl] at found
            obtain ⟨inside, rfl⟩ := mem_of_lastUnder found
            have there := present (keyText child) (by
              rw [keys object, mem_firstKeys]
              exact List.mem_map_of_mem inside)
            rw [missing] at there
            cases there
        | idx n =>
            rw [under, if_neg (by simp)] at found
            cases found
        | _ => cases found
      · by_contra entry
        obtain ⟨v, entry⟩ := Option.ne_none_iff_exists'.1 entry
        have there := known k (recorded k v entry)
        rw [none_] at there
        cases there
      · obtain ⟨record, isRecord⟩ := Option.isSome_iff_exists.1 (recorded k v entry)
        apply ih k v record entry isRecord
        cases record with
        | string value raw => exact (strings k child value raw found isRecord).1
        | table o' => exact tables k child o' found isRecord
  | @array r o p origin plain isOrigin here array complete length inside present _ ih =>
      obtain ⟨here', isKind, slice, keys, len, known, strings, tables⟩ := recordOf
      obtain rfl := Option.some.inj (here.symm.trans here')
      -- A child stands under an index within the length that was recorded.
      have indexed {k : Key F} {child : Child}
          (found : under origin.kind place.children k = some child) :
          ∃ i < origin.len, k = .idx (i + 1) := by
        rw [array] at found
        cases k with
        | str key =>
            rw [under, if_neg (by simp)] at found
            cases found
        | idx n =>
            rw [under] at found
            split at found
            · rename_i later
              obtain ⟨i, rfl⟩ := Nat.exists_eq_succ_of_ne_zero later.2
              exact ⟨i, len array ▸ (List.getElem?_eq_some_iff.1 found).1, rfl⟩
            · cases found
        | _ => cases found
      refine .table isKind plain (fun k missing => ?_) (fun x k isKey none_ => ?_)
        fun k child v found entry => ?_
      · by_contra found
        obtain ⟨child, found⟩ := Option.ne_none_iff_exists'.1 found
        obtain ⟨i, less, rfl⟩ := indexed found
        have there := (present i less).1
        rw [missing] at there
        cases there
      · by_contra entry
        obtain ⟨v, entry⟩ := Option.ne_none_iff_exists'.1 entry
        obtain ⟨n, small, rfl⟩ := inside k v entry
        have some_ : n ≠ 0 := by
          rintro rfl
          exact toKey_ne_zero positive x isKey
        rw [array, under, if_pos ⟨rfl, some_⟩, List.getElem?_eq_none_iff, ← len array] at none_
        omega
      · obtain ⟨i, less, rfl⟩ := indexed found
        obtain ⟨record, isRecord⟩ := Option.isSome_iff_exists.1 (present i less).2
        apply ih i less v record entry isRecord
        cases record with
        | string value raw => exact (strings _ child value raw found isRecord).1
        | table o' => exact tables _ child o' found isRecord

end Remembering

end QJson.Table
