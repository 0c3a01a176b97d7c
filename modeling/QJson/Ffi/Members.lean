import QJson.Ffi.Live
import QJson.Ffi.Nodes

/-!
# Members of an object, by position and by iteration

`qjson_cursor_object_entry_at`, `qjson_iter_init` and `qjson_iter_next` on the cursor
of a node.  An iterator stands in front of one of the members, or behind them all, and
`qjson_iter_next` moves it by one.
-/

namespace QJson.Ffi

open Rfc8259 Validate Doc Decode

/-- The decoded key of a member. -/
def keyText (child : Child) : Bytes :=
  match child.entry.name with
  | some name => bodyText name.body
  | none => []

/-- What `qjson_cursor_object_entry_at` returns at a node. -/
def entryNode (place : Place) (n : Nat) : Located (Bytes × Cursor) :=
  reportAt (.value place.cursor) (if place.node.kind? = some .obj then
    okOr .notFound ((place.children[n]?).map fun child => (keyText child, child.cursor))
  else fail .typeMismatch)

/-- The iterator in front of the member at position `k`, or behind the last one. -/
def iterPlace (place : Place) (k : Nat) : Iter :=
  ⟨((place.children[k]?).map Child.keyIx).getD place.cursor.idxEnd, place.cursor.idxEnd⟩

/-- What `qjson_iter_next` returns in front of the member at position `k`. -/
def nextNode (place : Place) (k : Nat) : Located (Bytes × Cursor × Iter) :=
  reportAt .nowhere (okOr .notFound ((place.children[k]?).map fun child =>
    (keyText child, child.cursor, iterPlace place (k + 1))))

section Keys

variable {doc : Document} {child : Child} {sep : UInt8} {p : Nat} {F : Type} {host : Host F}
  (validator : IsStringValidator host.validateString)

theorem name_of_member (at_ : ChildAt doc .obj child sep p) :
    ∃ name, child.entry.name = some name ∧ IsBody name.body ∧ child.ix = child.keyIx + 3 := by
  have nameOk := at_.nameOk
  have ix := at_.ix
  cases named : child.entry.name with
  | none => rw [named] at nameOk; exact nameOk.elim
  | some name =>
      rw [named] at nameOk ix
      exact ⟨name, rfl, nameOk.2.1, ix⟩

include validator in
theorem key_decoded (at_ : ChildAt doc .obj child sep p) :
    ∃ opening closing colon, doc.indices[child.keyIx]? = some opening ∧
      doc.indices[child.keyIx + 1]? = some closing ∧
      doc.indices[child.keyIx + 2]? = some colon ∧
      doc.buf[opening]? = some 0x22 ∧ doc.buf[closing]? = some 0x22 ∧
      doc.buf[colon]? = some 0x3A ∧
      ∀ site, decodeString host doc site opening closing = .ok (keyText child) := by
  obtain ⟨name, named, valid, -⟩ := name_of_member at_
  obtain ⟨opening, closing, colon, first, second, third, opens, closes, parts, upTo, cut⟩ :=
    at_.key_marks named
  have inside : closing ≤ doc.buf.length :=
    Nat.le_of_lt (List.getElem?_eq_some_iff.1 closes).1
  refine ⟨opening, closing, colon, first, second, third, opens, closes, parts, fun site => ?_⟩
  rw [decodeString_eq validator valid upTo inside cut, keyText, named]

end Keys

section Members

variable {doc : Document} {tree : Tree} {start : Nat} {path : List Nat} {place : Place}
  (rep : Stands doc tree start) (found : (rootPlace tree start).locate path = some place)
include rep found

/-- A member stands in the document, and the next one behind its comma. -/
theorem member_at {k : Nat} {child : Child} {kind : Kind}
    (container : place.node.kind? = some kind) (here : place.children[k]? = some child) :
    ∃ sep p, ChildAt doc kind child sep p ∧
      match place.children[k + 1]? with
      | some next => sep = 0x2C ∧ next.keyIx = child.sepIx + 1
      | none => sep = kind.closer := by
  have some_ : place.node.children ≠ [] := by
    rw [← place.children_map_entry]
    intro none
    rw [List.map_eq_nil_iff.1 none] at here
    cases here
  obtain ⟨entries, -, at_, children⟩ :=
    (rep.locate found).1.entries_of_container container some_
  rw [children] at here ⊢
  exact at_.next_child here

variable {F : Type} {host : Host F} (validator : IsStringValidator host.validateString)
include validator

/-- `qjson_cursor_object_entry_at` returns the member at the position. -/
theorem objectEntryAt_eq (n : Nat) :
    objectEntryAt host doc place.cursor n = entryNode place n := by
  have small := rep.length_indices.2
  rw [objectEntryAt, nthObjectEntry_eq rep found, entryNode]
  by_cases object : place.node.kind? = some .obj
  · rw [if_pos object, if_pos object]
    cases here : place.children[n]? with
    | none => rfl
    | some child =>
        obtain ⟨sep, p, at_, -⟩ := member_at rep found object here
        obtain ⟨opening, closing, colon, first, second, -, -, -, -, decoded⟩ :=
          @key_decoded _ _ _ _ _ host validator at_
        have bound := (List.getElem?_eq_some_iff.1 second).1
        have entry : reportAt (.value place.cursor) (okOr .notFound
            ((some child).map fun child => (child.keyIx, child.cursor))) =
            (.ok (child.keyIx, child.cursor) : Located (Nat × Cursor)) := rfl
        rw [entry, ok_bind, atIdx_of_getElem? first, u32_of_lt (by omega),
          atIdx_of_getElem? second]
        change (decodeString host doc _ opening closing >>= fun key =>
          (.ok (key, child.cursor) : Located (Bytes × Cursor))) = _
        rw [decoded]
        rfl
  · rw [if_neg object, if_neg object]
    rfl

omit validator in
theorem iterInit_eq :
    ∃ pos, doc.indices[place.ix]? = some pos ∧
      iterInit doc place.cursor =
        if place.node.kind? = some .obj then .ok (iterPlace place 0)
        else reportAt (.byte pos) (fail .typeMismatch) := by
  have sits := (rep.locate found).1
  have small := rep.length_indices.2
  have first : place.cursor.idxStart = place.ix := rfl
  have mismatch {pos : Nat} (markAt : doc.indices[place.ix]? = some pos)
      (noBrace : doc.buf[pos]? ≠ some 0x7B) :
      iterInit doc place.cursor = reportAt (.byte pos) (fail .typeMismatch) := by
    rw [iterInit, first, atIdx_of_getElem? markAt]
    change (if doc.buf[pos]? ≠ some 0x7B then _ else _) = _
    rw [if_pos noBrace]
  cases shape : place.node.kind? with
  | none =>
      by_cases special : isRootScalarCursor doc place.cursor = true
      · obtain ⟨token, spelled, rfl⟩ := (isRootScalarCursor_eq rep found).1 special
        obtain ⟨sentinel, past⟩ := scalar_root_lead rep found spelled
        exact ⟨_, sentinel, mismatch sentinel (by rw [past]; simp)⟩
      · obtain ⟨pos, b, markAt, byte, noBrace, -⟩ := leaf_lead rep found shape special
        exact ⟨pos, markAt, mismatch markAt (by rw [byte]; simpa using noBrace)⟩
  | some kind =>
      obtain ⟨openerAt, opener, closerAt, -⟩ := sits.brackets shape
      refine ⟨place.pos, openerAt, ?_⟩
      cases kind with
      | arr => exact mismatch openerAt (by rw [opener]; decide)
      | obj =>
          have bound := (List.getElem?_eq_some_iff.1 openerAt).1
          have length := rep.length_indices.1
          have guard := sits.isEmptyContainer shape
          rw [if_pos rfl, iterInit, first, atIdx_of_getElem? openerAt]
          change (if doc.buf[place.pos]? ≠ some 0x7B then _ else _) = _
          rw [if_neg (by rw [opener]; decide), ← first, guard]
          change (.ok ⟨_, _⟩ : Located Iter) = _
          congr 1
          by_cases empty : place.node.children = []
          · have none : place.children = [] := by
              rw [← List.map_eq_nil_iff (f := Child.entry), place.children_map_entry, empty]
            simp [empty, none, iterPlace]
          · obtain ⟨entries, spelled, -, children⟩ :=
              sits.entries_of_container shape empty
            have room := (Sits.room rep found spelled).1
            have next : u32 (place.ix + 1) = place.ix + 1 := u32_of_lt (by omega)
            have begins : (place.children[0]?).map Child.keyIx = some (place.ix + 1) := by
              rw [children]
              cases entries <;> rfl
            simp [empty, first, next, iterPlace, begins]

omit validator rep found in
theorem iterPlace_lt {k : Nat} {child : Child} (here : place.children[k]? = some child)
    (object : child.keyIx < child.ix) :
    (iterPlace place k).idxCurrent = child.keyIx ∧ child.keyIx < place.cursor.idxEnd := by
  have inside := place.children_bounds.1 child (List.mem_of_getElem? here)
  refine ⟨by rw [iterPlace, here]; rfl, ?_⟩
  have upTo : place.cursor.idxEnd = place.ix + place.node.signs.length - 1 := by
    have some_ : place.node.signs ≠ [] := by
      intro none
      rw [none] at inside
      simp only [Child.sepIx, List.length_nil] at inside
      omega
    simp [Place.cursor, lastIx, some_]
  simp only [Child.sepIx] at inside
  omega

/-- `qjson_iter_next` returns the member in front of which the iterator stands. -/
theorem iterNext_eq (object : place.node.kind? = some .obj) (k : Nat) :
    iterNext host doc (iterPlace place k) = nextNode place k := by
  have small := rep.length_indices.2
  rw [nextNode]
  cases here : place.children[k]? with
  | none =>
      have behind : (iterPlace place k).idxCurrent = place.cursor.idxEnd := by
        rw [iterPlace, here]
        rfl
      rw [iterNext, behind]
      exact if_pos (Nat.le_refl _)
  | some child =>
      obtain ⟨sep, p, at_, follows⟩ := member_at rep found object here
      obtain ⟨name, -, -, ix⟩ := name_of_member at_
      obtain ⟨opening, closing, colon, first, second, third, opens, closes, parts, decoded⟩ :=
        @key_decoded _ _ _ _ _ host validator at_
      obtain ⟨sepPos, sepAt, sepByte⟩ := at_.sep_read
      have bound := at_.sepIx_lt
      have below : child.ix ≤ child.sepIx := Nat.le_add_right _ _
      obtain ⟨current, ahead⟩ := iterPlace_lt here (by omega)
      have stop : (iterPlace place k).idxEnd = place.cursor.idxEnd := rfl
      have value : u32 (child.keyIx + 3) = child.ix := by
        rw [u32_of_lt (by omega), ix]
      have key : iterKey doc (iterPlace place k) = .ok (opening, closing) := by
        rw [iterKey, current, u32_of_lt (by omega), u32_of_lt (by omega),
          atIdx_of_getElem? first, atIdx_of_getElem? second, atIdx_of_getElem? third]
        change (if doc.buf[opening]? ≠ some 0x22 ∨ doc.buf[closing]? ≠ some 0x22 ∨
          doc.buf[colon]? ≠ some 0x3A then _ else _) = _
        rw [if_neg (by simp [opens, closes, parts])]
      rw [iterNext, if_neg (by rw [current, stop]; omega), key, ok_bind, current]
      simp only [value, at_.findValueSpan small]
      change (reportAt .nowhere (atIdx doc.indices child.sepIx) >>= fun afterPos => _) = _
      rw [atIdx_of_getElem? sepAt]
      change (reportAt .nowhere (getOr doc.buf sepPos) >>= fun after => _) = _
      rw [getOr, sepByte]
      change (decodeString host doc _ opening closing >>= fun key => _) = _
      rw [decoded, ok_bind]
      have behind : (iterPlace place (k + 1)).idxCurrent =
          if sep = 0x2C then child.sepIx + 1 else place.cursor.idxEnd := by
        cases next : place.children[k + 1]? with
        | none =>
            rw [next] at follows
            obtain rfl : sep = 0x7D := follows
            rw [iterPlace, next]
            rfl
        | some other =>
            rw [next] at follows
            obtain ⟨rfl, start⟩ := follows
            rw [iterPlace, next]
            exact start
      have whole (current : Nat) (same : (iterPlace place (k + 1)).idxCurrent = current) :
          iterPlace place (k + 1) = ⟨current, place.cursor.idxEnd⟩ := by
        rw [← same]
        rfl
      rcases at_.sepCases with rfl | rfl
      · rw [if_pos rfl] at behind
        rw [if_pos rfl, u32_of_lt (by omega), stop]
        exact congrArg (fun it => (.ok (keyText child, child.cursor, it) : Located _))
          (whole _ behind).symm
      · rw [if_neg (by decide)] at behind
        rw [if_neg (by decide), if_pos (show Kind.obj.closer = 0x7D from rfl), stop]
        exact congrArg (fun it => (.ok (keyText child, child.cursor, it) : Located _))
          (whole _ behind).symm

omit validator in
/-- An iterator moves forward. -/
theorem iterPlace_forward (object : place.node.kind? = some .obj) {k : Nat} {child : Child}
    (here : place.children[k]? = some child) :
    (iterPlace place k).idxCurrent < (iterPlace place (k + 1)).idxCurrent := by
  obtain ⟨sep, p, at_, -⟩ := member_at rep found object here
  obtain ⟨name, -, -, ix⟩ := name_of_member at_
  obtain ⟨current, ahead⟩ := iterPlace_lt here (by omega)
  rw [current]
  cases next : place.children[k + 1]? with
  | none =>
      rw [iterPlace, next]
      exact ahead
  | some other =>
      rw [iterPlace, next]
      obtain ⟨small, rfl⟩ := List.getElem?_eq_some_iff.1 here
      obtain ⟨small', rfl⟩ := List.getElem?_eq_some_iff.1 next
      have apart := List.pairwise_iff_getElem.1 place.children_bounds.2 k (k + 1) small small'
        (Nat.lt_succ_self k)
      have inside := place.children_bounds.1 _ (List.getElem_mem small)
      have below : place.children[k].ix ≤ place.children[k].sepIx := Nat.le_add_right _ _
      change place.children[k].keyIx < place.children[k + 1].keyIx
      omega

end Members

end QJson.Ffi
