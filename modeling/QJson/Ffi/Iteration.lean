import QJson.Ffi.Members

/-!
# Object iteration in programs

`cursor_len`, `nth_object_entry` and `qjson_iter_next` walk over an object by three
loops of their own.  In every program on an eagerly parsed document the three agree on
one list of entries, and an iterator lists them in order whatever else the program
does between its steps.
-/

namespace QJson.Ffi

open Rfc8259 Validate Doc Decode

/-! ## What programs hold on a parse tree -/

/-- An iterator over the members of a node. -/
def IsIter (root : Place) (it : Iter) : Prop :=
  ∃ path place k, root.locate path = some place ∧ place.node.kind? = some .obj ∧
    it = iterPlace place k

section Programs

variable {doc : Document} {tree : Tree} {start : Nat} {F : Type} {host : Host F}

/-- Programs hold cursors of nodes and iterators over nodes. -/
theorem preserved_nodes (rep : Stands doc tree start)
    (validator : IsStringValidator host.validateString) :
    Preserved host doc (CacheOk doc (rootPlace tree start))
      (fun cur => ∃ path, Denotes (rootPlace tree start) cur path)
      (IsIter (rootPlace tree start)) where
  new := CacheOk.new doc _
  root := ⟨[], rootPlace tree start, Place.locate_nil _, rep.root.symm⟩
  step cache cur seg _ sound denotes := by
    obtain ⟨path, place, found, rfl⟩ := denotes
    obtain ⟨stepped, sound'⟩ := step_eq rep found seg sound
    refine ⟨sound', fun next ok => ?_⟩
    cases meaning : select place.node seg with
    | ok i =>
        rw [meaning] at stepped
        obtain ⟨child, at_, result⟩ := stepped
        obtain rfl := Except.ok.inj (result.symm.trans ok)
        exact ⟨path ++ [i], child.place, Place.locate_child found at_, rfl⟩
    | error error =>
        rw [meaning] at stepped
        rw [show (step doc cache place.cursor seg).1 = fail error from stepped] at ok
        cases ok
  entry cache cur i out _ denotes ok := by
    obtain ⟨path, place, found, rfl⟩ := denotes
    rw [objectEntryAt_eq rep found validator, entryNode] at ok
    have ok := reportAt_eq_ok_iff.1 ok
    split at ok
    · cases here : place.children[i]? with
      | none => rw [here] at ok; cases ok
      | some child =>
          rw [here] at ok
          obtain rfl := Except.ok.inj ok
          exact ⟨path ++ [i], child.place, Place.locate_child found here, rfl⟩
    · cases ok
  init cache cur it _ denotes ok := by
    obtain ⟨path, place, found, rfl⟩ := denotes
    obtain ⟨pos, -, init⟩ := iterInit_eq rep found
    rw [init] at ok
    split at ok
    · rename_i object
      exact ⟨path, place, 0, found, object, (Except.ok.inj ok).symm⟩
    · cases ok
  next it out held ok := by
    obtain ⟨path, place, k, found, object, rfl⟩ := held
    rw [iterNext_eq rep found validator object, nextNode] at ok
    have ok := reportAt_eq_ok_iff.1 ok
    cases here : place.children[k]? with
    | none => rw [here] at ok; cases ok
    | some child =>
        rw [here] at ok
        obtain rfl := Except.ok.inj ok
        exact ⟨⟨path ++ [k], child.place, Place.locate_child found here, rfl⟩,
          path, place, k + 1, found, object, rfl⟩

end Programs

/-! ## One iterator among other calls -/

section Runs

variable {F : Type} (host : Host F) (doc : Document)

/-- The replies to the calls of `qjson_iter_next` on one iterator in a program. -/
def Machine.repliesTo (slot : Nat) (m : Machine) : List Access →
    List (Except QjsonErr (Output F))
  | [] => []
  | access :: program =>
      let reply := m.step host doc access
      if access = .iterNext slot then reply.1 :: reply.2.repliesTo slot program
      else reply.2.repliesTo slot program

variable {host doc} {m : Machine} {slot : Nat} {it : Iter}

/-- Only `qjson_iter_next` moves an iterator. -/
theorem slot_of_next {access : Access} {result : Located (Output F) × SkipCache}
    (answered : m.answer host doc access = some result) {key : Bytes} {value : Cursor}
    {moved : Iter} (ok : result.1 = .ok (.next key value moved)) :
    ∃ slot, access = .iterNext slot := by
  have child {site : Site} {outcome : Rust QjsonErr Cursor}
      (ok : (reportAt site outcome >>= fun next =>
        (.ok (.cursor next) : Located (Output F))) = .ok (.next key value moved)) : False := by
    obtain ⟨next, -, last⟩ := bind_eq_ok_iff.1 ok
    cases last
  have read {site : Site} {outcome : Rust QjsonErr Cursor} {getter : Getter}
      (ok : (reportAt site outcome >>= fun next => getter.read host doc next) =
        .ok (.next key value moved)) : False := by
    obtain ⟨next, -, last⟩ := bind_eq_ok_iff.1 ok
    cases (Getter.read_ok last).2
  cases access with
  | get handle getter path =>
      cases handle with
      | root =>
          obtain rfl := Option.some.inj answered
          rw [Getter.onRoot_eq] at ok
          exact (read ok).elim
      | cursor slot =>
          obtain ⟨cur, -, rfl⟩ := Option.map_eq_some_iff.1 answered
          rw [Getter.onCursor_eq] at ok
          exact (read ok).elim
  | isNull path =>
      obtain rfl := Option.some.inj answered
      obtain ⟨next, -, last⟩ := bind_eq_ok_iff.1 ok
      obtain ⟨type, -, last⟩ := bind_eq_ok_iff.1 last
      cases last
  | field slot key =>
      obtain ⟨cur, -, rfl⟩ := Option.map_eq_some_iff.1 answered
      exact (child ok).elim
  | index slot i =>
      obtain ⟨cur, -, rfl⟩ := Option.map_eq_some_iff.1 answered
      unfold qjsonCursorIndex at ok
      split at ok
      · cases ok
      · exact (child ok).elim
  | bytes slot =>
      obtain ⟨cur, -, rfl⟩ := Option.map_eq_some_iff.1 answered
      obtain ⟨range, -, last⟩ := bind_eq_ok_iff.1 ok
      cases last
  | entryAt slot i =>
      obtain ⟨cur, -, rfl⟩ := Option.map_eq_some_iff.1 answered
      obtain ⟨entry, -, last⟩ := bind_eq_ok_iff.1 ok
      cases last
  | iterInit slot =>
      obtain ⟨cur, -, rfl⟩ := Option.map_eq_some_iff.1 answered
      obtain ⟨it, -, last⟩ := bind_eq_ok_iff.1 ok
      cases last
  | iterNext slot => exact ⟨slot, rfl⟩

/-- Calls do not touch an iterator, except for `qjson_iter_next` on it. -/
theorem iters_of_other (held : m.iters[slot]? = some it) {access : Access}
    (other : access ≠ .iterNext slot) :
    (m.step host doc access).2.iters[slot]? = some it := by
  cases answered : m.answer host doc access with
  | none =>
      rw [Machine.step_none answered]
      exact held
  | some result =>
      rw [Machine.step_some answered]
      have moves := @slot_of_next _ _ _ _ _ _ answered
      obtain ⟨outcome, cache⟩ := result
      cases outcome with
      | error fault => exact held
      | ok output =>
          cases output with
          | iter next =>
              change (m.iters ++ [next])[slot]? = some it
              rw [List.getElem?_append_left (List.getElem?_eq_some_iff.1 held).1]
              exact held
          | next key value moved =>
              obtain ⟨slot', rfl⟩ := moves rfl
              have differ : slot' ≠ slot := fun same => other (by rw [same])
              change (m.iters.set slot' moved)[slot]? = some it
              rw [List.getElem?_set_ne differ]
              exact held
          | _ => exact held

/-- `qjson_iter_next` moves its iterator, or leaves it in place when it fails. -/
theorem step_iterNext (held : m.iters[slot]? = some it) :
    (m.step host doc (.iterNext slot)).1 = ffiCatch (qjsonIterNext host doc it) ∧
      (m.step host doc (.iterNext slot)).2.iters[slot]? =
        match iterNext host doc it with
        | .ok out => some out.2.2
        | .error _ => some it := by
  have answered : m.answer host doc (.iterNext slot) =
      some (qjsonIterNext host doc it, m.cache) := by
    rw [Machine.answer, held]
    rfl
  rw [Machine.step_some answered]
  refine ⟨rfl, ?_⟩
  unfold qjsonIterNext
  cases iterNext host doc it with
  | error fault => exact held
  | ok out =>
      change (m.iters.set slot out.2.2)[slot]? = _
      exact List.getElem?_set_self (List.getElem?_eq_some_iff.1 held).1

/-- What an iterator yields behind its `k`-th step, as the list of entries has it. -/
def yields (entries : List (Bytes × Cursor)) (its : Nat → Iter) (k : Nat) :
    Except QjsonErr (Output F) :=
  match entries[k]? with
  | some entry => .ok (.next entry.1 entry.2 (its (k + 1)))
  | none => .error .notFound

/-- The replies to an iterator list its entries, and from then on report the end. -/
theorem repliesTo_eq {entries : List (Bytes × Cursor)} {its : Nat → Iter}
    (next : ∀ k, iterNext host doc (its k) = reportAt .nowhere (okOr .notFound
      ((entries[k]?).map fun entry => (entry.1, entry.2, its (k + 1)))))
    (rest : ∀ k, entries.length ≤ k → its (k + 1) = its k) (program : List Access) :
    ∀ {m : Machine} {k : Nat}, m.iters[slot]? = some (its k) →
      m.repliesTo host doc slot program =
        (List.range (program.count (.iterNext slot))).map fun i => yields entries its (k + i) := by
  induction program with
  | nil => exact fun _ => rfl
  | cons access program ih =>
      intro m k held
      rw [Machine.repliesTo]
      by_cases here : access = .iterNext slot
      · subst here
        obtain ⟨reply, moved⟩ := @step_iterNext F host doc m slot _ held
        rw [qjsonIterNext, next k] at reply
        rw [next k] at moved
        have advanced : (m.step host doc (.iterNext slot)).2.iters[slot]? =
            some (its (k + 1)) := by
          rw [moved]
          cases found : entries[k]? with
          | some entry => rfl
          | none => exact congrArg some (rest k (List.getElem?_eq_none_iff.1 found)).symm
        have first : (m.step host doc (.iterNext slot)).1 = yields entries its k := by
          rw [reply, yields]
          cases entries[k]? <;> rfl
        rw [if_pos rfl, first, ih advanced, List.count_cons_self, List.range_succ_eq_map,
          List.map_cons, List.map_map]
        congr 1
        refine List.map_congr_left fun i _ => ?_
        rw [Function.comp, Nat.add_right_comm]
        rfl
      · rw [if_neg here, ih (iters_of_other held here), List.count_cons_of_ne here]

end Runs

/-! ## The entries of an object -/

/-- The decoded name of an entry. -/
def entryKey (entry : Entry) : Bytes :=
  match entry.name with
  | some name => bodyText name.body
  | none => []

/-- The entries of the object under a cursor, and the iterators in front of each of them:
`cursor_len` counts them, `nth_object_entry` finds them by position, and an iterator
lists them in source order, moving forward, and then reports the end for ever, whatever
calls a program makes in between. -/
structure Iterates {F : Type} (host : Host F) (doc : Document) (root : Place)
    (path : List Nat) (node : Tree) (cur : Cursor) (entries : List (Bytes × Cursor))
    (its : Nat → Iter) : Prop where
  denotes : Denotes root cur path
  subtree : root.node.sub? path = some node
  keys : entries.map Prod.fst = node.children.map entryKey
  values : ∀ i entry, entries[i]? = some entry → Denotes root entry.2 (path ++ [i])
  length : cursorLen doc cur = .ok entries.length
  entryAt : ∀ i, objectEntryAt host doc cur i =
    reportAt (.value cur) (okOr .notFound entries[i]?)
  init : iterInit doc cur = .ok (its 0)
  next : ∀ i, iterNext host doc (its i) = reportAt .nowhere (okOr .notFound
    ((entries[i]?).map fun entry => (entry.1, entry.2, its (i + 1))))
  forward : ∀ i < entries.length, (its i).idxCurrent < (its (i + 1)).idxCurrent
  interleaved : ∀ (m : Machine) (slot k : Nat), m.iters[slot]? = some (its k) →
    ∀ program : List Access,
    m.repliesTo host doc slot program =
      (List.range (program.count (.iterNext slot))).map fun i => yields entries its (k + i)

theorem iterates_of_locate {doc : Document} {tree : Tree} {start : Nat} {F : Type}
    {host : Host F} (rep : Stands doc tree start)
    (validator : IsStringValidator host.validateString) {path : List Nat} {place : Place}
    (found : (rootPlace tree start).locate path = some place)
    (object : place.node.kind? = some .obj) :
    Iterates host doc (rootPlace tree start) path place.node place.cursor
      (place.children.map fun child => (keyText child, child.cursor)) (iterPlace place) := by
  have entryAt (i : Nat) : (place.children.map fun child =>
      (keyText child, child.cursor))[i]? =
      (place.children[i]?).map fun child => (keyText child, child.cursor) :=
    List.getElem?_map
  have next (i : Nat) : iterNext host doc (iterPlace place i) =
      reportAt .nowhere (okOr .notFound (((place.children.map fun child =>
        (keyText child, child.cursor))[i]?).map fun entry =>
          (entry.1, entry.2, iterPlace place (i + 1)))) := by
    rw [iterNext_eq rep found validator object, nextNode, entryAt, Option.map_map]
    rfl
  refine
    { denotes := ⟨place, found, rfl⟩
      subtree := Place.locate_node found
      keys := ?_
      values := ?_
      length := ?_
      entryAt := fun i => ?_
      init := ?_
      next := next
      forward := fun i inside => ?_
      interleaved := fun m slot k held program => repliesTo_eq next ?_ program held }
  · rw [← place.children_map_entry, List.map_map, List.map_map]
    rfl
  · intro i entry here
    rw [entryAt] at here
    obtain ⟨child, childAt, rfl⟩ := Option.map_eq_some_iff.1 here
    exact ⟨child.place, Place.locate_child found childAt, rfl⟩
  · rw [cursorLen_eq rep found, object, if_pos (by rfl), List.length_map,
      ← place.children_map_entry, List.length_map]
  · rw [objectEntryAt_eq rep found validator, entryNode, if_pos object, entryAt]
  · obtain ⟨pos, -, init⟩ := iterInit_eq rep found
    rw [init, if_pos object]
  · rw [List.length_map] at inside
    exact iterPlace_forward rep found object (List.getElem?_eq_getElem inside)
  · intro k beyond
    rw [List.length_map] at beyond
    rw [iterPlace, iterPlace, List.getElem?_eq_none beyond,
      List.getElem?_eq_none (Nat.le_succ_of_le beyond)]

/-- In every program on an eagerly parsed document, iteration over the object under a
cursor is complete, in source order and consistent with access by position. -/
theorem object_iteration (scanner : ScanPath) (strings : StringPath) {F : Type}
    (std : StdFloat F) (buf : Bytes) (opts : Options) (doc : Document)
    (small : buf.length < 2 ^ 32 - 1) (eager : opts.isEager = true)
    (parsed : parseWithOptions (dispatch scanner strings) buf opts = .ok doc) :
    ∃ tree start, tree.Parses buf ∧ ∀ m, Reached ⟨strings.validate, std⟩ doc m →
      ∀ cur ∈ m.cursors, typeOf doc cur = .ok .obj → ∃ path node entries its,
        Iterates ⟨strings.validate, std⟩ doc (rootPlace tree start) path node cur entries
          its := by
  obtain ⟨tree, parses⟩ := exists_parses scanner strings small eager parsed
  obtain ⟨start, rep⟩ := represents_of_parse scanner strings small eager parsed parses
  refine ⟨tree, start, parses, fun m reached cur held object => ?_⟩
  have kept := @preserved_nodes doc tree start F ⟨strings.validate, std⟩ rep.stands
    strings.isStringValidator
  obtain ⟨path, place, found, rfl⟩ := (kept.reached reached).2.1 cur held
  have container : place.node.kind? = some .obj := by
    rw [typeOf_eq rep.stands found] at object
    exact kind_of_nodeType.1 (Except.ok.inj object)
  exact ⟨path, place.node, _, _,
    iterates_of_locate rep.stands strings.isStringValidator found container⟩

theorem object_iteration_nested :
    ∃ tree start, tree.Parses nestedText ∧
      ∀ m, Reached ⟨StringPath.scalar.validate, unitFloat⟩ (nestedDoc true) m →
        ∀ cur ∈ m.cursors, typeOf (nestedDoc true) cur = .ok .obj → ∃ path node entries its,
          Iterates ⟨StringPath.scalar.validate, unitFloat⟩ (nestedDoc true)
            (rootPlace tree start) path node cur entries its :=
  object_iteration .scalar .scalar unitFloat nestedText Options.default (nestedDoc true)
    (by decide) (by decide) (by decide +kernel)

end QJson.Ffi
