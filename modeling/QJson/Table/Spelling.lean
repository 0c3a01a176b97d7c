import QJson.Rfc8259.Assemble
import QJson.Table.Cycles
import QJson.Table.Escapes
import QJson.Table.Fields
import QJson.Table.Provenance

/-!
# What encoding spells

The tree that `qjson.encode` writes for a value, described on the heap in front of the call.
A clean proxy and a table that still matches its provenance are copied from their source;
every other table is a container of its parts.  A part is spelled by at most one tree, and
that tree is a value of RFC 8259 when the strings and the keys are valid UTF-8.
-/

namespace QJson.Table

open Relation Rfc8259 Validate Doc Decode Ffi Lua

/-- What stands for a child of a container: a value of the heap, a node of the source that
nothing is cached for, or the source of a long string. -/
inductive Part (F : Type) where
  | value (v : Option (Value F))
  | node (tree : Tree)
  | raw (text : Bytes)

/-- The name under which a part is written. -/
def nameOf (key : Option Bytes) : Option Name :=
  key.map fun k => ⟨[], k.flatMap escapeByte, []⟩

section Statements

variable {F : Type} [DecidableEq F] (env : Env F) (forest : Forest) (s : State F)

/-- The tree of a scalar or a string. -/
def leafTree : Option (Value F) → Option Tree
  | none | some .null => some (.scalar litNull)
  | some (.str x) => some (.str (x.flatMap escapeByte))
  | some (.num x) =>
      if env.numbers.isFinite x then
        some (.scalar (if env.numbers.isInteger x then env.numbers.formatD x
          else env.numbers.formatG s.settings.precision x))
      else none
  | some (.bool b) => some (.scalar (if b then litTrue else litFalse))
  | some (.int64 n) => some (.scalar (env.numbers.int64Text n))
  | some (.table _) | some (.foreign _) => none

/-! ## Copies -/

/-- A value is still what its provenance recorded. -/
inductive Matches : Record F → Value F → Prop where
  | string (value raw : Bytes) : Matches (.string value raw) (.str value)
  | object {r o : Nat} {p : Plain F} {origin : Origin F} :
      s.plain? r = some p → p.origin = some o → s.origins[o]? = some origin →
      origin.kind = .obj → origin.complete = true → origin.hadDuplicates = false →
      (∀ key ∈ origin.keys, (p.entries.lookup (.str key)).isSome) →
      (∀ k v, p.entries.lookup k = some v → (origin.records.lookup k).isSome) →
      (∀ k v record, p.entries.lookup k = some v → origin.records.lookup k = some record →
        Matches record v) →
      Matches (.table o) (.table r)
  | array {r o : Nat} {p : Plain F} {origin : Origin F} :
      s.plain? r = some p → p.origin = some o → s.origins[o]? = some origin →
      origin.kind = .arr → origin.complete = true → env.length p.entries = origin.len →
      (∀ k v, p.entries.lookup k = some v → ∃ n ≤ origin.len, k = .idx n) →
      (∀ i < origin.len, (p.entries.lookup (.idx (i + 1))).isSome ∧
        (origin.records.lookup (.idx (i + 1))).isSome) →
      (∀ i < origin.len, ∀ v record, p.entries.lookup (.idx (i + 1)) = some v →
        origin.records.lookup (.idx (i + 1)) = some record → Matches record v) →
      Matches (.table o) (.table r)

/-- A table that is written as a copy of its source. -/
inductive Sourced : Nat → Tree → Prop where
  | clean {r : Nat} {q : Proxy F} {place : Place} :
      s.proxy? r = some q → q.dirty = false → At forest q.doc place → q.cur = place.cursor →
      place.node.Valid → Sourced r place.node
  | matched {r o : Nat} {origin : Origin F} {tree : Tree} :
      Matches env s (.table o) (.table r) → s.origins[o]? = some origin → tree.Valid →
      tree.render = originTableSlice origin → Sourced r tree

/-! ## Containers -/

/-- The part of a child of a plain table that has a record. -/
def childPart (v : Value F) : Option (Record F) → Part F
  | some (.string value raw) => if v = .str value then .raw raw else .value (some v)
  | _ => .value (some v)

/-- The keys and the records that a plain table takes from its source. -/
def sourceOf (p : Plain F) : List Bytes × Map (Key F) (Record F) :=
  match p.origin.bind fun o => s.origins[o]? with
  | some origin => if origin.kind = .obj then (origin.keys, origin.records) else ([], ∅)
  | none => ([], ∅)

/-- An entry of a plain table that was not in its source. -/
def isOther (keys : List Bytes) (e : Key F × Value F) : Bool :=
  match e.1 with
  | .str key => key ∉ keys
  | _ => true

/-- The part of a member that was in the source. -/
def sourcePart (p : Plain F) (records : Map (Key F) (Record F)) (key : Bytes) :
    Option (Option Bytes × Part F) :=
  (p.entries.lookup (.str key)).map fun v => (some key, childPart v (records.lookup (.str key)))

/-- The part of an entry of a plain table. -/
def entryPart (e : Key F × Value F) : Option (Option Bytes × Part F) :=
  (keyString env e.1).toOption.map fun key => (some key, .value (some e.2))

/-- The part of a member of a written object that has no order state. -/
def memberPart (q : Proxy F) (children : List Child) (key : Bytes) :
    Option (Option Bytes × Part F) :=
  match cachedOnce q (children.map keyText) key with
  | some cached => some (some key, .value (some cached))
  | none => (lastUnder children key).map fun child => (some key, .node child.place.node)

/-- The part of an element of a written array. -/
def elementPart (q : Proxy F) (children : List Child) (i : Nat) :
    Option (Option Bytes × Part F) :=
  children[i]?.map fun child => (none, match q.elems.lookup (i + 1) with
    | some v => .value (some v)
    | none => .node child.place.node)

/-- The parts of a table that is not copied, with their keys. -/
inductive Laid (r : Nat) : Kind → List (Option Bytes × Part F) → Prop where
  | ordered {q : Proxy F} {o : Order F} :
      s.proxy? r = some q → q.dirty = true → q.kind = .obj → q.order = some o →
      Laid r .obj (o.keys.filterMap fun k =>
        (o.values.lookup k).map fun v => (some k, .value (some v)))
  | members {q : Proxy F} {place : Place} :
      s.proxy? r = some q → q.dirty = true → q.kind = .obj → q.order = none →
      At forest q.doc place → q.cur = place.cursor →
      Laid r .obj ((firstKeys (place.children.map keyText)).filterMap
        (memberPart q place.children))
  | elements {q : Proxy F} {place : Place} :
      s.proxy? r = some q → q.dirty = true → q.kind = .arr →
      At forest q.doc place → q.cur = place.cursor →
      Laid r .arr ((List.range place.children.length).filterMap (elementPart q place.children))
  | array {p : Plain F} {n : Nat} :
      s.plain? r = some p → (∀ o, ¬ Matches env s (.table o) (.table r)) →
      s.elementCount env p = some n →
      Laid r .arr ((List.range n).filterMap fun i =>
        some (none, .value (p.entries.lookup (.idx (i + 1)))))
  | object {p : Plain F} :
      s.plain? r = some p → (∀ o, ¬ Matches env s (.table o) (.table r)) →
      s.elementCount env p = none →
      Laid r .obj ((sourceOf s p).1.filterMap (sourcePart p (sourceOf s p).2) ++
        ((env.order p.entries).filter (isOther (sourceOf s p).1)).filterMap (entryPart env))

/-- A part is spelled by a tree. -/
inductive Spells : Part F → Tree → Prop where
  | leaf {v : Option (Value F)} {tree : Tree} :
      leafTree env s v = some tree → Spells (.value v) tree
  | copied {r : Nat} {tree : Tree} :
      Sourced env forest s r tree → Spells (.value (some (.table r))) tree
  | table {r : Nat} {kind : Kind} {parts : List (Option Bytes × Part F)}
      {pairs : List (Option Name × Tree)} :
      Laid env forest s r kind parts →
      pairs.map Prod.fst = parts.map (fun part => nameOf part.1) →
      (∀ (i : Nat) (part : Option Bytes × Part F) (pair : Option Name × Tree),
        parts[i]? = some part → pairs[i]? = some pair → Spells part.2 pair.2) →
      Spells (.value (some (.table r))) (Tree.ofList kind pairs)
  | container {tree : Tree} : tree.Valid → tree.kind?.isSome → Spells (.node tree) tree
  | reread {tree out : Tree} {v : Value F} :
      tree.Valid → IsLeaf env tree v → leafTree env s (some v) = some out →
      Spells (.node tree) out
  | raw {text : Bytes} {tree : Tree} : tree.Valid → tree.render = text → Spells (.raw text) tree

/-- Encoding goes from a container into a part. -/
def PartOf (outer inner : Part F) : Prop :=
  ∃ r kind parts key, outer = .value (some (.table r)) ∧ Laid env forest s r kind parts ∧
    (key, inner) ∈ parts

/-- A part that is copied, as this tree where it is a container. -/
inductive Copies : Part F → Tree → Prop where
  | table {r : Nat} {tree : Tree} :
      Sourced env forest s r tree → Copies (.value (some (.table r))) tree
  | node {tree : Tree} : Copies (.node tree) tree
  | raw {text : Bytes} {tree : Tree} : tree.Valid → tree.render = text → Copies (.raw text) tree

/-- No copy that encoding comes to is deeper. -/
def CopiesWithin (depth : Nat) (part : Part F) : Prop :=
  ∀ inner tree, ReflTransGen (PartOf env forest s) part inner → Copies env forest s inner tree →
    tree.depth ≤ depth

/-- Every string and every key that encoding comes to is valid UTF-8. -/
def AllUtf8 (part : Part F) : Prop :=
  ∀ inner, ReflTransGen (PartOf env forest s) part inner →
    (∀ x, inner = .value (some (.str x)) → IsUtf8 x) ∧
    ∀ r kind parts key child, inner = .value (some (.table r)) →
      Laid env forest s r kind parts → (some key, child) ∈ parts → IsUtf8 key

end Statements

section Unique

variable {F : Type} [DecidableEq F] {env : Env F} {forest : Forest} {s : State F} {r : Nat}
  {node tree tree' : Tree} {v w : Value F} {kind kind' : Kind}
  {parts parts' : List (Option Bytes × Part F)} {part : Part F}

/-- A valid tree is told by its text. -/
theorem eq_of_render (valid : tree.Valid) (valid' : tree'.Valid)
    (same : tree.render = tree'.render) : tree = tree' := by
  refine (parses_render_iff valid' tree).1 ?_
  rw [← same]
  exact (parses_render_iff valid tree).2 rfl

omit [DecidableEq F] in
/-- A table without a source has other entries only. -/
theorem filter_isOther_nil (entries : List (Key F × Value F)) :
    entries.filter (isOther []) = entries := by
  refine List.filter_eq_self.2 fun e _ => ?_
  rw [isOther]
  split
  · exact decide_eq_true List.not_mem_nil
  · rfl

omit [DecidableEq F] in
/-- A proxy is not a plain table. -/
theorem proxy_ne_plain {q : Proxy F} {p : Plain F} (here : s.proxy? r = some q)
    (plain : s.plain? r = some p) : False := by
  have clash := (proxy?_eq_some.1 here).symm.trans (plain?_eq_some.1 plain)
  cases clash

theorem Matches.plain {o : Nat} (matches_ : Matches env s (.table o) (.table r)) :
    ∃ p, s.plain? r = some p ∧ p.origin = some o := by
  cases matches_ with
  | object plain isOrigin => exact ⟨_, plain, isOrigin⟩
  | array plain isOrigin => exact ⟨_, plain, isOrigin⟩

theorem Sourced.unique (left : Sourced env forest s r tree) (right : Sourced env forest s r tree') :
    tree = tree' := by
  cases left with
  | clean here _ at_ cursor _ =>
      cases right with
      | clean here' _ at_' cursor' _ =>
          obtain rfl := Option.some.inj (here.symm.trans here')
          rw [at_.unique at_' (cursor.symm.trans cursor')]
      | matched matches_ _ _ _ =>
          obtain ⟨p, plain, -⟩ := matches_.plain
          exact (proxy_ne_plain here plain).elim
  | matched matches_ isOrigin valid render =>
      obtain ⟨p, plain, o⟩ := matches_.plain
      cases right with
      | clean here _ _ _ _ => exact (proxy_ne_plain here plain).elim
      | matched matches' isOrigin' valid' render' =>
          obtain ⟨p', plain', o'⟩ := matches'.plain
          obtain rfl := Option.some.inj (plain.symm.trans plain')
          obtain rfl := Option.some.inj (o.symm.trans o')
          obtain rfl := Option.some.inj (isOrigin.symm.trans isOrigin')
          exact eq_of_render valid valid' (render.trans render'.symm)

/-- A table that is copied has no parts. -/
theorem Laid.not_sourced (laid : Laid env forest s r kind parts)
    (copied : Sourced env forest s r tree) : False := by
  have written {q : Proxy F} (here : s.proxy? r = some q) (dirty : q.dirty = true) : False := by
    cases copied with
    | clean here' clean =>
        obtain rfl := Option.some.inj (here.symm.trans here')
        rw [clean] at dirty
        cases dirty
    | matched matches_ =>
        obtain ⟨p, plain, -⟩ := matches_.plain
        exact proxy_ne_plain here plain
  have unmatched {p : Plain F} (plain : s.plain? r = some p)
      (apart : ∀ o, ¬ Matches env s (.table o) (.table r)) : False := by
    cases copied with
    | clean here => exact proxy_ne_plain here plain
    | matched matches_ => exact apart _ matches_
  cases laid with
  | ordered here dirty => exact written here dirty
  | members here dirty => exact written here dirty
  | elements here dirty => exact written here dirty
  | array plain apart => exact unmatched plain apart
  | object plain apart => exact unmatched plain apart

theorem Laid.unique (left : Laid env forest s r kind parts)
    (right : Laid env forest s r kind' parts') : kind = kind' ∧ parts = parts' := by
  cases left with
  | ordered here _ object isOrder =>
      cases right with
      | ordered here' _ _ isOrder' =>
          obtain rfl := Option.some.inj (here.symm.trans here')
          obtain rfl := Option.some.inj (isOrder.symm.trans isOrder')
          exact ⟨rfl, rfl⟩
      | members here' _ _ unordered =>
          obtain rfl := Option.some.inj (here.symm.trans here')
          cases isOrder.symm.trans unordered
      | elements here' _ array =>
          obtain rfl := Option.some.inj (here.symm.trans here')
          cases object.symm.trans array
      | array plain => exact (proxy_ne_plain here plain).elim
      | object plain => exact (proxy_ne_plain here plain).elim
  | members here _ object unordered at_ cursor =>
      cases right with
      | ordered here' _ _ isOrder =>
          obtain rfl := Option.some.inj (here.symm.trans here')
          cases isOrder.symm.trans unordered
      | members here' _ _ _ at_' cursor' =>
          obtain rfl := Option.some.inj (here.symm.trans here')
          obtain rfl := at_.unique at_' (cursor.symm.trans cursor')
          exact ⟨rfl, rfl⟩
      | elements here' _ array =>
          obtain rfl := Option.some.inj (here.symm.trans here')
          cases object.symm.trans array
      | array plain => exact (proxy_ne_plain here plain).elim
      | object plain => exact (proxy_ne_plain here plain).elim
  | elements here _ array at_ cursor =>
      cases right with
      | ordered here' _ object =>
          obtain rfl := Option.some.inj (here.symm.trans here')
          cases object.symm.trans array
      | members here' _ object =>
          obtain rfl := Option.some.inj (here.symm.trans here')
          cases object.symm.trans array
      | elements here' _ _ at_' cursor' =>
          obtain rfl := Option.some.inj (here.symm.trans here')
          obtain rfl := at_.unique at_' (cursor.symm.trans cursor')
          exact ⟨rfl, rfl⟩
      | array plain => exact (proxy_ne_plain here plain).elim
      | object plain => exact (proxy_ne_plain here plain).elim
  | array plain _ count =>
      cases right with
      | ordered here => exact (proxy_ne_plain here plain).elim
      | members here => exact (proxy_ne_plain here plain).elim
      | elements here => exact (proxy_ne_plain here plain).elim
      | array plain' _ count' =>
          obtain rfl := Option.some.inj (plain.symm.trans plain')
          obtain rfl := Option.some.inj (count.symm.trans count')
          exact ⟨rfl, rfl⟩
      | object plain' _ all =>
          obtain rfl := Option.some.inj (plain.symm.trans plain')
          cases count.symm.trans all
  | object plain _ all =>
      cases right with
      | ordered here => exact (proxy_ne_plain here plain).elim
      | members here => exact (proxy_ne_plain here plain).elim
      | elements here => exact (proxy_ne_plain here plain).elim
      | array plain' _ count =>
          obtain rfl := Option.some.inj (plain.symm.trans plain')
          cases count.symm.trans all
      | object plain' =>
          obtain rfl := Option.some.inj (plain.symm.trans plain')
          exact ⟨rfl, rfl⟩

/-- Only leaves have trees of their own. -/
theorem not_leafTree_table {tree : Tree} : leafTree env s (some (.table r)) ≠ some tree := by
  intro clash
  cases clash

/-- A part is spelled by one tree. -/
theorem Spells.unique (left : Spells env forest s part tree)
    (right : Spells env forest s part tree') : tree = tree' := by
  induction left generalizing tree' with
  | leaf isLeaf =>
      cases right with
      | leaf isLeaf' => exact Option.some.inj (isLeaf.symm.trans isLeaf')
      | copied _ => exact absurd isLeaf not_leafTree_table
      | table _ _ _ => exact absurd isLeaf not_leafTree_table
  | copied copied =>
      cases right with
      | leaf isLeaf => exact absurd isLeaf not_leafTree_table
      | copied copied' => exact copied.unique copied'
      | table laid _ _ => exact (laid.not_sourced copied).elim
  | table laid names _ ih =>
      cases right with
      | leaf isLeaf => exact absurd isLeaf not_leafTree_table
      | copied copied => exact (laid.not_sourced copied).elim
      | @table _ _ _ pairs laid' names' children =>
          obtain ⟨rfl, rfl⟩ := laid.unique laid'
          congr 1
          have both := names.trans names'.symm
          have length := congrArg List.length both
          have parts := congrArg List.length names
          simp only [List.length_map] at length parts
          refine List.ext_getElem length fun i left right => Prod.ext ?_ ?_
          · have same := congrArg (fun list => list[i]?) both
            simpa [left, right] using same
          · have part := List.getElem?_eq_getElem (parts ▸ left)
            exact ih i _ _ part (List.getElem?_eq_getElem left)
              (children i _ _ part (List.getElem?_eq_getElem right))
  | container _ isKind =>
      cases right with
      | container _ _ => rfl
      | reread _ isLeaf _ =>
          rw [isLeaf.kind?] at isKind
          cases isKind
  | reread _ isLeaf spelled =>
      cases right with
      | container _ isKind =>
          rw [isLeaf.kind?] at isKind
          cases isKind
      | reread _ isLeaf' spelled' =>
          obtain rfl := isLeaf.unique isLeaf'
          exact Option.some.inj (spelled.symm.trans spelled')
  | raw valid render =>
      cases right with
      | raw valid' render' => exact eq_of_render valid valid' (render.trans render'.symm)

end Unique

section Valid

variable {F : Type} [DecidableEq F] {env : Env F} {forest : Forest} {s : State F} {r : Nat}
  {node tree : Tree} {v : Option (Value F)} {kind : Kind}
  {parts : List (Option Bytes × Part F)} {part : Part F} {key : Option Bytes}

theorem isBody_interior {x : Bytes} (valid : IsUtf8 x) : IsBody (x.flatMap escapeByte) :=
  (isSpan_interior valid).isBody (inert_interior x)

/-- A string of the source reads as valid UTF-8. -/
theorem isUtf8_bodyText {body : Bytes} (valid : IsBody body) : IsUtf8 (bodyText body) := by
  obtain ⟨text, denotes, utf8⟩ := exists_text valid.isSpan
  have decoded := decodeFrom_text denotes
  rw [bodyText]
  split
  · rw [decoded]
    exact utf8
  · rename_i noSlash
    rw [decodeFrom_copy noSlash] at decoded
    rw [Except.ok.inj decoded]
    exact utf8

theorem isUtf8_of_leaf {x : Bytes} (valid : node.Valid) (leaf : IsLeaf env node (.str x)) :
    IsUtf8 x := by
  cases node with
  | str body =>
      obtain rfl := Value.str.inj leaf
      exact isUtf8_bodyText valid
  | scalar token =>
      rcases leaf with ⟨-, clash⟩ | ⟨-, clash⟩ | ⟨-, clash⟩ | ⟨-, x, -, clash⟩ <;> cases clash
  | empty _ _ => exact leaf.elim
  | node _ _ => exact leaf.elim

/-- Scalars are spelled as scalars, and strings of valid UTF-8 as strings. -/
theorem leafTree_valid (spelled : leafTree env s v = some tree)
    (utf8 : ∀ x, v = some (.str x) → IsUtf8 x) : tree.Valid := by
  match v with
  | none | some .null =>
      obtain rfl := Option.some.inj spelled
      exact .null
  | some (.str x) =>
      obtain rfl := Option.some.inj spelled
      exact isBody_interior (utf8 x rfl)
  | some (.num x) =>
      rw [leafTree] at spelled
      split at spelled
      · rename_i finite
        obtain rfl := Option.some.inj spelled
        refine .number ?_
        split
        · rename_i integer
          exact env.numbers.formatD_number x finite integer
        · exact env.numbers.formatG_number _ x finite
      · cases spelled
  | some (.bool b) =>
      obtain rfl := Option.some.inj spelled
      cases b
      · exact .false
      · exact .true
  | some (.int64 n) =>
      obtain rfl := Option.some.inj spelled
      exact .number (env.numbers.int64Text_number n)

/-- Names stand in objects alone. -/
theorem Laid.named (laid : Laid env forest s r kind parts) (member : (key, part) ∈ parts) :
    match kind with
    | .obj => ∃ k, key = some k
    | .arr => key = none := by
  have mapped {α : Type} {f : α → Bytes} {g : α → Part F} {o : Option α}
      (same : (o.map fun x => (some (f x), g x)) = some (key, part)) : ∃ k, key = some k := by
    obtain ⟨x, -, pair⟩ := Option.map_eq_some_iff.1 same
    exact ⟨f x, (Prod.mk.inj pair).1.symm⟩
  cases laid with
  | ordered =>
      obtain ⟨k, -, same⟩ := List.mem_filterMap.1 member
      exact mapped same
  | members =>
      obtain ⟨k, -, same⟩ := List.mem_filterMap.1 member
      rw [memberPart] at same
      split at same
      · exact ⟨k, (Prod.mk.inj (Option.some.inj same)).1.symm⟩
      · exact mapped same
  | elements =>
      obtain ⟨i, -, same⟩ := List.mem_filterMap.1 member
      obtain ⟨child, -, pair⟩ := Option.map_eq_some_iff.1 same
      exact (Prod.mk.inj pair).1.symm
  | array =>
      obtain ⟨i, -, same⟩ := List.mem_filterMap.1 member
      exact (Prod.mk.inj (Option.some.inj same)).1.symm
  | object =>
      rcases List.mem_append.1 member with source | other
      · obtain ⟨k, -, same⟩ := List.mem_filterMap.1 source
        exact mapped same
      · obtain ⟨e, -, same⟩ := List.mem_filterMap.1 other
        exact mapped same

/-- What a part is spelled by is a value of the grammar. -/
theorem Spells.valid (spells : Spells env forest s part tree)
    (utf8 : AllUtf8 env forest s part) : tree.Valid := by
  induction spells with
  | leaf spelled =>
      refine leafTree_valid spelled fun x same => ?_
      subst same
      exact (utf8 _ .refl).1 x rfl
  | copied copied =>
      cases copied with
      | clean _ _ _ _ valid => exact valid
      | matched _ _ valid _ => exact valid
  | @table r kind parts pairs laid names _ ih =>
      refine Tree.valid_ofList fun pair member => ?_
      obtain ⟨i, here⟩ := List.getElem?_of_mem member
      have name := congrArg (fun list => list[i]?) names
      simp only [List.getElem?_map, here, Option.map_some] at name
      obtain ⟨part, atPart, same⟩ := Option.map_eq_some_iff.1 name.symm
      have partIn := List.mem_of_getElem? atPart
      constructor
      · have named := laid.named partIn
        rw [← same]
        cases kind with
        | arr =>
            rw [named]
            trivial
        | obj =>
            obtain ⟨k, isKey⟩ := named
            obtain ⟨_, child⟩ := part
            obtain rfl := isKey
            have key := (utf8 _ .refl).2 r .obj parts k child rfl laid partIn
            exact ⟨isBlank_nil, isBody_interior key, isBlank_nil⟩
      · refine ih i part pair atPart here fun inner path => utf8 inner (.head ?_ path)
        exact ⟨r, kind, parts, part.1, rfl, laid, partIn⟩
  | container valid _ => exact valid
  | reread valid isLeaf spelled =>
      refine leafTree_valid spelled fun x same => ?_
      obtain rfl := Option.some.inj same
      exact isUtf8_of_leaf valid isLeaf
  | raw valid _ => exact valid

/-! ## Depth -/

/-- Scalars and strings have no brackets. -/
theorem leafTree_depth (spelled : leafTree env s v = some tree) : tree.depth = 0 := by
  match v with
  | none | some .null | some (.str _) | some (.bool _) | some (.int64 _) =>
      obtain rfl := Option.some.inj spelled
      rfl
  | some (.num x) =>
      rw [leafTree] at spelled
      split at spelled
      · obtain rfl := Option.some.inj spelled
        rfl
      · cases spelled

/-- A text of one value has no other tree. -/
theorem IsValueText.depth_le {text : Bytes} (value : IsValueText text) (valid : tree.Valid)
    (render : tree.render = text) : tree.depth ≤ Options.default.effectiveMaxDepth := by
  obtain ⟨node, valid', shallow, render'⟩ := value
  obtain rfl := eq_of_render valid valid' (render.trans render'.symm)
  exact shallow

/-- Where the parts of a table come from: the heap, a document, or a provenance record. -/
theorem Laid.sources (laid : Laid env forest s r kind parts) (member : (key, part) ∈ parts) :
    (∃ v, part = .value v) ∨ (∃ d place, At forest d place ∧ part = .node place.node) ∨
      ∃ origin ∈ s.origins, ∃ k value raw,
        origin.records.lookup k = some (.string value raw) ∧ part = .raw raw := by
  cases laid with
  | ordered =>
      obtain ⟨k, -, same⟩ := List.mem_filterMap.1 member
      obtain ⟨v, -, pair⟩ := Option.map_eq_some_iff.1 same
      exact .inl ⟨_, (Prod.mk.inj pair).2.symm⟩
  | @members q place _ _ _ _ at_ _ =>
      obtain ⟨k, -, same⟩ := List.mem_filterMap.1 member
      rw [memberPart] at same
      split at same
      · exact .inl ⟨_, (Prod.mk.inj (Option.some.inj same)).2.symm⟩
      · obtain ⟨child, last, pair⟩ := Option.map_eq_some_iff.1 same
        obtain ⟨i, here⟩ := List.getElem?_of_mem (mem_of_lastUnder last).1
        exact .inr (.inl ⟨_, _, at_.child here, (Prod.mk.inj pair).2.symm⟩)
  | @elements q place _ _ _ at_ _ =>
      obtain ⟨i, -, same⟩ := List.mem_filterMap.1 member
      obtain ⟨child, here, pair⟩ := Option.map_eq_some_iff.1 same
      have stands := (Prod.mk.inj pair).2.symm
      split at stands
      · exact .inl ⟨_, stands⟩
      · exact .inr (.inl ⟨_, _, at_.child here, stands⟩)
  | array =>
      obtain ⟨i, -, same⟩ := List.mem_filterMap.1 member
      exact .inl ⟨_, (Prod.mk.inj (Option.some.inj same)).2.symm⟩
  | @object p =>
      rcases List.mem_append.1 member with source | other
      · obtain ⟨k, -, same⟩ := List.mem_filterMap.1 source
        obtain ⟨v, -, pair⟩ := Option.map_eq_some_iff.1 same
        have stands := (Prod.mk.inj pair).2.symm
        rw [childPart.eq_def] at stands
        split at stands
        · rename_i record value raw isRecord
          split at stands
          · refine .inr (.inr ?_)
            rw [sourceOf] at isRecord
            split at isRecord
            · rename_i origin isOrigin
              split at isRecord
              · obtain ⟨o, -, here⟩ := Option.bind_eq_some_iff.1 isOrigin
                exact ⟨origin, List.mem_of_getElem? here, _, value, raw, isRecord, stands⟩
              · cases isRecord
            · cases isRecord
          · exact .inl ⟨_, stands⟩
        · exact .inl ⟨_, stands⟩
      · obtain ⟨e, -, same⟩ := List.mem_filterMap.1 other
        obtain ⟨k, -, pair⟩ := Option.map_eq_some_iff.1 same
        exact .inl ⟨_, (Prod.mk.inj pair).2.symm⟩

/-- In every session, what is copied keeps the nesting limit of parsing. -/
theorem copiesWithin_of_recorded (wf : Wf forest s) (recorded : Recorded env s)
    (v : Option (Value F)) :
    CopiesWithin env forest s Options.default.effectiveMaxDepth (.value v) := by
  have table {r : Nat} {tree : Tree} (copied : Sourced env forest s r tree) :
      tree.depth ≤ Options.default.effectiveMaxDepth := by
    cases copied with
    | clean _ _ at_ _ _ => exact (recorded.slice wf.library at_).2.1
    | matched _ isOrigin valid render =>
        exact (recorded.2 _ (List.mem_of_getElem? isOrigin)).slice.depth_le valid render
  rintro inner tree path copies
  rcases path.cases_tail with same | ⟨outer, -, r, kind, parts, key, -, laid, member⟩
  · subst same
    cases copies with
    | table copied => exact table copied
  · rcases laid.sources member with ⟨v, rfl⟩ | ⟨d, place, at_, rfl⟩ |
      ⟨origin, isOrigin, k, value, raw, record, rfl⟩
    · cases copies with
      | table copied => exact table copied
    · cases copies with
      | node => exact (recorded.slice wf.library at_).2.1
    · cases copies with
      | raw valid render =>
          exact ((recorded.2 _ isOrigin).raw k value raw record).depth_le valid render

end Valid

end QJson.Table
