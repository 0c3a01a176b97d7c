import QJson.Ffi.Iteration
import QJson.Table.Encoded
import QJson.Table.Mirrored

/-!
# Materialized documents are written as they were

A document that was decoded and materialized is encoded as a text that says the same: scalars
keep their values, strings and keys are read as the same bytes, elements keep their order, and
an object has every key once, with the last of its members.  The text is parsed again.
-/

namespace QJson.Table

open Relation Rfc8259 Validate Doc Decode Ffi Lua

/-! ## Trees that say the same -/

/-- The last member under a key. -/
def lastMember (entries : List Entry) (key : Bytes) : Option Entry :=
  (entries.filter fun entry => entryKey entry = key).getLast?

/-- How the keys of an object are written: in the order in which they occur first where their
provenance is kept, and otherwise in some order. -/
def Arranged (keepOrigin : Bool) (source keys : List Bytes) : Prop :=
  match keepOrigin with
  | true => keys = firstKeys source
  | false => keys.Nodup ∧ ∀ key, key ∈ keys ↔ key ∈ source

/-- A tree says what another one says. -/
inductive Respells {F : Type} [DecidableEq F] (env : Env F) (s : State F) (keepOrigin : Bool) :
    Tree → Tree → Prop where
  | leaf {tree out : Tree} {v : Value F} :
      IsLeaf env tree v → IsLeaf env out v → Respells env s keepOrigin tree out
  | number {tree out : Tree} {x : F} :
      IsLeaf env tree (.num x) → leafTree env s (some (.num x)) = some out →
      Respells env s keepOrigin tree out
  | array {tree out : Tree} :
      tree.kind? = some .arr → out.kind? = some .arr →
      out.children.length = tree.children.length →
      (∀ (i : Nat) (entry entry' : Entry), tree.children[i]? = some entry →
        out.children[i]? = some entry' → Respells env s keepOrigin entry.value entry'.value) →
      Respells env s keepOrigin tree out
  | object {tree out : Tree} :
      tree.kind? = some .obj → out.kind? = some .obj →
      Arranged keepOrigin (tree.children.map entryKey) (out.children.map entryKey) →
      (∀ entry entry', entry' ∈ out.children →
        lastMember tree.children (entryKey entry') = some entry →
        Respells env s keepOrigin entry.value entry'.value) →
      Respells env s keepOrigin tree out

section Keys

variable {place : Place} {keys : List Bytes} {key : Bytes} {child : Child}

theorem firstKeys_of_nodup (nodup : keys.Nodup) : firstKeys keys = keys := by
  induction keys using List.reverseRecOn with
  | nil => rfl
  | append_singleton keys last ih =>
      rw [List.nodup_append] at nodup
      rw [firstKeys_concat, ih nodup.1, if_neg]
      intro member
      exact nodup.2.2 last member last List.mem_cons_self rfl

theorem arranged_of_nodup (keepOrigin : Bool) (nodup : keys.Nodup) :
    Arranged keepOrigin keys keys := by
  cases keepOrigin with
  | true => exact (firstKeys_of_nodup nodup).symm
  | false => exact ⟨nodup, fun _ => Iff.rfl⟩

theorem lastMember_children :
    lastMember place.node.children key = (lastUnder place.children key).map Child.entry := by
  rw [lastMember, lastUnder, ← place.children_map_entry, List.filter_map, List.getLast?_map]
  rfl

theorem map_entryKey : place.node.children.map entryKey = place.children.map keyText := by
  rw [← place.children_map_entry, List.map_map]
  rfl

theorem bodyText_interior (x : Bytes) : bodyText (x.flatMap escapeByte) = x := by
  have decoded := decodeFrom_interior x
  rw [bodyText]
  split
  · rw [decoded]
  · rename_i noSlash
    rw [decodeFrom_copy noSlash] at decoded
    exact Except.ok.inj decoded

theorem one_le_depth {tree : Tree} {kind : Kind} (isKind : tree.kind? = some kind) :
    1 ≤ tree.depth := by
  cases tree with
  | scalar _ => cases isKind
  | str _ => cases isKind
  | empty _ _ => exact Nat.le_refl _
  | node _ _ => exact Nat.le_add_left _ _

theorem valid_child (valid : place.node.Valid) (member : child ∈ place.children) :
    child.place.node.Valid := by
  obtain ⟨i, here⟩ := List.getElem?_of_mem member
  exact (Tree.valid_of_sub? valid (sub?_child here)).1

theorem isUtf8_keyText (valid : place.node.Valid) (isKind : place.node.kind? = some .obj)
    (member : child ∈ place.children) : IsUtf8 (keyText child) := by
  have entry : child.entry ∈ place.node.children := by
    rw [← place.children_map_entry]
    exact List.mem_map_of_mem member
  cases spelled : place.node with
  | node kind entries =>
      rw [spelled] at entry valid isKind
      obtain rfl := Option.some.inj isKind
      have name := (Entries.valid_of_mem valid entry).1
      rw [keyText]
      cases named : child.entry.name with
      | none =>
          rw [named] at name
          exact name.elim
      | some n =>
          rw [named] at name
          exact isUtf8_bodyText name.2.1
  | _ =>
      rw [spelled] at entry
      cases entry

end Keys

/-! ## Copied tables -/

section Copied

variable {F : Type} [DecidableEq F] {env : Env F} {s : State F} {keepOrigin : Bool}
  {place : Place} {v : Value F} {r : Nat} {p : Plain F} {kind : Kind}

/-- The materialization of a container is a table, and its entries are those of the node. -/
theorem Mirrors.table_cases (mirrors : Mirrors env s keepOrigin place (.table r))
    (plain : s.plain? r = some p) :
    ∃ kind, place.node.kind? = some kind ∧ Labels env s keepOrigin place kind p ∧
      (∀ k, p.entries.lookup k = none ↔ under kind place.children k = none) ∧
      ∀ k child v, under kind place.children k = some child → p.entries.lookup k = some v →
        Mirrors env s keepOrigin child.place v := by
  cases mirrors with
  | leaf leaf => exact absurd rfl (leaf.not_table r)
  | table isKind plain' labels domain children =>
      obtain rfl := Option.some.inj (plain.symm.trans plain')
      exact ⟨_, isKind, labels, domain, children⟩

/-- A table with a record was materialized with `keep_origin`. -/
theorem Labels.recorded (labels : Labels env s keepOrigin place kind p) {o : Nat}
    {origin : Origin F} (isOrigin : p.origin = some o) (here : s.origins[o]? = some origin) :
    keepOrigin = true ∧ RecordOf env place kind p origin := by
  cases keepOrigin with
  | false => cases isOrigin.symm.trans labels.record.2
  | true =>
      obtain ⟨o', origin', isOrigin', here', record, -⟩ := labels.record
      obtain rfl := Option.some.inj (isOrigin.symm.trans isOrigin')
      obtain rfl := Option.some.inj (here.symm.trans here')
      exact ⟨rfl, record⟩

/-- What is still what was recorded has every key once, on every level. -/
theorem Matches.respells {record : Record F} (matches_ : Matches env s record v) :
    ∀ {place : Place}, Mirrors env s keepOrigin place v →
      Respells env s keepOrigin place.node place.node := by
  induction matches_ with
  | string value raw =>
      intro place mirrors
      cases mirrors with
      | leaf leaf => exact .leaf leaf leaf
  | object plain isOrigin here object _ single _ recorded _ ih =>
      intro place mirrors
      obtain ⟨kind, isKind, labels, domain, children⟩ := mirrors.table_cases plain
      obtain ⟨-, record⟩ := labels.recorded isOrigin here
      obtain rfl : kind = .obj := record.same.symm.trans object
      have nodup := record.distinct rfl single
      apply Respells.object isKind isKind
      · rw [map_entryKey]
        exact arranged_of_nodup keepOrigin nodup
      · intro entry entry' member last
        rw [lastMember_children] at last
        obtain ⟨child, isLast, rfl⟩ := Option.map_eq_some_iff.1 last
        obtain ⟨inside, sameKey⟩ := mem_of_lastUnder isLast
        rw [← place.children_map_entry] at member
        obtain ⟨child', inside', rfl⟩ := List.mem_map.1 member
        obtain rfl : child = child' := List.inj_on_of_nodup_map nodup inside inside' sameKey
        have found : under .obj place.children (.str (keyText child) : Key F) = some child := by
          rw [under, if_pos rfl]
          exact isLast
        obtain ⟨w, entry⟩ := Option.ne_none_iff_exists'.1
          (mt (domain (.str (keyText child))).1 (by rw [found]; simp))
        obtain ⟨note, isNote⟩ := Option.isSome_iff_exists.1 (recorded _ w entry)
        exact ih _ w note entry isNote (children _ child w found entry)
  | array plain isOrigin here array _ _ only filled _ ih =>
      intro place mirrors
      obtain ⟨kind, isKind, labels, domain, children⟩ := mirrors.table_cases plain
      obtain ⟨-, record⟩ := labels.recorded isOrigin here
      obtain rfl : kind = .arr := record.same.symm.trans array
      apply Respells.array isKind isKind rfl
      intro i entry entry' left right
      obtain rfl := Option.some.inj (left.symm.trans right)
      rw [← place.children_map_entry, List.getElem?_map] at left
      obtain ⟨child, inside, rfl⟩ := Option.map_eq_some_iff.1 left
      have found : under .arr place.children (.idx (i + 1) : Key F) = some child := by
        rw [under, if_pos ⟨rfl, Nat.succ_ne_zero i⟩]
        exact inside
      obtain ⟨w, entry⟩ := Option.ne_none_iff_exists'.1
        (mt (domain (.idx (i + 1))).1 (by rw [found]; simp))
      obtain ⟨n, small, sameIndex⟩ := only _ w entry
      have less : i < _ := Nat.lt_of_lt_of_le (Nat.lt_succ_self i) (Key.idx.inj sameIndex ▸ small)
      obtain ⟨note, isNote⟩ := Option.isSome_iff_exists.1 (filled i less).2
      exact ih i less w note entry isNote (children _ child w found entry)

end Copied

/-! ## Containers that are written again -/

section Written

variable {F : Type} [DecidableEq F] {env : Env F} {forest : Forest} {s : State F}
  {keepOrigin : Bool} {place : Place} {r : Nat} {p : Plain F} {kind : Kind}

/-- A table whose keys are the indices from 1 to a length is an array of that length. -/
theorem classify_of_indices (settings : Settings) {n : Nat} (some_ : n ≠ 0)
    (filled : ∀ i < n, ∃ v, p.entries.lookup (.idx (i + 1)) = some v)
    (only : ∀ k v, p.entries.lookup k = some v → ∃ i ≤ n, k = .idx i) :
    classifyPlainTable env settings p = .ok (some n) := by
  obtain ⟨m, rfl⟩ := Nat.exists_eq_succ_of_ne_zero some_
  obtain ⟨last, atLast⟩ := filled m (Nat.lt_succ_self m)
  rcases classify_of_filled env settings filled only with ⟨max, class_, upper, -⟩ | ⟨-, none_⟩
  · rw [class_]
    have lower : m + 1 ≤ max := by
      rcases classify_cases env settings p with ⟨max', class', bound⟩ | class' | class'
      · obtain rfl := Option.some.inj (Except.ok.inj (class_.symm.trans class'))
        exact bound (m + 1) last atLast
      · cases class_.symm.trans class'
      · cases class_.symm.trans class'
    rw [Nat.le_antisymm upper lower]
  · cases (none_ _).symm.trans atLast

/-- A table whose keys are strings is an object. -/
theorem classify_of_strings (settings : Settings)
    (only : ∀ k v, p.entries.lookup k = some v → ∃ key, k = .str key) :
    classifyPlainTable env settings p = .ok none := by
  rw [classifyPlainTable]
  apply if_pos
  cases keys : (env.order p.entries).map Prod.fst with
  | nil => exact .inl rfl
  | cons k rest =>
      apply Or.inr
      intro all
      rw [List.length_filterMap_eq_countP, List.countP_eq_length] at all
      have index := all k List.mem_cons_self
      obtain ⟨v, here⟩ := (mem_keys env).1 (keys ▸ List.mem_cons_self : k ∈ _)
      obtain ⟨key, rfl⟩ := only k v here
      cases index

variable (domain : ∀ k, p.entries.lookup k = none ↔ under kind place.children k = none)
include domain

theorem exists_entry {k : Key F} {child : Child}
    (found : under kind place.children k = some child) : ∃ v, p.entries.lookup k = some v :=
  Option.ne_none_iff_exists'.1 (mt (domain k).1 (by rw [found]; simp))

theorem exists_child {k : Key F} {v : Value F} (entry : p.entries.lookup k = some v) :
    ∃ child, under kind place.children k = some child :=
  Option.ne_none_iff_exists'.1 (mt (domain k).2 (by rw [entry]; simp))

theorem string_of_entry (isKind : kind = .obj) {k : Key F} {v : Value F}
    (entry : p.entries.lookup k = some v) :
    ∃ key, k = .str key ∧ key ∈ place.children.map keyText := by
  obtain ⟨child, found⟩ := exists_child domain entry
  subst isKind
  cases k with
  | str key =>
      rw [under, if_pos rfl] at found
      obtain ⟨inside, rfl⟩ := mem_of_lastUnder found
      exact ⟨_, rfl, List.mem_map_of_mem inside⟩
  | idx n =>
      rw [under, if_neg (by simp)] at found
      cases found
  | _ => cases found

/-- The entries of an array are under its indices. -/
theorem index_of_entry (isKind : kind = .arr) {k : Key F} {v : Value F}
    (entry : p.entries.lookup k = some v) : ∃ i ≤ place.children.length, k = .idx i := by
  obtain ⟨child, found⟩ := exists_child domain entry
  subst isKind
  cases k with
  | str key =>
      rw [under, if_neg (by simp)] at found
      cases found
  | idx n =>
      rw [under] at found
      split at found
      · rename_i positive
        have inside := (List.getElem?_eq_some_iff.1 found).1
        exact ⟨n, by omega, rfl⟩
      · cases found
  | _ => cases found

/-- Every element of an array is there. -/
theorem element_entry (isKind : kind = .arr) {i : Nat} (less : i < place.children.length) :
    ∃ v, p.entries.lookup (.idx (i + 1)) = some v := by
  subst isKind
  apply exists_entry domain
  rw [under, if_pos ⟨rfl, Nat.succ_ne_zero i⟩]
  exact List.getElem?_eq_getElem less

/-- The border of the table of an empty array. -/
theorem length_of_empty (none_ : place.children = []) : env.length p.entries = 0 := by
  rcases (env.length_border p.entries).2 with zero | inside
  · exact zero
  · rw [← AList.lookup_isSome, Option.isSome_iff_ne_none] at inside
    exact absurd ((domain _).2 (none_ ▸ under_nil)) inside

theorem matches_of_empty {o : Nat} {origin : Origin F} (plain : s.plain? r = some p)
    (isOrigin : p.origin = some o) (here : s.origins[o]? = some origin)
    (record : RecordOf env place kind p origin) (array : kind = .arr)
    (none_ : place.children = []) : Matches env s (.table o) (.table r) := by
  obtain ⟨complete, length⟩ := record.empty none_
  rw [length_of_empty domain none_] at length
  refine .array plain isOrigin here (record.same.trans array) complete
    ((length_of_empty domain none_).trans length.symm) ?_ ?_ ?_
  · intro k v entry
    obtain ⟨child, found⟩ := exists_child domain entry
    rw [none_, under_nil] at found
    cases found
  · intro i less
    rw [length] at less
    cases less
  · intro i less
    rw [length] at less
    cases less

/-- An array that is not copied is written with all of its elements. -/
theorem elementCount_of_array (plain : s.plain? r = some p)
    (labels : Labels env s keepOrigin place kind p)
    (unmatched : ∀ o, ¬ Matches env s (.table o) (.table r)) (array : kind = .arr) :
    s.elementCount env p = some place.children.length := by
  have classified (some_ : place.children ≠ []) :
      (classifyPlainTable env s.settings p).toOption.join = some place.children.length := by
    rw [classify_of_indices s.settings (mt List.length_eq_zero_iff.1 some_)
      (fun i less => element_entry domain array less)
      fun k v entry => index_of_entry domain array entry]
    rfl
  by_cases none_ : place.children = []
  · cases keepOrigin with
    | false =>
        obtain ⟨-, noOrigin⟩ := labels.record
        rw [State.elementCount, noOrigin]
        simp only [Option.bind_none, if_pos (labels.empty.2 ⟨array, none_⟩), none_, List.length_nil,
          length_of_empty domain none_]
    | true =>
        obtain ⟨o, origin, isOrigin, here, record, -⟩ := labels.record
        exact absurd (matches_of_empty domain plain isOrigin here record array none_) (unmatched o)
  · cases keepOrigin with
    | false =>
        obtain ⟨hint, noOrigin⟩ := labels.record
        rw [State.elementCount, noOrigin]
        simp only [Option.bind_none, if_neg (mt labels.empty.1 fun both => none_ both.2), hint,
          classified none_]
    | true =>
        obtain ⟨o, origin, isOrigin, here, record, -⟩ := labels.record
        rw [State.elementCount, isOrigin, Option.bind_some, here]
        simp only [record.same.trans array, classified none_]

theorem elementCount_of_object (labels : Labels env s keepOrigin place kind p)
    (object : kind = .obj) : s.elementCount env p = none := by
  cases keepOrigin with
  | false =>
      obtain ⟨hint, noOrigin⟩ := labels.record
      have notArray : ¬ p.emptyArray = true := by
        intro clash
        cases object.symm.trans (labels.empty.1 clash).1
      rw [State.elementCount, noOrigin]
      simp only [Option.bind_none, if_neg notArray, hint]
      rw [classify_of_strings s.settings fun k v entry =>
        (string_of_entry domain object entry).imp fun _ both => both.1]
      rfl
  | true =>
      obtain ⟨o, origin, isOrigin, here, record, -⟩ := labels.record
      rw [State.elementCount, isOrigin, Option.bind_some, here]
      simp only [record.same.trans object]

/-- What is written for a child: its materialized value, or the text that it had. -/
inductive StandsFor (env : Env F) (child : Child) (v : Value F) : Part F → Prop where
  | value : StandsFor env child v (.value (some v))
  | raw {value : Bytes} : IsLeaf env child.place.node (.str value) →
      StandsFor env child v (.raw child.place.node.render)

/-- The parts of an object: its keys, and what stands for the last child under each of them. -/
structure Members (env : Env F) (keepOrigin : Bool) (children : List Child)
    (entries : Map (Key F) (Value F)) (parts : List (Option Bytes × Part F)) (keys : List Bytes) :
    Prop where
  arranged : Arranged keepOrigin (children.map keyText) keys
  names : parts.map Prod.fst = keys.map some
  stands : ∀ part ∈ parts, ∃ key child v, part.1 = some key ∧
    lastUnder children key = some child ∧ entries.lookup (.str key) = some v ∧
      StandsFor env child v part.2

theorem last_of_entry (object : kind = .obj) {key : Bytes} {v : Value F}
    (entry : p.entries.lookup (.str key) = some v) :
    ∃ child, lastUnder place.children key = some child := by
  obtain ⟨child, found⟩ := exists_child domain entry
  rw [under, if_pos object] at found
  exact ⟨child, found⟩

/-- The parts of an object in the order of `next`. -/
theorem members_of_entries (object : kind = .obj) :
    ∃ keys, Members env false place.children p.entries
      ((env.order p.entries).filterMap (entryPart env)) keys := by
  have strings : (env.order p.entries).map Prod.fst ∈ Set.range (List.map (Key.str (F := F))) := by
    rw [Set.range_list_map]
    intro k member
    obtain ⟨v, here⟩ := (mem_keys env).1 member
    obtain ⟨key, rfl, -⟩ := string_of_entry domain object here
    exact Set.mem_range_self key
  obtain ⟨keys, same⟩ := strings
  refine ⟨keys, ⟨?_, fun key => ?_⟩, ?_, ?_⟩
  · apply List.Nodup.of_map Key.str
    rw [same]
    refine ((env.order_perm p.entries).map Prod.fst).nodup_iff.2 ?_
    rw [List.map_map]
    exact p.entries.keys_nodup
  · have inside : key ∈ keys ↔ ∃ v, p.entries.lookup (.str key) = some v := by
      rw [← mem_keys env, ← same]
      exact (List.mem_map_of_injective fun _ _ => Key.str.inj).symm
    rw [inside]
    constructor
    · rintro ⟨v, here⟩
      obtain ⟨_, isKey, member⟩ := string_of_entry domain object here
      exact Key.str.inj isKey ▸ member
    · intro member
      obtain ⟨child, last⟩ := exists_lastUnder member
      exact exists_entry domain (by rw [under, if_pos object]; exact last)
  · calc ((env.order p.entries).filterMap (entryPart env)).map Prod.fst
        = ((env.order p.entries).map Prod.fst).filterMap fun k =>
            (keyString env k).toOption.map some := by
          rw [List.map_filterMap, List.filterMap_map]
          congr 1
          funext e
          rw [entryPart, Option.map_map]
          rfl
      _ = keys.map some := by
          rw [← same, List.filterMap_map]
          exact List.filterMap_eq_map ▸ rfl
  · intro part member
    obtain ⟨⟨k, v⟩, inside, same⟩ := List.mem_filterMap.1 member
    have entry := mem_order.1 inside
    obtain ⟨key, rfl, -⟩ := string_of_entry domain object entry
    obtain rfl := Option.some.inj same
    obtain ⟨child, last⟩ := last_of_entry domain object entry
    exact ⟨key, child, v, rfl, last, entry, .value⟩

/-- The parts of an object in the order of its source. -/
theorem members_of_record {origin : Origin F} (object : kind = .obj)
    (record : RecordOf env place kind p origin) :
    Members env true place.children p.entries
      (origin.keys.filterMap (sourcePart p origin.records)) origin.keys := by
  refine ⟨record.keys object, ?_, ?_⟩
  · rw [List.map_filterMap, ← List.filterMap_eq_map]
    refine List.filterMap_congr fun key member => ?_
    rw [record.keys object, mem_firstKeys] at member
    obtain ⟨child, last⟩ := exists_lastUnder member
    obtain ⟨v, here⟩ := exists_entry (k := .str key) domain (by
      rw [under, if_pos object]
      exact last)
    rw [sourcePart, here]
    rfl
  · intro part member
    obtain ⟨key, -, same⟩ := List.mem_filterMap.1 member
    obtain ⟨v, entry, rfl⟩ := Option.map_eq_some_iff.1 same
    obtain ⟨child, last⟩ := last_of_entry domain object entry
    refine ⟨key, child, v, rfl, last, entry, ?_⟩
    rw [childPart.eq_def]
    split
    · rename_i value raw isNote
      split
      · obtain ⟨child', found, leaf, rfl⟩ := record.strings _ value raw isNote
        rw [under, if_pos object, last] at found
        obtain rfl := Option.some.inj found
        exact .raw leaf
      · exact .value
    · exact .value

theorem members_of_laid {parts : List (Option Bytes × Part F)} (plain : s.plain? r = some p)
    (labels : Labels env s keepOrigin place kind p) (object : kind = .obj)
    (laid : Laid env forest s r .obj parts) :
    ∃ keys, Members env keepOrigin place.children p.entries parts keys := by
  cases laid with
  | ordered here => exact (proxy_ne_plain here plain).elim
  | members here => exact (proxy_ne_plain here plain).elim
  | object plain' =>
      obtain rfl := Option.some.inj (plain.symm.trans plain')
      cases keepOrigin with
      | false =>
          have unsourced : sourceOf s p = ([], ∅) := by
            rw [sourceOf, labels.record.2]
            rfl
          rw [unsourced, filter_isOther_nil]
          exact members_of_entries domain object
      | true =>
          obtain ⟨o, origin, isOrigin, here, record, -⟩ := labels.record
          have sourced : sourceOf s p = (origin.keys, origin.records) := by
            rw [sourceOf, isOrigin, Option.bind_some, here]
            simp only [record.same.trans object, if_true]
          have others : (env.order p.entries).filter (isOther origin.keys) = [] := by
            refine List.filter_eq_nil_iff.2 fun e inside => ?_
            obtain ⟨key, isKey, member⟩ := string_of_entry domain object (mem_order.1 inside)
            rw [isOther, isKey, record.keys object]
            exact fun clash => of_decide_eq_true clash (mem_firstKeys.2 member)
          rw [sourced, others, List.filterMap_nil, List.append_nil]
          exact ⟨_, members_of_record domain object record⟩

end Written

/-! ## Materialized nodes -/

section Nodes

variable {F : Type} [DecidableEq F] {env : Env F} {forest : Forest} {s : State F}
  {keepOrigin : Bool} {place : Place} {child : Child} {v : Value F} {r : Nat} {kind : Kind}
  {out : Tree} {part : Part F} {parts : List (Option Bytes × Part F)}
  {pairs : List (Option Name × Tree)}

/-- A value of the grammar that says what a node says, and is not deeper. -/
structure Rewrites (env : Env F) (s : State F) (keepOrigin : Bool) (node out : Tree) : Prop where
  respells : Respells env s keepOrigin node out
  valid : out.Valid
  depth : out.depth ≤ node.depth

/-- Decoding does not return `int64_t` values. -/
theorem IsLeaf.not_int64 {node : Tree} (n : Int) : ¬ IsLeaf env node (.int64 n) := by
  intro leaf
  cases node with
  | str body => cases leaf
  | scalar token =>
      rcases leaf with ⟨-, clash⟩ | ⟨-, clash⟩ | ⟨-, clash⟩ | ⟨-, x, -, clash⟩ <;> cases clash
  | empty _ _ => exact leaf
  | node _ _ => exact leaf

theorem rewrites_leaf (valid : place.node.Valid) (leaf : IsLeaf env place.node v)
    (spelled : leafTree env s (some v) = some out) :
    Rewrites env s keepOrigin place.node out where
  respells := by
    cases v with
    | null =>
        obtain rfl := Option.some.inj spelled
        exact .leaf leaf (.inl ⟨rfl, rfl⟩)
    | str x =>
        obtain rfl := Option.some.inj spelled
        exact .leaf leaf (congrArg Value.str (bodyText_interior x).symm)
    | num x => exact .number leaf spelled
    | bool b =>
        obtain rfl := Option.some.inj spelled
        cases b with
        | true => exact .leaf leaf (.inr (.inl ⟨rfl, rfl⟩))
        | false => exact .leaf leaf (.inr (.inr (.inl ⟨rfl, rfl⟩)))
    | int64 n => exact (IsLeaf.not_int64 n leaf).elim
    | table r => exact absurd rfl (leaf.not_table r)
    | foreign w => cases spelled
  valid := by
    apply leafTree_valid spelled
    intro x same
    obtain rfl := Option.some.inj same
    exact isUtf8_of_leaf valid leaf
  depth := leafTree_depth spelled ▸ Nat.zero_le _

theorem StandsFor.rewrites (stands : StandsFor env child v part) (valid : child.place.node.Valid)
    (spells : Spells env forest s part out)
    (value : ∀ out, Spells env forest s (.value (some v)) out →
      Rewrites env s keepOrigin child.place.node out) :
    Rewrites env s keepOrigin child.place.node out := by
  cases stands with
  | value => exact value out spells
  | raw leaf =>
      cases spells with
      | raw valid' render =>
          obtain rfl := eq_of_render valid' valid render
          exact ⟨.leaf leaf leaf, valid, Nat.le_refl _⟩

theorem Rewrites.ofList (isKind : place.node.kind? = some kind)
    (all : ∀ pair ∈ pairs, ∃ child ∈ place.children, nameValid kind pair.1 ∧
      Rewrites env s keepOrigin child.place.node pair.2)
    (respells : Respells env s keepOrigin place.node (Tree.ofList kind pairs)) :
    Rewrites env s keepOrigin place.node (Tree.ofList kind pairs) where
  respells := respells
  valid := by
    apply Tree.valid_ofList
    intro pair member
    obtain ⟨child, -, name, rewrites⟩ := all pair member
    exact ⟨name, rewrites.valid⟩
  depth := by
    rcases Tree.le_depth_ofList.1 (Nat.le_refl (Tree.ofList kind pairs).depth) with
      flat | ⟨pair, member, deep⟩
    · exact flat.trans (one_le_depth isKind)
    · obtain ⟨child, inside, -, rewrites⟩ := all pair member
      calc (Tree.ofList kind pairs).depth ≤ pair.2.depth + 1 := deep
        _ ≤ child.place.node.depth + 1 := Nat.succ_le_succ rewrites.depth
        _ ≤ place.node.depth := depth_lt_of_child inside

variable (names : pairs.map Prod.fst = parts.map fun part => nameOf part.1)
include names

omit [DecidableEq F] in
theorem exists_part {i : Nat} {pair : Option Name × Tree} (here : pairs[i]? = some pair) :
    ∃ part, parts[i]? = some part ∧ pair.1 = nameOf part.1 := by
  have same := congrArg (fun list => list[i]?) names
  simp only [List.getElem?_map, here, Option.map_some] at same
  obtain ⟨part, atPart, name⟩ := Option.map_eq_some_iff.1 same.symm
  exact ⟨part, atPart, name.symm⟩

omit [DecidableEq F] in
theorem entryKeys_ofList {keys : List Bytes} (isKeys : parts.map Prod.fst = keys.map some) :
    (Tree.ofList kind pairs).children.map entryKey = keys := by
  have key (pair : Option Name × Tree) :
      entryKey ⟨pair.1, [], pair.2, []⟩ = ((pair.1.map fun n => bodyText n.body).getD []) := by
    obtain ⟨name, tree⟩ := pair
    cases name <;> rfl
  calc (Tree.ofList kind pairs).children.map entryKey
      = ((parts.map Prod.fst).map nameOf).map
          fun name => (name.map fun n => bodyText n.body).getD [] := by
        rw [List.map_map (l := parts), Function.comp_def nameOf, ← names, Tree.children_ofList,
          List.map_map, List.map_map]
        exact List.map_congr_left fun pair _ => key pair
    _ = keys.map id := by
        rw [isKeys, List.map_map, List.map_map]
        exact List.map_congr_left fun key _ => bodyText_interior key
    _ = keys := List.map_id keys

omit [DecidableEq F] names in
theorem entryKey_of_part {pair : Option Name × Tree} {key : Bytes}
    (name : pair.1 = nameOf (some key)) : entryKey ⟨pair.1, [], pair.2, []⟩ = key := by
  rw [name]
  exact bodyText_interior key

variable (spells : ∀ (i : Nat) (part : Option Bytes × Part F) (pair : Option Name × Tree),
  parts[i]? = some part → pairs[i]? = some pair → Spells env forest s part.2 pair.2)
include spells

theorem rewrites_array {entries : Map (Key F) (Value F)} (isKind : place.node.kind? = some .arr)
    (isParts : parts = (List.range place.children.length).map fun i =>
      (none, .value (entries.lookup (.idx (i + 1)))))
    (children : ∀ (i : Nat) (child : Child), place.children[i]? = some child →
      ∃ v, entries.lookup (.idx (i + 1)) = some v ∧ ∀ out,
        Spells env forest s (.value (some v)) out →
          Rewrites env s keepOrigin child.place.node out) :
    Rewrites env s keepOrigin place.node (Tree.ofList .arr pairs) := by
  have length : pairs.length = place.children.length := by
    have same := congrArg List.length names
    simpa [isParts] using same
  -- An element and what is written for it.
  have element {i : Nat} {child : Child} {pair : Option Name × Tree}
      (left : place.children[i]? = some child) (right : pairs[i]? = some pair) :
      pair.1 = none ∧ Rewrites env s keepOrigin child.place.node pair.2 := by
    obtain ⟨v, entry, rewrites⟩ := children i child left
    have less := (List.getElem?_eq_some_iff.1 left).1
    have part : parts[i]? = some (none, .value (some v)) := by
      rw [isParts, List.getElem?_map, List.getElem?_range less, ← entry]
      rfl
    obtain ⟨part', atPart, name⟩ := exists_part names right
    obtain rfl := Option.some.inj (part.symm.trans atPart)
    exact ⟨name, rewrites _ (spells i _ pair part right)⟩
  apply Rewrites.ofList isKind
  · intro pair member
    obtain ⟨i, right⟩ := List.getElem?_of_mem member
    have less := length ▸ (List.getElem?_eq_some_iff.1 right).1
    have left := List.getElem?_eq_getElem less
    obtain ⟨name, rewrites⟩ := element left right
    refine ⟨_, List.mem_of_getElem? left, ?_, rewrites⟩
    rw [name]
    trivial
  · apply Respells.array isKind Tree.kind?_ofList
    · rw [Tree.children_ofList, List.length_map, length, ← place.children_map_entry,
        List.length_map]
    · intro i entry entry' atEntry atEntry'
      rw [← place.children_map_entry, List.getElem?_map] at atEntry
      rw [Tree.children_ofList, List.getElem?_map] at atEntry'
      obtain ⟨child, left, rfl⟩ := Option.map_eq_some_iff.1 atEntry
      obtain ⟨pair, right, rfl⟩ := Option.map_eq_some_iff.1 atEntry'
      exact (element left right).2.respells

theorem rewrites_object {entries : Map (Key F) (Value F)} {keys : List Bytes}
    (valid : place.node.Valid) (isKind : place.node.kind? = some .obj)
    (members : Members env keepOrigin place.children entries parts keys)
    (children : ∀ (key : Bytes) (child : Child) (v : Value F),
      lastUnder place.children key = some child → entries.lookup (.str key) = some v →
        ∀ out, Spells env forest s (.value (some v)) out →
          Rewrites env s keepOrigin child.place.node out) :
    Rewrites env s keepOrigin place.node (Tree.ofList .obj pairs) := by
  -- A member and what is written for it.
  have member {pair : Option Name × Tree} (inside : pair ∈ pairs) :
      ∃ key child, pair.1 = nameOf (some key) ∧ lastUnder place.children key = some child ∧
        Rewrites env s keepOrigin child.place.node pair.2 := by
    obtain ⟨i, right⟩ := List.getElem?_of_mem inside
    obtain ⟨part, left, name⟩ := exists_part names right
    obtain ⟨key, child, v, isKey, last, entry, stands⟩ :=
      members.stands part (List.mem_of_getElem? left)
    refine ⟨key, child, isKey ▸ name, last, ?_⟩
    exact stands.rewrites (valid_child valid (mem_of_lastUnder last).1)
      (spells i part pair left right) (children key child v last entry)
  apply Rewrites.ofList isKind
  · intro pair inside
    obtain ⟨key, child, name, last, rewrites⟩ := member inside
    obtain ⟨isChild, rfl⟩ := mem_of_lastUnder last
    refine ⟨child, isChild, ?_, rewrites⟩
    rw [name]
    exact ⟨isBlank_nil, isBody_interior (isUtf8_keyText valid isKind isChild), isBlank_nil⟩
  · apply Respells.object isKind Tree.kind?_ofList
    · rw [entryKeys_ofList names members.names, map_entryKey]
      exact members.arranged
    · intro entry entry' inside' last
      rw [Tree.children_ofList] at inside'
      obtain ⟨pair, inside, rfl⟩ := List.mem_map.1 inside'
      obtain ⟨key, child, name, isLast, rewrites⟩ := member inside
      rw [entryKey_of_part name, lastMember_children, isLast] at last
      obtain rfl := Option.some.inj last
      exact rewrites.respells

omit names spells in
theorem Mirrors.rewrites (mirrors : Mirrors env s keepOrigin place v) (valid : place.node.Valid)
    (spells : Spells env forest s (.value (some v)) out) :
    Rewrites env s keepOrigin place.node out := by
  induction mirrors generalizing out with
  | leaf leaf =>
      cases spells with
      | leaf spelled => exact rewrites_leaf valid leaf spelled
      | copied _ => exact absurd rfl (leaf.not_table _)
      | table _ _ _ => exact absurd rfl (leaf.not_table _)
  | @table place r p kind isKind plain labels domain children ih =>
      have mirrors : Mirrors env s keepOrigin place (.table r) :=
        .table isKind plain labels domain children
      have below {k : Key F} {child : Child} {v : Value F} {out : Tree}
          (found : under kind place.children k = some child)
          (entry : p.entries.lookup k = some v)
          (spells : Spells env forest s (.value (some v)) out) :
          Rewrites env s keepOrigin child.place.node out := by
        refine ih k child v found entry (valid_child valid ?_) spells
        cases k with
        | str key =>
            rw [under] at found
            split at found
            · exact (mem_of_lastUnder found).1
            · cases found
        | idx n =>
            rw [under] at found
            split at found
            · exact List.mem_of_getElem? found
            · cases found
        | _ => cases found
      cases spells with
      | leaf spelled => exact absurd spelled not_leafTree_table
      | copied copied =>
          cases copied with
          | clean here => exact (proxy_ne_plain here plain).elim
          | matched matches_ here valid' render =>
              obtain ⟨p', plain', isOrigin⟩ := matches_.plain
              obtain rfl := Option.some.inj (plain.symm.trans plain')
              obtain ⟨-, record⟩ := labels.recorded isOrigin here
              obtain rfl := eq_of_render valid' valid (render.trans record.slice)
              exact ⟨matches_.respells mirrors, valid, Nat.le_refl _⟩
      | table laid names spells =>
          cases laid with
          | ordered here => exact (proxy_ne_plain here plain).elim
          | members here => exact (proxy_ne_plain here plain).elim
          | elements here => exact (proxy_ne_plain here plain).elim
          | array plain' unmatched count =>
              obtain rfl := Option.some.inj (plain.symm.trans plain')
              cases kind with
              | obj => cases count.symm.trans (elementCount_of_object domain labels rfl)
              | arr =>
                  obtain rfl := Option.some.inj (count.symm.trans
                    (elementCount_of_array domain plain labels unmatched rfl))
                  refine rewrites_array names spells isKind
                    (congrFun List.filterMap_eq_map _) fun i child here => ?_
                  have found : under .arr place.children (.idx (i + 1) : Key F) = some child := by
                    rw [under, if_pos ⟨rfl, Nat.succ_ne_zero i⟩]
                    exact here
                  obtain ⟨v, entry⟩ := exists_entry domain found
                  exact ⟨v, entry, fun out => below found entry⟩
          | object plain' unmatched all =>
              obtain rfl := Option.some.inj (plain.symm.trans plain')
              cases kind with
              | arr =>
                  cases all.symm.trans (elementCount_of_array domain plain labels unmatched rfl)
              | obj =>
                  have laid : Laid env forest s r .obj _ := .object plain unmatched all
                  obtain ⟨keys, members⟩ := members_of_laid domain plain labels rfl laid
                  refine rewrites_object names spells valid isKind members
                    fun key child v last entry out => below ?_ entry
                  rw [under, if_pos rfl]
                  exact last

end Nodes

/-! ## Whole round trips -/

section Sessions

variable {F : Type} [DecidableEq F] {env : Env F} {forest : Forest} {s s' : State F}
  {keepOrigin : Bool} {room d : Nat} {place : Place} {v : Option (Value F)}

theorem wp_materialize_root (wf : Wf forest s') (at_ : At forest d place)
    (decoded : Decoded env forest none d place s v s') :
    Action.Wp (materialize env room keepOrigin v) s'
      (fun w s'' => Widened env forest s' s'' ∧ Readable env place.node ∧
        ∃ x, w = some x ∧ Mirrors env s'' keepOrigin place x)
      fun _ => Stuck env room place.node := by
  have returns := decoded.returns
  cases isKind : place.node.kind? with
  | some kind =>
      rw [isKind] at returns
      obtain ⟨rfl, adds⟩ := returns
      have here : s'.proxy? s.tables.length = some (fresh kind none d place) := by
        rw [proxy?_eq_some, getElem?_added adds.tables, if_pos rfl]
      exact wp_materialize_fresh wf here at_ isKind
  | none =>
      rw [isKind] at returns
      obtain ⟨-, w, rfl, leaf⟩ := returns
      have same : Widened env forest s' s' ∧ Readable env place.node ∧
          ∃ x, some w = some x ∧ Mirrors env s' keepOrigin place x :=
        ⟨.refl wf, readable_of_leaf leaf, w, rfl, .leaf leaf⟩
      cases room with
      | zero => cases keepOrigin <;> exact .inl (Nat.zero_le _)
      | succ room =>
          cases w with
          | table r => exact absurd rfl (leaf.not_table r)
          | _ => cases keepOrigin <;> exact same

theorem Session.decoded (session : Session env (fun s op => op.Proper s) s) {text : Bytes}
    (short : text.length ≤ luaMaxString) (returned : decode env text s = (.ok v, s')) :
    Session env (fun s op => op.Proper s) s' := by
  have next := Session.step session (show (Op.decode text).Proper s from short)
  rwa [Op.run, Action.bind_apply, returned] at next

theorem Session.materialized (session : Session env (fun s op => op.Proper s) s)
    (held : Held s.tables.length v) {w : Option (Value F)}
    (returned : materialize env room keepOrigin v s = (.ok w, s')) :
    Session env (fun s op => op.Proper s) s' := by
  have next := Session.step session (show (Op.materialize room keepOrigin v).Proper s from held)
  rwa [Op.run, Action.bind_apply, returned] at next

theorem Decoded.held (decoded : Decoded env forest none d place s v s') :
    Held s'.tables.length v := by
  have returns := decoded.returns
  split at returns
  · obtain ⟨rfl, adds⟩ := returns
    apply held_some
    rw [Value.Below, adds.tables]
    simp
  · obtain ⟨-, w, rfl, leaf⟩ := returns
    exact held_some (below_of_leaf leaf)

theorem Session.encoded (session : Session env (fun s op => op.Proper s) s)
    (held : Held s.tables.length v) {text : Bytes}
    (returned : encode env v s = (.ok text, s')) : Session env (fun s op => op.Proper s) s' := by
  have next := Session.step session (show (Op.encode v).Proper s from held)
  rwa [Op.run, Action.bind_apply, returned] at next

theorem exists_mirrors (env : Env F) (session : Session env (fun s op => op.Proper s) s)
    {text : Bytes} (short : text.length ≤ luaMaxString) {w : Option (Value F)} {s₁ s₂ : State F}
    (decoded : decode env text s = (.ok v, s₁))
    (materialized : materialize env room keepOrigin v s₁ = (.ok w, s₂)) :
    Session env (fun s op => op.Proper s) s₂ ∧ ∃ forest tree d start x, tree.Parses text ∧
      At forest d (rootPlace tree start) ∧ Widened env forest s₁ s₂ ∧ w = some x ∧
        Mirrors env s₂ keepOrigin (rootPlace tree start) x := by
  obtain ⟨forest, wf⟩ := session.wf fun _ _ proper => proper
  cases parsed : parseWithOptionsDetailed (dispatch env.scanner env.strings) text
      Options.default with
  | error fault => exact (Action.Wp.returned (wp_decode_error parsed) decoded).elim
  | ok document =>
      obtain ⟨tree, start, parses, stands⟩ := exists_stands short parsed
      have root := Action.Wp.returned (wp_decode wf.library parsed stands) decoded
      have at_ := wf.library.at_planted tree start
      have wf₁ := root.wf (wf.planted stands rfl rfl rfl rfl) at_ nofun
      obtain ⟨widened, -, x, isValue, mirrors⟩ :=
        Action.Wp.returned (wp_materialize_root wf₁ at_ root) materialized
      exact ⟨(session.decoded short decoded).materialized root.held materialized, _, tree, _,
        start, x, parses, at_, widened, isValue, mirrors⟩

/-- In every session, a text that is decoded, materialized and encoded again becomes a text
that says the same, is not deeper and is parsed with default options. -/
theorem materialized_respells (env : Env F) (session : Session env (fun s op => op.Proper s) s)
    {text out : Bytes} (short : text.length ≤ luaMaxString) {w : Option (Value F)}
    {s₁ s₂ s₃ : State F} (decoded : decode env text s = (.ok v, s₁))
    (materialized : materialize env room keepOrigin v s₁ = (.ok w, s₂))
    (encoded : encode env w s₂ = (.ok out, s₃)) :
    ∃ tree tree', tree.Parses text ∧ tree'.Parses out ∧ Respells env s₂ keepOrigin tree tree' ∧
      tree'.depth ≤ tree.depth ∧
      ∃ doc, parseWithOptions (dispatch env.scanner env.strings) out Options.default =
        .ok doc := by
  obtain ⟨session₂, forest, tree, d, start, x, parses, at_, widened, rfl, mirrors⟩ :=
    exists_mirrors env session short decoded materialized
  have recorded := session₂.recorded fun _ _ proper => proper
  obtain ⟨tree', spelled, rfl⟩ := spelled_of_encode widened.kept.wf recorded
    (.refl widened.kept.wf) (held_some mirrors.isBelow) encoded
  obtain ⟨valid, shallow, -⟩ := recorded.slice widened.kept.wf.library at_
  have rewrites := mirrors.rewrites valid spelled.spells
  have small : tree'.render.length < u32Max :=
    Nat.lt_of_le_of_lt (length_of_encode encoded) (by decide)
  refine ⟨tree, tree', parses, (parses_render_iff rewrites.valid tree').2 rfl,
    rewrites.respells, rewrites.depth, ?_⟩
  exact (accepts_render_iff env.scanner env.strings rewrites.valid small (by decide)).2
    (rewrites.depth.trans shallow)

end Sessions

/-! ## An object with a key that occurs twice -/

/-- `{"a":"x", "a":[]}` -/
def doubledText : Bytes :=
  [0x7B, 0x22, 0x61, 0x22, 0x3A, 0x22, 0x78, 0x22, 0x2C, 0x20, 0x22, 0x61, 0x22, 0x3A, 0x5B, 0x5D,
    0x7D]

/-- `{"a":[]}` -/
def onceText : Bytes := [0x7B, 0x22, 0x61, 0x22, 0x3A, 0x5B, 0x5D, 0x7D]

/-- The states behind decoding and behind materialization. -/
def doubledState : State Nat := (decode natEnv doubledText (State.start Nat)).2
@[inherit_doc doubledState] def onceState : State Nat :=
  (materialize natEnv 8 true (some (.table 0)) doubledState).2

theorem doubledText_facts :
    (decode natEnv doubledText (State.start Nat)).1.toOption = some (some (.table 0)) ∧
    (materialize natEnv 8 true (some (.table 0)) doubledState).1.toOption =
      some (some (.table 3)) ∧
    (encode natEnv (some (.table 3)) onceState).1 = .ok onceText := by
  decide +kernel

theorem eq_of_toOption {F α : Type} {result : Except LuaError α × State F} {a : α}
    (here : result.1.toOption = some a) : result = (.ok a, result.2) := by
  obtain ⟨outcome, after⟩ := result
  cases outcome with
  | error error => cases here
  | ok b => cases here; rfl

/-- What is written of it has the key once. -/
theorem materialized_respells_doubled :
    ∃ tree tree', tree.Parses doubledText ∧ tree'.Parses onceText ∧
      Respells natEnv onceState true tree tree' := by
  obtain ⟨decoded, materialized, encoded⟩ := doubledText_facts
  obtain ⟨tree, tree', parses, parses', respells, -⟩ := materialized_respells natEnv .start
    (show doubledText.length ≤ luaMaxString by decide) (eq_of_toOption decoded)
    (eq_of_toOption materialized) (Prod.ext encoded rfl)
  exact ⟨tree, tree', parses, parses', respells⟩

end QJson.Table
