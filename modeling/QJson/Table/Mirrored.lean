import QJson.Table.Remembered

/-!
# What materialization copies out of a node

The plain tables that `qjson.materialize` returns for an unused proxy hold what its node
holds.  With `keep_origin` every table has a provenance record, and the record has the slice,
the keys and the long strings of the node.
-/

namespace QJson.Table

open Rfc8259 Validate Doc Decode Ffi Lua

/-! ## Tables and their nodes -/

section Statements

variable {F : Type} [DecidableEq F] (env : Env F)

/-- A provenance record has what is recorded of a node. -/
structure RecordOf (place : Place) (kind : Kind) (p : Plain F) (origin : Origin F) : Prop where
  same : origin.kind = kind
  slice : originTableSlice origin = place.node.render
  keys : kind = .obj → origin.keys = firstKeys (place.children.map keyText)
  distinct : kind = .obj → origin.hadDuplicates = false → (place.children.map keyText).Nodup
  strings : ∀ k value raw, origin.records.lookup k = some (.string value raw) →
    ∃ child, under kind place.children k = some child ∧
      IsLeaf env child.place.node (.str value) ∧ child.place.node.render = raw
  empty : place.children = [] → origin.complete = true ∧ origin.len = env.length p.entries

/-- What stands beside the entries of a table that was materialized from a node. -/
structure Labels (s : State F) (keepOrigin : Bool) (place : Place) (kind : Kind)
    (p : Plain F) : Prop where
  empty : p.emptyArray = true ↔ kind = .arr ∧ place.children = []
  record : match keepOrigin with
    | false => p.hint = none ∧ p.origin = none
    | true => ∃ o origin, p.origin = some o ∧ s.origins[o]? = some origin ∧
        RecordOf env place kind p origin ∧ Remembers env s.origins o place

/-- A value is the materialization of a node, with or without `keep_origin`. -/
inductive Mirrors (s : State F) (keepOrigin : Bool) : Place → Value F → Prop where
  | leaf {place : Place} {v : Value F} :
      IsLeaf env place.node v → Mirrors s keepOrigin place v
  | table {place : Place} {r : Nat} {p : Plain F} {kind : Kind} :
      place.node.kind? = some kind → s.plain? r = some p →
      Labels env s keepOrigin place kind p →
      (∀ k, p.entries.lookup k = none ↔ under kind place.children k = none) →
      (∀ k child v, under kind place.children k = some child → p.entries.lookup k = some v →
        Mirrors s keepOrigin child.place v) →
      Mirrors s keepOrigin place (.table r)

end Statements

section Tables

variable {F : Type} [DecidableEq F] {env : Env F} {forest : Forest} {s s' : State F}
  {keepOrigin : Bool} {place : Place} {v : Value F}

/-- What materialization with `keep_origin` does to the heap. -/
structure Widened (env : Env F) (forest : Forest) (s s' : State F) : Prop where
  kept : Kept env forest s s'
  origins : s.origins <+: s'.origins
  remembered : ∀ o, s.origins.length ≤ o → o < s'.origins.length →
    ∃ d place, At forest d place ∧ Remembers env s'.origins o place

theorem Kept.widened (kept : Kept env forest s s') (same : s'.origins = s.origins) :
    Widened env forest s s' := by
  refine ⟨kept, same ▸ List.prefix_refl _, fun o low high => ?_⟩
  rw [same] at high
  exact absurd low (Nat.not_le_of_lt high)

theorem Widened.refl (wf : Wf forest s) : Widened env forest s s := (Kept.refl wf).widened rfl

theorem Widened.trans {s'' : State F} (first : Widened env forest s s')
    (second : Widened env forest s' s'') : Widened env forest s s'' := by
  refine ⟨first.kept.trans second.kept, first.origins.trans second.origins, fun o low high => ?_⟩
  by_cases early : o < s'.origins.length
  · obtain ⟨d, place, at_, remembers⟩ := first.remembered o low early
    exact ⟨d, place, at_, remembers.later second.origins⟩
  · exact second.remembered o (Nat.le_of_not_lt early) high

theorem Quiet.widened (quiet : Quiet s s') (wf : Wf forest s) (library : Library forest s') :
    Widened env forest s s' :=
  (quiet.kept wf library).widened quiet.origins

theorem Opened.widened (opened : Opened forest s s') : Widened env forest s s' :=
  opened.kept.widened opened.opens.origins

theorem Widened.record (widened : Widened env forest s s') {o : Nat} {origin : Origin F}
    (here : s.origins[o]? = some origin) : s'.origins[o]? = some origin := by
  obtain ⟨rest, same⟩ := widened.origins
  rw [← same]
  exact List.getElem?_append_left (List.getElem?_eq_some_iff.1 here).1 ▸ here

theorem Mirrors.widened (mirrors : Mirrors env s keepOrigin place v)
    (widened : Widened env forest s s') : Mirrors env s' keepOrigin place v := by
  induction mirrors with
  | leaf leaf => exact .leaf leaf
  | table isKind plain labels domain _ ih =>
      refine .table isKind (widened.kept.grown.plain _ _ plain) ⟨labels.empty, ?_⟩ domain ih
      cases keepOrigin with
      | false => exact labels.record
      | true =>
          obtain ⟨o, origin, isOrigin, here, record, remembers⟩ := labels.record
          exact ⟨o, origin, isOrigin, widened.record here, record, remembers.later widened.origins⟩

/-- The record of what mirrors a node was taken of the node. -/
theorem Mirrors.remembers (mirrors : Mirrors env s true place v) {o : Nat}
    (isOrigin : s.originOf (some v) = some o) : Remembers env s.origins o place := by
  cases mirrors with
  | leaf leaf =>
      cases v with
      | table r => exact absurd rfl (leaf.not_table r)
      | _ => cases isOrigin
  | table isKind plain labels =>
      obtain ⟨o', origin, isOrigin', here, record, remembers⟩ := labels.record
      rw [State.originOf, plain, Option.bind_some, isOrigin'] at isOrigin
      obtain rfl := Option.some.inj isOrigin
      exact remembers

/-- What mirrors a node is there. -/
theorem Mirrors.isBelow (mirrors : Mirrors env s keepOrigin place v) :
    v.Below s.tables.length := by
  cases mirrors with
  | leaf leaf => exact below_of_leaf leaf
  | table _ plain _ _ _ =>
      exact (List.getElem?_eq_some_iff.1 (plain?_eq_some.1 plain)).1

end Tables

/-! ## Tables under construction -/

section Gathering

variable {F : Type} [DecidableEq F] {env : Env F} {forest : Forest} {s s' : State F}
  {keepOrigin : Bool} {place : Place} {kind : Kind} {done : List Child} {child : Child}
  {out : Map (Key F) (Value F)} {p : Plain F} {x : Value F}

/-- The table of the children that were worked off. -/
structure Gathered (env : Env F) (s : State F) (keepOrigin : Bool) (kind : Kind)
    (done : List Child) (out : Map (Key F) (Value F)) : Prop where
  domain : ∀ k, out.lookup k = none ↔ under kind done k = none
  mirrors : ∀ k child v, under kind done k = some child → out.lookup k = some v →
    Mirrors env s keepOrigin child.place v
  readable : ∀ child ∈ done, Readable env child.place.node

theorem gathered_nil : Gathered env s keepOrigin kind [] ∅ where
  domain k := by simp [under_nil]
  mirrors k child v here := by
    rw [under_nil] at here
    cases here
  readable child member := by cases member

theorem Gathered.widened (gathered : Gathered env s keepOrigin kind done out)
    (widened : Widened env forest s s') : Gathered env s' keepOrigin kind done out where
  domain := gathered.domain
  mirrors k child v here entry := (gathered.mirrors k child v here entry).widened widened
  readable := gathered.readable

theorem Gathered.put (gathered : Gathered env s keepOrigin kind done out)
    (mirrors : Mirrors env s keepOrigin child.place x)
    (readable : Readable env child.place.node) :
    Gathered env s keepOrigin kind (done ++ [child])
      (put out (keyAmong kind done child) (some x)) where
  domain k := by
    rw [lookup_put, under_concat]
    split
    · simp
    · exact gathered.domain k
  mirrors k other v here entry := by
    rw [lookup_put] at entry
    rw [under_concat] at here
    split at here
    · rename_i same
      rw [if_pos same] at entry
      obtain rfl := Option.some.inj here
      obtain rfl := Option.some.inj entry
      exact mirrors
    · rename_i apart
      rw [if_neg apart] at entry
      exact gathered.mirrors k other v here entry
  readable other member := by
    rcases List.mem_append.1 member with old | new
    · exact gathered.readable other old
    · obtain rfl := List.mem_singleton.1 new
      exact readable

/-- The border of an array under construction. -/
theorem Gathered.length (gathered : Gathered env s keepOrigin .arr done out) :
    env.length out = done.length := by
  obtain ⟨beyond, border⟩ := env.length_border out
  apply Nat.le_antisymm
  · rcases border with zero | inside
    · exact zero ▸ Nat.zero_le _
    · rw [← AList.lookup_isSome, Option.isSome_iff_ne_none, ne_eq, gathered.domain, under] at inside
      split at inside
      · rename_i later
        have less := mt List.getElem?_eq_none_iff.2 inside
        omega
      · exact absurd rfl inside
  · rw [← AList.lookup_eq_none, gathered.domain] at beyond
    exact List.getElem?_eq_none_iff.1 beyond

/-- A table under construction is an empty array when the node is one. -/
theorem Gathered.empty (gathered : Gathered env s keepOrigin kind done out) :
    decide (kind = .arr ∧ env.length out = 0) = true ↔ kind = .arr ∧ done = [] := by
  rw [decide_eq_true_iff]
  apply and_congr_right
  rintro rfl
  rw [gathered.length, List.length_eq_zero_iff]

theorem Gathered.plainOk (gathered : Gathered env s keepOrigin kind place.children p.entries) :
    PlainOk (s.tables.length + 1) p := by
  intro k v entry
  cases here : under kind place.children k with
  | none =>
      rw [(gathered.domain k).2 here] at entry
      cases entry
  | some child =>
      refine ⟨?_, (gathered.mirrors k child v here entry).isBelow.mono (Nat.le_succ _)⟩
      cases k with
      | val w => cases here
      | _ => trivial

theorem Gathered.table (gathered : Gathered env s keepOrigin kind place.children p.entries)
    (widened : Widened env forest s s') (isKind : place.node.kind? = some kind)
    {r : Nat} (plain : s'.plain? r = some p) (labels : Labels env s' keepOrigin place kind p) :
    Mirrors env s' keepOrigin place (.table r) :=
  .table isKind plain labels gathered.domain fun k child v here entry =>
    (gathered.mirrors k child v here entry).widened widened

end Gathering

/-- The function materializes what decoding a node returned. -/
def Reflects {F : Type} [DecidableEq F] (env : Env F) (forest : Forest) (keepOrigin : Bool)
    (room : Nat) (recur : Option (Value F) → Act F (Option (Value F))) : Prop :=
  ∀ s v view d place, Wf forest s → At forest d place → Yields env s view d place v →
    Action.Wp (recur v) s
      (fun w s' => Widened env forest s s' ∧ Readable env place.node ∧
        ∃ x, w = some x ∧ Mirrors env s' keepOrigin place x)
      fun _ => Stuck env room place.node

/-! ## Materializing without provenance -/

section Plain

variable {F : Type} [DecidableEq F] {env : Env F} {forest : Forest} {s s' : State F}
  {recur : Option (Value F) → Act F (Option (Value F))} {room view d : Nat}
  {parent : Option Nat} {place : Place} {kind : Kind} {out : Map (Key F) (Value F)}

theorem wp_gatherContents (reflects : Reflects env forest false room recur)
    (wf : Wf forest s) (here : s.proxy? view = some (fresh .obj parent d place))
    (at_ : At forest d place) {contents : List (Bytes × Option (Value F))}
    (decoded : List.Forall₂ (fun child kv => kv.1 = keyText child ∧
      Yields env s view d child.place kv.2) place.children contents) :
    Action.Wp (materializeContents recur view contents) s
      (fun out s' => Widened env forest s s' ∧ Gathered env s' false .obj place.children out)
      fun _ => Stuck env (room + 1) place.node := by
  refine (Action.wp_foldlM_split (fun done out s' => Widened env forest s s' ∧
    Gathered env s' false .obj (place.children.take done.length) out) ?_ ?_).mono
    (fun out s' gathered => ?_) fun _ => id
  · rintro done kv rest out s' rfl ⟨widened, gathered⟩
    obtain ⟨child, at_child, name, yields⟩ := forall₂_split decoded
    have still := widened.kept.grown.same here (.inr (.inr rfl))
    rw [cachedChild, Action.wp_bind, Action.wp_bind, Action.wp_get, Action.wp_pure, still]
    change Action.Wp (recur kv.2 >>= fun w => pure (put out (.str kv.1) w)) s' _ _
    rw [Action.wp_bind]
    refine (reflects s' kv.2 view d child.place widened.kept.wf (at_.child at_child)
      (yields.grown widened.kept.grown)).mono (fun w s'' reflected => ?_)
      fun _ stuck => stuck.parent (List.mem_of_getElem? at_child)
    obtain ⟨widened', readable, x, rfl, mirrors⟩ := reflected
    refine ⟨widened.trans widened', ?_⟩
    rw [List.length_append, List.length_singleton, take_succ_of at_child, name]
    exact (gathered.widened widened').put mirrors readable
  · exact ⟨.refl wf, gathered_nil⟩
  · rwa [← decoded.length_eq, List.take_length] at gathered

theorem wp_gatherElements (reflects : Reflects env forest false room recur)
    (wf : Wf forest s) (here : s.proxy? view = some (fresh .arr parent d place))
    (at_ : At forest d place) {contents : List (Option (Value F))}
    (decoded : List.Forall₂ (fun child v => Yields env s view d child.place v) place.children
      contents) :
    Action.Wp (materializeElements recur view contents) s
      (fun out s' => Widened env forest s s' ∧ Gathered env s' false .arr place.children out)
      fun _ => Stuck env (room + 1) place.node := by
  have all : contents.takeWhile Option.isSome = contents := by
    refine List.takeWhile_eq_self_iff.2 fun v member => ?_
    obtain ⟨child, -, yields⟩ := forall₂_right decoded member
    obtain ⟨w, rfl⟩ := yields.isSome
    rfl
  rw [materializeElements, all]
  refine (Action.wp_foldlM_split (fun done out s' => Widened env forest s s' ∧
    Gathered env s' false .arr (place.children.take done.length) out) ?_ ?_).mono
    (fun out s' gathered => ?_) fun _ => id
  · rintro done x rest out s' split ⟨widened, gathered⟩
    have values : contents = done.map Prod.fst ++ x.1 :: rest.map Prod.fst := by
      rw [← List.zipIdx_map_fst 1 contents, split, List.map_append, List.map_cons]
    have index : x.2 = done.length + 1 := by
      have entry : (contents.zipIdx 1)[done.length]? = some x := by rw [split]; simp
      rw [List.getElem?_zipIdx] at entry
      obtain ⟨v, -, rfl⟩ := Option.map_eq_some_iff.1 entry
      exact Nat.add_comm 1 _
    rw [values] at decoded
    obtain ⟨child, at_child, yields⟩ := forall₂_split decoded
    rw [List.length_map] at at_child
    have still := widened.kept.grown.same here (.inr (.inr rfl))
    rw [rawElem, Action.wp_bind, Action.wp_bind, Action.wp_get, Action.wp_pure, still]
    change Action.Wp (recur x.1 >>= fun w => pure (put out (.idx x.2) w)) s' _ _
    rw [Action.wp_bind]
    refine (reflects s' x.1 view d child.place widened.kept.wf (at_.child at_child)
      (yields.grown widened.kept.grown)).mono (fun w s'' reflected => ?_)
      fun _ stuck => stuck.parent (List.mem_of_getElem? at_child)
    obtain ⟨widened', readable, y, rfl, mirrors⟩ := reflected
    refine ⟨widened.trans widened', ?_⟩
    have length : (place.children.take done.length).length = done.length :=
      List.length_take_of_le (List.getElem?_eq_some_iff.1 at_child).1.le
    have put := (gathered.widened widened').put mirrors readable
    rw [keyAmong, length] at put
    rw [List.length_append, List.length_singleton, take_succ_of at_child, index]
    exact put
  · exact ⟨.refl wf, gathered_nil⟩
  · rwa [List.length_zipIdx, ← decoded.length_eq, List.take_length] at gathered

theorem wp_gatherTable (isKind : place.node.kind? = some kind) (widened : Widened env forest s s')
    (gathered : Gathered env s' false kind place.children out) :
    Action.Wp (newPlain env kind out) s'
      (fun x s'' => Widened env forest s s'' ∧ Readable env place.node ∧
        Mirrors env s'' false place x)
      fun _ => Stuck env (room + 1) place.node := by
  have gathered' : Gathered env s' false kind place.children
      (Plain.entries ⟨out, kind = .arr ∧ env.length out = 0, none, none⟩) := gathered
  have okTable : TableOk forest (s'.tables.length + 1) s'.tables.length
      (.plain ⟨out, kind = .arr ∧ env.length out = 0, none, none⟩) := gathered'.plainOk
  have adds : Adds [.plain ⟨out, kind = .arr ∧ env.length out = 0, none, none⟩] s'
      { s' with tables := s'.tables ++ [.plain
        ⟨out, kind = .arr ∧ env.length out = 0, none, none⟩] } := ⟨rfl, rfl, rfl, rfl, rfl⟩
  have kept : Kept env forest s' _ :=
    ⟨widened.kept.wf.added okTable adds (widened.kept.wf.library.congr rfl rfl), grown_added adds⟩
  have added := kept.widened rfl
  refine ⟨widened.trans added, readable_of_children isKind gathered.readable,
    gathered'.table added isKind ?_ ⟨gathered.empty, rfl, rfl⟩⟩
  rw [plain?_eq_some, getElem?_added adds.tables, if_pos rfl]

theorem wp_gatherProxy (reflects : Reflects env forest false room recur) (wf : Wf forest s)
    (here : s.proxy? view = some (fresh kind parent d place)) (at_ : At forest d place)
    (isKind : place.node.kind? = some kind) :
    Action.Wp (materializePlainProxy env recur view (fresh kind parent d place)) s
      (fun x s' => Widened env forest s s' ∧ Readable env place.node ∧
        Mirrors env s' false place x)
      fun _ => Stuck env (room + 1) place.node := by
  have older : ∀ p, parent = some p → p < view := by
    obtain ⟨place', ok⟩ := wf.proxy here
    exact ok.parent
  have ok : ProxyOk forest s.tables.length view (fresh (F := F) kind parent d place) place :=
    fresh_ok at_ isKind older
  have refused {s' : State F} (failed : Opened forest s s' ∧
      ∃ child ∈ place.children, Unreadable env child.place.node) :
      Stuck env (room + 1) place.node := by
    obtain ⟨-, child, member, unreadable⟩ := failed
    exact .inr (not_readable_of_child member unreadable)
  have table {s' : State F} (opened : Opened forest s s')
      {walk : Act F (Map (Key F) (Value F))}
      (walked : Action.Wp walk s' (fun out s'' => Widened env forest s' s'' ∧
        Gathered env s'' false kind place.children out)
        fun _ => Stuck env (room + 1) place.node) :
      Action.Wp (walk >>= newPlain env kind) s'
        (fun x s'' => Widened env forest s s'' ∧ Readable env place.node ∧
          Mirrors env s'' false place x)
        fun _ => Stuck env (room + 1) place.node := by
    rw [Action.wp_bind]
    exact walked.mono (fun out s'' walked =>
      wp_gatherTable isKind (opened.widened.trans walked.1) walked.2) fun _ => id
  rw [materializePlainProxy]
  cases kind with
  | obj =>
      change Action.Wp (materializeObjectContents env view (fresh .obj parent d place) >>= _) s _ _
      rw [Action.wp_bind]
      refine (wp_materializeObjectContents wf here ok rfl).mono (fun contents s' walked => ?_)
        fun _ failed => refused failed
      exact table walked.1 (wp_gatherContents reflects walked.1.wf
        (walked.1.opens.proxy? here) at_ walked.2)
  | arr =>
      change Action.Wp (materializeArrayContents env view (fresh .arr parent d place) >>= _) s _ _
      rw [Action.wp_bind]
      refine (wp_materializeArrayContents wf here ok rfl).mono (fun contents s' walked => ?_)
        fun _ failed => refused failed
      exact table walked.1 (wp_gatherElements reflects walked.1.wf
        (walked.1.opens.proxy? here) at_ walked.2)

end Plain

/-! ## A walk with provenance -/

section Recording

variable {F : Type} [DecidableEq F] {env : Env F} {forest : Forest} {s s' : State F}
  {place : Place} {kind : Kind} {done : List Child} {child : Child} {w w' : Walk F} {x : Value F}
  {record : Option (Record F)}

/-- A record of a child holds the child's text, or is a record of the child. -/
structure Notes (env : Env F) (origins : List (Origin F)) (child : Child)
    (record : Option (Record F)) : Prop where
  string : ∀ value raw, record = some (.string value raw) →
    IsLeaf env child.place.node (.str value) ∧ child.place.node.render = raw
  table : ∀ o, record = some (.table o) → Remembers env origins o child.place

/-- The walk behind some children. -/
structure Recording (env : Env F) (s : State F) (kind : Kind) (done : List Child) (w : Walk F) :
    Prop extends Gathered env s true kind done w.out where
  keys : kind = .obj → w.keys = firstKeys (done.map keyText)
  distinct : kind = .obj → w.hadDuplicates = false → (done.map keyText).Nodup
  strings : ∀ k value raw, w.records.lookup k = some (.string value raw) →
    ∃ child, under kind done k = some child ∧
      IsLeaf env child.place.node (.str value) ∧ child.place.node.render = raw
  tables : ∀ k o, w.records.lookup k = some (.table o) →
    ∃ child, under kind done k = some child ∧ Remembers env s.origins o child.place
  empty : done = [] → w.complete = true

theorem recording_start : Recording env s kind [] Walk.start where
  toGathered := gathered_nil
  keys _ := rfl
  distinct _ _ := List.nodup_nil
  strings k value raw none_ := by cases none_
  tables k o none_ := by cases none_
  empty _ := rfl

theorem Recording.widened (recording : Recording env s kind done w)
    (widened : Widened env forest s s') : Recording env s' kind done w :=
  { recording with
    toGathered := recording.toGathered.widened widened
    tables := fun k o here => by
      obtain ⟨child, found, remembers⟩ := recording.tables k o here
      exact ⟨child, found, remembers.later widened.origins⟩ }

theorem Recording.put (recording : Recording env s kind done w)
    (mirrors : Mirrors env s true child.place x) (readable : Readable env child.place.node)
    (notes : Notes env s.origins child record)
    (out : w'.out = put w.out (keyAmong kind done child) (some x))
    (records : w'.records = Table.put w.records (keyAmong kind done child) record)
    (keys : kind = .obj → w'.keys = firstKeys ((done ++ [child]).map keyText))
    (distinct : kind = .obj → w'.hadDuplicates = false →
      ((done ++ [child]).map keyText).Nodup) :
    Recording env s kind (done ++ [child]) w' where
  toGathered := out ▸ recording.toGathered.put mirrors readable
  keys := keys
  distinct := distinct
  strings k value raw here := by
    rw [records, lookup_put] at here
    rw [under_concat]
    split at here
    · rename_i same
      rw [if_pos same]
      exact ⟨child, rfl, notes.string value raw here⟩
    · rename_i apart
      rw [if_neg apart]
      exact recording.strings k value raw here
  tables k o here := by
    rw [records, lookup_put] at here
    rw [under_concat]
    split at here
    · rename_i same
      rw [if_pos same]
      exact ⟨child, rfl, notes.table o here⟩
    · rename_i apart
      rw [if_neg apart]
      exact recording.tables k o here
  empty none_ := by simp at none_

theorem Recording.member (recording : Recording env s .obj done w)
    (mirrors : Mirrors env s true child.place x) (readable : Readable env child.place.node)
    (notes : Notes env s.origins child record) :
    Recording env s .obj (done ++ [child]) (w.member (keyText child) (some x) record) := by
  have keys := recording.keys rfl
  have seen : keyText child ∈ w.keys ↔ keyText child ∈ done.map keyText := by
    rw [keys, mem_firstKeys]
  refine recording.put mirrors readable notes (w.member_out _ _ _) ?_ (fun _ => ?_)
    fun _ single => ?_
  · rw [Walk.member]
    split <;> rfl
  · rw [List.map_append, List.map_singleton, firstKeys_concat, ← keys, Walk.member]
    by_cases old : keyText child ∈ w.keys
    · rw [if_neg (not_not.2 old), if_pos old]
      rfl
    · rw [if_pos old, if_neg old]
      rfl
  · rw [Walk.member] at single
    split at single
    · rename_i new
      rw [List.map_append, List.map_singleton]
      refine (recording.distinct rfl single).append (List.nodup_singleton _) ?_
      rw [List.disjoint_singleton]
      exact mt seen.2 new
    · cases single

theorem Recording.element (recording : Recording env s .arr done w)
    (mirrors : Mirrors env s true child.place x) (readable : Readable env child.place.node)
    (notes : Notes env s.origins child record) :
    Recording env s .arr (done ++ [child]) (w.add (.idx (done.length + 1)) (some x) record) :=
  recording.put mirrors readable notes rfl rfl nofun nofun

/-- The record of a walk that came to the end was taken of the node. -/
theorem Recording.remembers (recording : Recording env s kind place.children w)
    (isKind : place.node.kind? = some kind) {origins : List (Origin F)} {o : Nat}
    {origin : Origin F} (later : s.origins <+: origins) (here : origins[o]? = some origin)
    (same : origin.kind = kind) (slice : originTableSlice origin = place.node.render)
    (keys : origin.keys = w.keys) (len : origin.len = env.length w.out)
    (records : origin.records = w.records) : Remembers env origins o place := by
  subst same
  refine .intro here isKind slice (fun object => keys.trans (recording.keys object))
    (fun array => ?_) (fun k there => ?_) (fun k child value raw found isRecord => ?_)
    fun k child o' found isRecord => ?_
  · have gathered := recording.toGathered
    rw [array] at gathered
    exact len.trans gathered.length
  · rw [records] at there
    obtain ⟨record, isRecord⟩ := Option.isSome_iff_exists.1 there
    cases record with
    | string value raw =>
        obtain ⟨child, found, -⟩ := recording.strings k value raw isRecord
        rw [found]
        rfl
    | table o' =>
        obtain ⟨child, found, -⟩ := recording.tables k o' isRecord
        rw [found]
        rfl
  · rw [records] at isRecord
    obtain ⟨child', found', leaf⟩ := recording.strings k value raw isRecord
    obtain rfl := Option.some.inj (found.symm.trans found')
    exact leaf
  · rw [records] at isRecord
    obtain ⟨child', found', remembers⟩ := recording.tables k o' isRecord
    obtain rfl := Option.some.inj (found.symm.trans found')
    exact remembers.later later

end Recording

/-! ## Materializing with provenance -/

section Walks

variable {F : Type} [DecidableEq F] {env : Env F} {forest : Forest} {s s' : State F}
  {recur : Option (Value F) → Act F (Option (Value F))} {room view d : Nat}
  {parent : Option Nat} {place : Place} {child : Child} {kind : Kind} {done : List Child}
  {w : Walk F}

theorem notes_originChildRecord (library : Library forest s) (at_ : At forest d child.place)
    {x : Value F} (mirrors : Mirrors env s true child.place x) :
    Notes env s.origins child
      (originChildRecord s (some x) (((s.docs[d]?).map Document.buf).getD [])
        child.place.pos (child.place.pos + child.place.node.render.length)) := by
  constructor
  · intro value raw record
    rw [originChildRecord.eq_def] at record
    split at record
    · rename_i text same
      obtain rfl := Option.some.inj same
      split at record
      · obtain ⟨rfl, rfl⟩ := Record.string.inj (Option.some.inj record)
        cases mirrors with
        | leaf leaf => exact ⟨leaf, (library.token at_).symm⟩
      · cases record
    · split at record
      · cases record
      · split at record
        · cases record
        · split at record <;> cases record
  · intro o record
    rw [originChildRecord.eq_def] at record
    split at record
    · split at record <;> cases record
    · split at record
      · cases record
      · rename_i o' isOrigin
        split at record
        · cases record
        · split at record
          · obtain rfl := Record.table.inj (Option.some.inj record)
            exact mirrors.remembers isOrigin
          · cases record

theorem wp_copyChild (reflects : Reflects env forest true room recur)
    (widened : Widened env forest s s') (recording : Recording env s' kind done w)
    (member : child ∈ place.children) (at_ : At forest d child.place) {v : Option (Value F)}
    (yields : Yields env s' view d child.place v)
    {finish : Option (Value F) → Option (Record F) → Walk F}
    (next : ∀ s'' x record, Recording env s'' kind done w → Mirrors env s'' true child.place x →
      Readable env child.place.node → Notes env s''.origins child record →
      Recording env s'' kind (done ++ [child]) (finish (some x) record)) :
    Action.Wp (do
        let v ← recur v
        let source ← hold d
        let at_ ← Action.get
        return finish v (originChildRecord at_ v source child.place.pos
          (child.place.pos + child.place.node.render.length))) s'
      (fun w' s'' => Widened env forest s s'' ∧ Recording env s'' kind (done ++ [child]) w')
      fun _ => Stuck env (room + 1) place.node := by
  rw [Action.wp_bind]
  refine (reflects s' v view d child.place widened.kept.wf at_ yields).mono
    (fun _ s'' reflected => ?_) fun _ stuck => stuck.parent member
  obtain ⟨widened', readable, x, rfl, mirrors⟩ := reflected
  refine ⟨widened.trans widened', next s'' x _ (recording.widened widened') mirrors readable ?_⟩
  exact notes_originChildRecord widened'.kept.wf.library at_ mirrors

theorem wp_copyEntry (reflects : Reflects env forest true room recur)
    (here : s.proxy? view = some (fresh .obj parent d place)) (member : child ∈ place.children)
    (at_ : At forest d child.place) (widened : Widened env forest s s')
    (recording : Recording env s' .obj done w) :
    Action.Wp (originEntry env recur view (fresh .obj parent d place) w (keyText child)
        child.cursor) s'
      (fun w' s'' => Widened env forest s s'' ∧ Recording env s'' .obj (done ++ [child]) w')
      fun _ => Stuck env (room + 1) place.node := by
  rw [originEntry, Action.wp_bind]
  refine wp_cursorTokenSpan widened.kept.wf.library at_ fun s₁ quiet library => ?_
  have widened₁ := widened.trans (quiet.widened widened.kept.wf library)
  have recording₁ := recording.widened (quiet.widened widened.kept.wf library)
  have here₁ := widened₁.kept.grown.same here (.inr (.inr rfl))
  have decodes : Action.Wp (do
      let v ← decodeCursor env (some view) d child.cursor
      let v ← recur v
      let source ← hold d
      let at_ ← Action.get
      return w.member (keyText child) v (originChildRecord at_ v source child.place.pos
        (child.place.pos + child.place.node.render.length))) s₁
      (fun w' s'' => Widened env forest s s'' ∧ Recording env s'' .obj (done ++ [child]) w')
      fun _ => Stuck env (room + 1) place.node := by
    rw [Action.wp_bind]
    refine (wp_decodeChild widened₁.kept.wf at_ (lt_of_proxy? here₁)).mono
      (fun v s₂ decoded => ?_) fun s₂ failed => ?_
    · exact wp_copyChild reflects (widened₁.trans decoded.1.widened)
        (recording₁.widened decoded.1.widened) member at_ decoded.2
        fun _ _ _ recording mirrors readable notes => recording.member mirrors readable notes
    · exact .inr (not_readable_of_child member failed.2)
  -- Nothing is cached, whether the key is new or not.
  by_cases first : keyText child ∉ w.keys
  · simp only [Walk.member, first, not_false_eq_true, if_true] at decodes ⊢
    rw [cachedChild, Action.wp_bind, Action.wp_bind, Action.wp_get, Action.wp_pure, here₁,
      Option.bind_some]
    exact decodes
  · simp only [Walk.member, first, if_false] at decodes ⊢
    exact decodes

theorem wp_copyElement (reflects : Reflects env forest true room recur)
    (here : s.proxy? view = some (fresh .arr parent d place)) (member : child ∈ place.children)
    (at_ : At forest d child.place) (widened : Widened env forest s s')
    (recording : Recording env s' .arr done w) :
    Action.Wp (originElement env recur view (fresh .arr parent d place) w done.length
        child.cursor) s'
      (fun w' s'' => Widened env forest s s'' ∧ Recording env s'' .arr (done ++ [child]) w')
      fun _ => Stuck env (room + 1) place.node := by
  rw [originElement, Action.wp_bind]
  refine wp_cursorTokenSpan widened.kept.wf.library at_ fun s₁ quiet library => ?_
  have widened₁ := widened.trans (quiet.widened widened.kept.wf library)
  have recording₁ := recording.widened (quiet.widened widened.kept.wf library)
  have here₁ := widened₁.kept.grown.same here (.inr (.inr rfl))
  rw [rawElem, Action.wp_bind, Action.wp_bind, Action.wp_get, Action.wp_pure, here₁,
    Option.bind_some]
  change Action.Wp (decodeCursor env (some view) d child.place.cursor >>= _) s₁ _ _
  rw [Action.wp_bind]
  refine (wp_decodeChild widened₁.kept.wf at_ (lt_of_proxy? here₁)).mono
    (fun v s₂ decoded => ?_) fun s₂ failed => ?_
  · exact wp_copyChild reflects (widened₁.trans decoded.1.widened)
      (recording₁.widened decoded.1.widened) member at_ decoded.2
      fun _ _ _ recording mirrors readable notes => recording.element mirrors readable notes
  · exact .inr (not_readable_of_child member failed.2)

/-- The state behind a new table and its record. -/
def State.withOrigin (s : State F) (p : Plain F) (origin : Origin F) : State F :=
  { s with tables := s.tables ++ [.plain p], origins := s.origins ++ [origin] }

theorem Gathered.withOrigin {p : Plain F} {origin : Origin F}
    (gathered : Gathered env s true kind place.children p.entries) (wf : Wf forest s)
    (at_ : At forest d place) (isKind : place.node.kind? = some kind)
    (empty : p.emptyArray = true ↔ kind = .arr ∧ place.children = [])
    (isOrigin : p.origin = some s.origins.length) (record : RecordOf env place kind p origin)
    (remembers : Remembers env (s.origins ++ [origin]) s.origins.length place) :
    Widened env forest s (s.withOrigin p origin) ∧
      Mirrors env (s.withOrigin p origin) true place (.table s.tables.length) := by
  have okTable : TableOk forest (s.tables.length + 1) s.tables.length (.plain p) :=
    gathered.plainOk
  -- The record first, then the table.
  have recorded : Wf forest { s with origins := s.origins ++ [origin] } :=
    wf.later (wf.library.congr rfl rfl) (Later.of_tables rfl) rfl wf.tables
  have adds : Adds [.plain p] { s with origins := s.origins ++ [origin] }
      (s.withOrigin p origin) := ⟨rfl, rfl, rfl, rfl, rfl⟩
  have grown : Grown env forest s { s with origins := s.origins ++ [origin] } :=
    ⟨rfl, fun _ _ => id, fun _ _ => .inl⟩
  have widened : Widened env forest s (s.withOrigin p origin) :=
    { kept := ⟨recorded.added okTable adds (wf.library.congr rfl rfl),
        grown.trans (grown_added adds)⟩
      origins := List.prefix_append _ _
      remembered := fun o low high => by
        rw [State.withOrigin, List.length_append, List.length_singleton] at high
        obtain rfl := Nat.le_antisymm low (Nat.le_of_lt_succ high)
        exact ⟨d, place, at_, remembers⟩ }
  refine ⟨widened, gathered.table widened isKind ?_
    ⟨empty, _, origin, isOrigin, ?_, record, remembers⟩⟩
  · rw [plain?_eq_some, getElem?_added adds.tables, if_pos rfl]
  · exact List.getElem?_concat_length

/-- `materialize_object_with_origin` and `materialize_array_with_origin`, behind their
walks. -/
theorem wp_newOriginTable (at_ : At forest d place) (isKind : place.node.kind? = some kind)
    (widened : Widened env forest s s') (recording : Recording env s' kind place.children w) :
    Action.Wp (newOriginTable env (fresh kind parent d place) w) s'
      (fun x s'' => Widened env forest s s'' ∧ Readable env place.node ∧
        Mirrors env s'' true place x)
      fun _ => Stuck env (room + 1) place.node := by
  have record : RecordOf env place kind
      ⟨w.out, kind = .arr ∧ env.length w.out = 0, if kind = .obj then some .obj else none,
        some s'.origins.length⟩
      ⟨kind, w.complete, ((s'.docs[d]?).map Document.buf).getD [], place.pos,
        place.pos + place.node.render.length, w.keys, env.length w.out, w.records,
        w.hadDuplicates⟩ :=
    { same := rfl
      slice := widened.kept.wf.library.token at_
      keys := recording.keys
      distinct := recording.distinct
      strings := recording.strings
      empty := fun none_ => ⟨recording.empty none_, rfl⟩ }
  have remembers := recording.remembers isKind (List.prefix_append s'.origins [_])
    List.getElem?_concat_length rfl record.slice rfl rfl rfl
  have added := recording.toGathered.withOrigin widened.kept.wf at_ isKind
    recording.toGathered.empty rfl record remembers
  exact ⟨widened.trans added.1, readable_of_children isKind recording.readable, added.2⟩

theorem wp_copyProxy (reflects : Reflects env forest true room recur) (wf : Wf forest s)
    (here : s.proxy? view = some (fresh kind parent d place)) (at_ : At forest d place)
    (isKind : place.node.kind? = some kind) :
    Action.Wp (materializeOriginProxy env recur view (fresh kind parent d place)) s
      (fun x s' => Widened env forest s s' ∧ Readable env place.node ∧ Mirrors env s' true place x)
      fun _ => Stuck env (room + 1) place.node := by
  have inv : LoopInv forest fun done (w : Walk F) s' =>
      Widened env forest s s' ∧ Recording env s' kind done w :=
    { library := fun _ _ _ kept => kept.1.kept.wf.library
      quiet := fun _ _ _ _ kept quiet library =>
        have widened := quiet.widened kept.1.kept.wf library
        ⟨kept.1.trans widened, kept.2.widened widened⟩ }
  have start : Widened env forest s s ∧ Recording env s kind [] Walk.start :=
    ⟨.refl wf, recording_start⟩
  rw [materializeOriginProxy]
  cases kind with
  | obj =>
      change Action.Wp (forEntries env (fresh .obj parent d place) _ _ >>= _) s _ _
      rw [Action.wp_bind]
      refine (wp_forEntries at_ rfl isKind inv (fun k child w s' at_child kept => ?_) start).mono
        (fun w s' kept => wp_newOriginTable at_ isKind kept.1 kept.2) fun _ => id
      exact wp_copyEntry reflects here (List.mem_of_getElem? at_child) (at_.child at_child)
        kept.1 kept.2
  | arr =>
      change Action.Wp (forElements (fresh .arr parent d place) _ _ >>= _) s _ _
      rw [Action.wp_bind]
      refine (wp_forElements at_ rfl isKind inv (fun k child w s' at_child kept => ?_) start).mono
        (fun w s' kept => wp_newOriginTable at_ isKind kept.1 kept.2) fun _ => id
      have length : (place.children.take k).length = k :=
        List.length_take_of_le (List.getElem?_eq_some_iff.1 at_child).1.le
      have step := wp_copyElement reflects here (List.mem_of_getElem? at_child)
        (at_.child at_child) kept.1 kept.2
      rwa [length] at step

end Walks

/-! ## Materializing -/

section Materializing

variable {F : Type} [DecidableEq F] {env : Env F} {forest : Forest} {s : State F}
  {keepOrigin : Bool} {view d : Nat} {parent : Option Nat} {place : Place} {kind : Kind}

/-- `qjson.materialize` on an unused proxy, where its children are materialized. -/
theorem wp_materializeProxy {room : Nat}
    (reflects : Reflects env forest keepOrigin room (materialize env room keepOrigin))
    (wf : Wf forest s) (here : s.proxy? view = some (fresh kind parent d place))
    (at_ : At forest d place) (isKind : place.node.kind? = some kind) :
    Action.Wp (materialize env (room + 1) keepOrigin (some (.table view))) s
      (fun w s' => Widened env forest s s' ∧ Readable env place.node ∧
        ∃ x, w = some x ∧ Mirrors env s' keepOrigin place x)
      fun _ => Stuck env (room + 1) place.node := by
  cases keepOrigin with
  | false =>
      rw [materialize, if_neg (by decide), materializePlain, Action.wp_bind, Action.wp_get]
      simp only [here]
      rw [Action.wp_bind]
      refine (wp_gatherProxy reflects wf here at_ isKind).mono ?_ fun _ stuck => stuck
      rintro x s' ⟨widened, readable, mirrors⟩
      exact ⟨widened, readable, x, rfl, mirrors⟩
  | true =>
      rw [materialize, if_pos rfl, materializeWithOrigin, Action.wp_bind, Action.wp_get]
      simp only [here]
      change Action.Wp (materializeOriginProxy env _ view (fresh kind parent d place) >>= _)
        s _ _
      rw [Action.wp_bind]
      refine (wp_copyProxy reflects wf here at_ isKind).mono ?_ fun _ stuck => stuck
      rintro x s' ⟨widened, readable, mirrors⟩
      exact ⟨widened, readable, x, rfl, mirrors⟩

theorem reflects_materialize (room : Nat) :
    Reflects env forest keepOrigin room (materialize env room keepOrigin) := by
  induction room with
  | zero =>
      intro s v view d place wf at_ yields
      cases keepOrigin <;> exact .inl (Nat.zero_le _)
  | succ room ih =>
      intro s v view d place wf at_ yields
      unfold Yields at yields
      split at yields
      · rename_i kind isKind
        obtain ⟨r, rfl, here⟩ := yields
        exact wp_materializeProxy ih wf here at_ isKind
      · obtain ⟨w, rfl, leaf⟩ := yields
        have same : Widened env forest s s ∧ Readable env place.node ∧
            ∃ x, some w = some x ∧ Mirrors env s keepOrigin place x :=
          ⟨.refl wf, readable_of_leaf leaf, w, rfl, .leaf leaf⟩
        cases w with
        | table r => exact absurd rfl (leaf.not_table r)
        | _ => cases keepOrigin <;> exact same

theorem wp_materialize_fresh {room : Nat} (wf : Wf forest s)
    (here : s.proxy? view = some (fresh kind parent d place)) (at_ : At forest d place)
    (isKind : place.node.kind? = some kind) :
    Action.Wp (materialize env room keepOrigin (some (.table view))) s
      (fun w s' => Widened env forest s s' ∧ Readable env place.node ∧
        ∃ x, w = some x ∧ Mirrors env s' keepOrigin place x)
      fun _ => Stuck env room place.node := by
  cases room with
  | zero => cases keepOrigin <;> exact .inl (Nat.zero_le _)
  | succ room => exact wp_materializeProxy (reflects_materialize room) wf here at_ isKind

theorem Mirrors.renders {v : Value F} (mirrors : Mirrors env s false place v) :
    Renders env s place v := by
  generalize isFalse : false = keepOrigin at mirrors
  induction mirrors with
  | leaf leaf => exact .leaf leaf
  | table isKind plain labels domain _ ih =>
      exact .table isKind plain labels.empty domain ih

theorem wp_renders {room : Nat} {v : Option (Value F)} {failed : State F → Prop}
    (mirrors : Action.Wp (materialize env room false v) s
      (fun w s' => Widened env forest s s' ∧ Readable env place.node ∧
        ∃ x, w = some x ∧ Mirrors env s' false place x) failed) :
    Action.Wp (materializePlain env room v) s
      (fun w s' => Kept env forest s s' ∧ Readable env place.node ∧
        ∃ x, w = some x ∧ Renders env s' place x) failed := by
  apply Action.Wp.mono mirrors
  · rintro w s' ⟨widened, readable, x, rfl, mirrors⟩
    exact ⟨widened.kept, readable, x, rfl, mirrors.renders⟩
  · exact fun _ => id

end Materializing

end QJson.Table
