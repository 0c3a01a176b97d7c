import QJson.Table.Verbatim

/-!
# Provenance records hold slices

`materialize` with `keep_origin` records where a table and its long strings come from.
Whatever happens afterwards, what a record would have the encoder copy is the text of one
JSON value.
-/

namespace QJson.Table

open Rfc8259 Validate Doc Decode Ffi Lua

/-- The text of one value, not deeper than parsing allows. -/
def IsValueText (text : Bytes) : Prop :=
  ∃ node : Tree, node.Valid ∧ node.depth ≤ Options.default.effectiveMaxDepth ∧ node.render = text

section Statements

variable {F : Type} [DecidableEq F]

/-- What a provenance record would have copied: its own slice, or the token of a string. -/
structure OriginOk (origin : Origin F) : Prop where
  slice : IsValueText (originTableSlice origin)
  raw : ∀ key value raw, origin.records.lookup key = some (.string value raw) → IsValueText raw

/-- The documents are the results of parses, and the provenance records hold slices. -/
def Recorded (env : Env F) (s : State F) : Prop :=
  (∀ doc ∈ s.docs, ∃ text, parseWithOptions (dispatch env.scanner env.strings) text
    Options.default = .ok doc) ∧
  ∀ origin ∈ s.origins, OriginOk origin

theorem Recorded.congr {env : Env F} {s s' : State F} (recorded : Recorded env s)
    (docs : s'.docs = s.docs) (origins : s'.origins = s.origins) : Recorded env s' := by
  rw [Recorded, docs, origins]
  exact recorded

instance {env : Env F} : Lasting (Recorded env) where
  aside recorded docs _ origins := recorded.congr docs origins
  newTable recorded _ docs _ origins := recorded.congr docs origins
  updateProxy recorded _ := recorded

end Statements

section Slices

variable {F : Type} [DecidableEq F] {env : Env F} {forest : Forest} {s : State F} {d : Nat}
  {place : Place}

omit [DecidableEq F] in
/-- The span of a node is its text. -/
theorem Library.token (library : Library forest s) (at_ : At forest d place) :
    sub (((s.docs[d]?).map Document.buf).getD []) place.pos
      (place.pos + place.node.render.length) = place.node.render := by
  obtain ⟨doc, cells, tree, start, path, docAt, -, -, found, rep, -⟩ := library.doc at_
  rw [docAt, sub, Nat.add_sub_cancel_left]
  exact token_of_locate rep found

/-- The nodes of documents are valid and keep the nesting limit, and their spans are their
texts. -/
theorem Recorded.slice (recorded : Recorded env s) (library : Library forest s)
    (at_ : At forest d place) :
    place.node.Valid ∧ place.node.depth ≤ Options.default.effectiveMaxDepth ∧
      sub (((s.docs[d]?).map Document.buf).getD []) place.pos
        (place.pos + place.node.render.length) = place.node.render := by
  have eager : Options.default.isEager = true := by decide
  obtain ⟨doc, cells, tree, start, path, docAt, -, -, found, rep, -⟩ := library.doc at_
  obtain ⟨text, parsed⟩ := recorded.1 doc (List.mem_of_getElem? docAt)
  obtain ⟨-, -, same⟩ := ok_of_parse eager parsed
  have buf : doc.buf = text := by rw [same]
  have small : text.length < u32Max := buf ▸ rep.small
  obtain ⟨tree', parses⟩ := exists_parses env.scanner env.strings small eager parsed
  obtain ⟨start', rep'⟩ := stands_of_parse env.scanner env.strings small parsed parses
  obtain ⟨rfl, -⟩ := Stands.unique rep rep'
  refine ⟨(rep.locate found).1.valid, ?_, library.token at_⟩
  exact (Tree.valid_of_sub? rep.valid (Place.locate_node found)).2.trans
    (depth_le_of_parse small eager parsed parses)

/-- The records that a walk has collected. -/
def Walk.Sliced (w : Walk F) : Prop :=
  ∀ key value raw, w.records.lookup key = some (.string value raw) → IsValueText raw

theorem Walk.Sliced.add {w : Walk F} (sliced : w.Sliced) {key : Key F} {v : Option (Value F)}
    {record : Option (Record F)}
    (new : ∀ value raw, record = some (.string value raw) → IsValueText raw) :
    (w.add key v record).Sliced := by
  intro k value raw here
  rw [Walk.add, lookup_put] at here
  split at here
  · exact new value raw here
  · exact sliced k value raw here

omit [DecidableEq F] in
/-- What `origin_child_record` would have copied. -/
theorem originChildRecord_slice {v : Option (Value F)} {source : Bytes} {bs be : Nat}
    (slice : IsValueText (sub source bs be)) {value raw : Bytes}
    (record : originChildRecord s v source bs be = some (.string value raw)) :
    IsValueText raw := by
  rw [originChildRecord.eq_def] at record
  split at record
  · split at record
    · obtain ⟨-, rfl⟩ := Record.string.inj (Option.some.inj record)
      exact slice
    · cases record
  · split at record
    · cases record
    · split at record
      · cases record
      · split at record <;> cases record

end Slices

/-! ## Materialization -/

section Materializing

variable {F : Type} [DecidableEq F] {env : Env F} {forest : Forest} {s : State F} {view : Nat}
  {q : Proxy F} {place : Place} {recur : Option (Value F) → Act F (Option (Value F))}

/-- A function that materializes values keeps the records. -/
def Records (env : Env F) (forest : Forest)
    (recur : Option (Value F) → Act F (Option (Value F))) : Prop :=
  ∀ s v, Wf forest s → Recorded env s → Held s.tables.length v →
    Action.Wp (recur v) s (fun _ s' => Recorded env s') (Recorded env)

/-- What the walks of `materialize_object_with_origin` and its sibling for arrays keep. -/
structure Collecting (env : Env F) (forest : Forest) (s : State F) (w : Walk F)
    (s' : State F) : Prop where
  kept : Kept env forest s s'
  recorded : Recorded env s'
  sliced : w.Sliced

theorem Collecting.quiet {w : Walk F} {s' s'' : State F} (collecting : Collecting env forest s w s')
    (quiet : Quiet s' s'') (library : Library forest s'') : Collecting env forest s w s'' :=
  ⟨collecting.kept.trans (quiet.kept collecting.kept.wf library),
    Lasting.aside collecting.recorded quiet.docs quiet.tables quiet.origins, collecting.sliced⟩

theorem wp_recordChild (settles : Settles env forest true recur)
    (records : Records env forest recur)
    {w : Walk F} {s' : State F} (collecting : Collecting env forest s w s')
    {child : Option (Value F)} (held : Held s'.tables.length child)
    (at_ : At forest q.doc place) {finish : Option (Value F) → Option (Record F) → Walk F}
    (sliced : ∀ v record, (∀ value raw, record = some (.string value raw) → IsValueText raw) →
      (finish v record).Sliced) :
    Action.Wp (do
        let v ← recur child
        let source ← hold q.doc
        let at_ ← Action.get
        return finish v (originChildRecord at_ v source place.pos
          (place.pos + place.node.render.length))) s'
      (Collecting env forest s) (Recorded env) := by
  rw [Action.wp_bind]
  refine ((settles s' child collecting.kept.wf held).and
    (records s' child collecting.kept.wf collecting.recorded held)).mono
      (fun v s'' done => ?_) fun _ => And.right
  obtain ⟨settled, recorded⟩ := done
  refine ⟨collecting.kept.trans settled.kept, recorded, sliced v _ fun value raw record => ?_⟩
  obtain ⟨valid, shallow, slice⟩ := recorded.slice settled.kept.wf.library at_
  exact originChildRecord_slice ⟨_, valid, shallow, slice.symm⟩ record

theorem wp_recordEntry (settles : Settles env forest true recur)
    (records : Records env forest recur)
    (here : s.proxy? view = some q) (ok : ProxyOk forest s.tables.length view q place)
    (clean : q.dirty = false) {w : Walk F} {s' : State F} {child : Child}
    (at_ : At forest q.doc child.place) (collecting : Collecting env forest s w s') :
    Action.Wp (originEntry env recur view q w (keyText child) child.cursor) s'
      (Collecting env forest s) (Recorded env) := by
  rw [originEntry, Action.wp_bind]
  refine wp_cursorTokenSpan collecting.kept.wf.library at_ fun s₁ quiet library => ?_
  have collecting₁ := collecting.quiet quiet library
  have here₁ := collecting₁.kept.grown.same here (.inr (.inr clean))
  have rest {s₂ : State F} {v : Option (Value F)} (collecting₂ : Collecting env forest s w s₂)
      (held : Held s₂.tables.length v) :
      Action.Wp (do
          let v ← recur v
          let source ← hold q.doc
          let at_ ← Action.get
          return w.member (keyText child) v (originChildRecord at_ v source child.place.pos
            (child.place.pos + child.place.node.render.length))) s₂
        (Collecting env forest s) (Recorded env) := by
    refine wp_recordChild settles records collecting₂ held at_ fun v record new => ?_
    rw [Walk.member]
    split <;> exact Walk.Sliced.add (v := v) collecting₂.sliced new
  have decodes : Action.Wp (do
      let v ← decodeCursor env (some view) q.doc child.cursor
      let v ← recur v
      let source ← hold q.doc
      let at_ ← Action.get
      return w.member (keyText child) v (originChildRecord at_ v source child.place.pos
        (child.place.pos + child.place.node.render.length))) s₁
      (Collecting env forest s) (Recorded env) := by
    rw [Action.wp_bind]
    refine (wp_decodeChild collecting₁.kept.wf at_ (lt_of_proxy? here₁)).mono
      (fun v s₂ decoded => ?_) fun s₂ failed => ?_
    · exact rest ⟨collecting₁.kept.trans decoded.1.kept,
        collecting₁.recorded.congr decoded.1.opens.docs decoded.1.opens.origins,
        collecting₁.sliced⟩ decoded.2.held
    · exact collecting₁.recorded.congr failed.1.opens.docs failed.1.opens.origins
  by_cases first : keyText child ∉ w.keys
  · simp only [Walk.member, first, not_false_eq_true, if_true] at rest decodes ⊢
    rw [cachedChild, Action.wp_bind, Action.wp_bind, Action.wp_get, Action.wp_pure, here₁,
      Option.bind_some]
    cases cached : q.childCache.lookup (keyText child) with
    | none => exact decodes
    | some c =>
        have held : Held s.tables.length (some c) := held_some (ok.childCache _ c cached)
        exact rest collecting₁ (held.mono collecting₁.kept.grown.length_le)
  · simp only [Walk.member, first, if_false] at decodes ⊢
    exact decodes

theorem wp_recordElement (settles : Settles env forest true recur)
    (records : Records env forest recur)
    (here : s.proxy? view = some q) (ok : ProxyOk forest s.tables.length view q place)
    (clean : q.dirty = false) {w : Walk F} {s' : State F} {k : Nat} {child : Child}
    (at_ : At forest q.doc child.place) (collecting : Collecting env forest s w s') :
    Action.Wp (originElement env recur view q w k child.cursor) s'
      (Collecting env forest s) (Recorded env) := by
  rw [originElement, Action.wp_bind]
  refine wp_cursorTokenSpan collecting.kept.wf.library at_ fun s₁ quiet library => ?_
  have collecting₁ := collecting.quiet quiet library
  have here₁ := collecting₁.kept.grown.same here (.inr (.inr clean))
  have rest {s₂ : State F} {v : Option (Value F)} (collecting₂ : Collecting env forest s w s₂)
      (held : Held s₂.tables.length v) :
      Action.Wp (do
          let v ← recur v
          let source ← hold q.doc
          let at_ ← Action.get
          return w.add (.idx (k + 1)) v (originChildRecord at_ v source child.place.pos
            (child.place.pos + child.place.node.render.length))) s₂
        (Collecting env forest s) (Recorded env) :=
    wp_recordChild settles records collecting₂ held at_ fun v record new =>
      collecting₂.sliced.add new
  rw [rawElem, Action.wp_bind, Action.wp_bind, Action.wp_get, Action.wp_pure, here₁,
    Option.bind_some]
  split
  · have held : Held s.tables.length (q.elems.lookup (k + 1)) :=
      fun v entry => (ok.elems _ v entry).1
    exact rest collecting₁ (held.mono collecting₁.kept.grown.length_le)
  · rw [Action.wp_bind]
    refine (wp_decodeChild collecting₁.kept.wf at_ (lt_of_proxy? here₁)).mono
      (fun v s₂ decoded => ?_) fun s₂ failed => ?_
    · exact rest ⟨collecting₁.kept.trans decoded.1.kept,
        collecting₁.recorded.congr decoded.1.opens.docs decoded.1.opens.origins,
        collecting₁.sliced⟩ decoded.2.held
    · exact collecting₁.recorded.congr failed.1.opens.docs failed.1.opens.origins

/-- `materialize_object_with_origin` and `materialize_array_with_origin`. -/
theorem wp_recordProxy (settles : Settles env forest true recur)
    (records : Records env forest recur)
    (wf : Wf forest s) (recorded : Recorded env s) (here : s.proxy? view = some q)
    (clean : q.dirty = false) :
    Action.Wp (materializeOriginProxy env recur view q) s
      (fun _ s' => Recorded env s') (Recorded env) := by
  obtain ⟨place, ok⟩ := wf.proxy here
  have start : Collecting env forest s Walk.start s :=
    ⟨.refl wf, recorded, fun key value raw none_ => by cases none_⟩
  have inv : LoopInv forest fun _ (w : Walk F) s' => Collecting env forest s w s' :=
    { library := fun _ _ _ collecting => collecting.kept.wf.library
      quiet := fun _ _ _ _ collecting quiet library => collecting.quiet quiet library }
  -- Behind the walk, the record of the proxy itself is added.
  have behind {w : Walk F} {s' : State F} (collecting : Collecting env forest s w s') :
      Action.Wp (newOriginTable env q w) s' (fun _ s'' => Recorded env s'')
        (Recorded env) := by
    obtain ⟨valid, shallow, slice⟩ := collecting.recorded.slice collecting.kept.wf.library ok.at_
    refine ⟨collecting.recorded.1, fun origin member => ?_⟩
    rcases List.mem_append.1 member with old | new
    · exact collecting.recorded.2 origin old
    · obtain rfl := List.mem_singleton.1 new
      refine ⟨⟨place.node, valid, shallow, ?_⟩, collecting.sliced⟩
      rw [originTableSlice, ok.span.1, ok.span.2]
      exact slice.symm
  rw [materializeOriginProxy]
  cases kind : q.kind with
  | obj =>
      rw [Action.wp_bind]
      exact (wp_forEntries ok.at_ ok.cursor (ok.kind.trans (congrArg some kind)) inv
        (fun k child w s' at_ collecting =>
          wp_recordEntry settles records here ok clean (ok.child at_) collecting) start).mono
        (fun _ _ => behind) fun _ => id
  | arr =>
      rw [Action.wp_bind]
      refine (wp_forElements ok.at_ ok.cursor (ok.kind.trans (congrArg some kind)) inv
        (fun k child w s' at_ collecting => ?_) start).mono (fun _ _ => behind) fun _ => id
      exact wp_recordElement settles records here ok clean (ok.child at_) collecting

theorem records_materializeWithOrigin (room : Nat) :
    Records env forest (materializeWithOrigin env room) := by
  induction room with
  | zero => exact fun s v _ recorded _ => recorded
  | succ room ih =>
      intro s v wf recorded held
      rw [materializeWithOrigin, Action.wp_bind, Action.wp_get]
      split
      · rename_i r
        cases here : s.proxy? r with
        | none => exact recorded
        | some q =>
            simp only
            split
            · exact preserves_materializePlain room _ s recorded
            · rename_i clean
              rw [Action.wp_bind]
              exact (wp_recordProxy (settles_materializeWithOrigin room) ih wf recorded here
                (by simpa using clean)).mono (fun _ _ => id) fun _ => id
      · exact recorded

end Materializing

/-! ## Assignments -/

section Assignments

variable {F : Type} [DecidableEq F] {env : Env F}

omit [DecidableEq F] in
/-- Dirty flags alone are set. -/
theorem aside_markDirty (fuel r : Nat) (s : State F) :
    (s.markDirty fuel r).docs = s.docs ∧ (s.markDirty fuel r).origins = s.origins := by
  induction fuel generalizing r s with
  | zero => exact ⟨rfl, rfl⟩
  | succ fuel ih =>
      rw [State.markDirty]
      split
      · exact ⟨rfl, rfl⟩
      · split
        · exact ⟨rfl, rfl⟩
        · exact ih _ _

section Conditions

variable {good : State F → Prop} [Lasting good]
  (aside : ∀ {s s' : State F}, good s → s'.docs = s.docs → s'.origins = s.origins → good s')
include aside

omit [Lasting good] in
theorem preserves_rawset_of (t : Nat) (k v : Option (Value F)) :
    Action.Preserves good (rawset env t k v) := by
  rw [rawset]
  split
  · exact Action.preserves_raise _
  · exact fun _ kept => aside kept rfl rfl

/-- `t[k] = v`, of a condition on the documents and the provenance records. -/
theorem preserves_newindex_of (t : Nat) (k v : Option (Value F)) :
    Action.Preserves good (newindex env t k v) := by
  have marks (s : State F) (kept : good s) : good (s.markDirty s.tables.length t) :=
    aside kept (aside_markDirty _ _ _).1 (aside_markDirty _ _ _).2
  have array (q : Proxy F) : Action.Preserves good (arrayNewindex env t q k v) := by
    refine Action.Preserves.bind (Action.preserves_modify marks) fun _ => ?_
    refine (preserves_materializeArrayContents t q).bind fun contents => ?_
    exact Action.Preserves.bind (Action.preserves_modify fun _ kept => aside kept rfl rfl)
      fun _ => preserves_rawset_of aside t k v
  have object (q : Proxy F) : Action.Preserves good (objectNewindex env t q k v) := by
    rw [objectNewindex.eq_def]
    split
    · refine (preserves_ensureObjectOrderState t q).bind fun order => ?_
      exact Action.preserves_modify fun s kept => aside (marks s kept) rfl rfl
    · exact Action.preserves_raise _
  refine Action.preserves_get.bind fun s => ?_
  split
  · exact Action.preserves_raise _
  · exact preserves_rawset_of aside t k v
  · split
    · split
      · exact Action.preserves_modify fun _ kept => aside kept rfl rfl
      · exact array _
    · exact array _
    · exact object _

end Conditions

theorem records_newindex (t : Nat) (k v : Option (Value F)) :
    Action.Preserves (Recorded env) (newindex env t k v) :=
  preserves_newindex_of (fun recorded docs origins => recorded.congr docs origins) t k v

theorem records_parse (text : Bytes) :
    Action.Preserves (Recorded env) (parse env text : Act F Nat) := by
  intro s recorded
  cases parsed : parseWithOptionsDetailed (dispatch env.scanner env.strings) text
      Options.default with
  | error fault =>
      simp only [Action.Wp, parse, parsed]
      cases fault <;> exact recorded
  | ok document =>
      simp only [Action.Wp, parse, parsed]
      refine ⟨fun doc member => ?_, recorded.2⟩
      rcases List.mem_append.1 member with old | new
      · exact recorded.1 doc old
      · obtain rfl := List.mem_singleton.1 new
        exact ⟨text, parseWithOptions_ok_iff.2 parsed⟩

/-- In every session, the documents are results of parses and the provenance records hold
slices. -/
theorem Session.recorded {s : State F} {allowed : State F → Op F → Prop}
    (session : Session env allowed s) (proper : ∀ s op, allowed s op → op.Proper s) :
    Recorded env s := by
  induction session with
  | start => exact ⟨nofun, nofun⟩
  | @step s op session may recorded =>
      obtain ⟨forest, wf⟩ := session.wf proper
      have other (read : op.IsRead)
          (plain : ∀ room keepOrigin v, op ≠ .materialize room keepOrigin v) :
          Recorded env (op.run env s).2 := by
        have kept : Action.Preserves (Recorded env) (op.run env) :=
          preserves_run_of (fun text _ => records_parse text)
            (fun room keepOrigin v same => absurd same (plain room keepOrigin v)) read
        exact (kept s recorded).state
      cases op with
      | newindex t k v =>
          have kept : Action.Wp ((Op.newindex t k v).run env) s (fun _ s' => Recorded env s')
              (Recorded env) := by
            rw [Op.run, Action.wp_bind]
            exact records_newindex t k v s recorded
          exact kept.state
      | materialize room keepOrigin v =>
          have held : Held s.tables.length v := proper _ _ may
          have plain : Action.Preserves (Recorded env) (materializePlain env room v) :=
            preserves_materializePlain room v
          have kept : Action.Wp ((Op.materialize room keepOrigin v).run env) s
              (fun _ s' => Recorded env s') (Recorded env) := by
            rw [Op.run, Action.wp_bind, materialize]
            split
            · exact records_materializeWithOrigin room s v wf recorded held
            · exact plain s recorded
          exact kept.state
      | _ => exact other trivial fun _ _ _ clash => by cases clash

end Assignments

end QJson.Table
