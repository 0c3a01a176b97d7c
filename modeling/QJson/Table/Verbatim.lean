import QJson.Ffi.Spans
import QJson.Table.Untouched

/-!
# Unwritten proxies are emitted verbatim

Materializing and encoding touch nothing either.  So in a session without assignments every
proxy is clean, and `qjson.encode` returns the bytes that its cursor spans; they decode to
a proxy that is encoded as the same bytes.
-/

namespace QJson.Table

open Rfc8259 Validate Doc Decode Ffi Lua

/-! ## Materializing -/

section Materializing

variable {F : Type} [DecidableEq F] {env : Env F} {good : State F → Prop} [Keeping good]
  {recur : Option (Value F) → Act F (Option (Value F))}

theorem preserves_ensureObjectOrderState (view : Nat) (q : Proxy F) :
    Action.Preserves good (ensureObjectOrderState env view q) := by
  have entry (acc : Order F) (key : Bytes) (value : Cursor) :
      Action.Preserves good (orderEntry env view q.doc acc key value) := by
    rw [orderEntry]
    split
    · exact (preserves_decodeCursor _ _ _).bind fun _ => Action.preserves_pure _
    · refine (preserves_cachedChild _ _).bind fun cached => ?_
      split
      · exact Action.preserves_pure _
      · exact (preserves_decodeCursor _ _ _).bind fun _ => Action.preserves_pure _
  rw [ensureObjectOrderState]
  split
  · exact Action.preserves_pure _
  · exact (preserves_forEntries q entry _).bind fun order =>
      (preserves_updateProxy fun _ => ⟨by rfl, by rfl⟩).bind fun _ => Action.preserves_pure _

theorem preserves_materializeArrayContents (view : Nat) (q : Proxy F) :
    Action.Preserves good (materializeArrayContents env view q) :=
  preserves_forElements q (fun _ _ _ => (preserves_decodeCursor _ _ _).bind fun _ =>
    Action.preserves_pure _) _

theorem preserves_newPlain (kind : Kind) (out : Map (Key F) (Value F)) :
    Action.Preserves good (newPlain env kind out) :=
  (preserves_newTable (fun _ none => by cases none)).bind fun _ => Action.preserves_pure _

theorem preserves_materializePlainProxy
    (step : ∀ v, Action.Preserves good (recur v)) (view : Nat) (q : Proxy F) :
    Action.Preserves good (materializePlainProxy env recur view q) := by
  rw [materializePlainProxy]
  split
  · split
    · refine (preserves_ensureObjectOrderState view q).bind fun order => ?_
      refine (Action.preserves_foldlM (fun out k => ?_) _ _).bind fun _ => preserves_newPlain _ _
      split
      · exact Action.preserves_raise _
      · exact (step _).bind fun _ => Action.preserves_pure _
    · refine (preserves_forEntries q (fun _ _ _ => (preserves_decodeCursor _ _ _).bind fun _ =>
        Action.preserves_pure _) _).bind fun contents => ?_
      refine (Action.preserves_foldlM (fun out kv => ?_) _ _).bind fun _ => preserves_newPlain _ _
      exact (preserves_cachedChild _ _).bind fun _ => (step _).bind fun _ =>
        Action.preserves_pure _
  · refine (preserves_materializeArrayContents view q).bind fun raw => ?_
    refine (Action.preserves_foldlM (fun out x => ?_) _ _).bind fun _ => preserves_newPlain _ _
    exact (preserves_rawElem _ _).bind fun _ => (step _).bind fun _ => Action.preserves_pure _

theorem preserves_materializePlain (room : Nat) (v : Option (Value F)) :
    Action.Preserves good (materializePlain env room v) := by
  induction room generalizing v with
  | zero => exact Action.preserves_raise _
  | succ room ih =>
      refine Action.preserves_get.bind fun s => ?_
      split
      · split
        · exact (preserves_materializePlainProxy ih _ _).bind fun _ => Action.preserves_pure _
        · exact Action.preserves_pure _
      · exact Action.preserves_pure _

omit [DecidableEq F] in
theorem preserves_cursorTokenSpan (d : Nat) (cur : Cursor) :
    Action.Preserves good (cursorTokenSpan d cur : Act F (Nat × Nat)) := by
  refine (preserves_access _ _ _).bind fun reply => ?_
  have read : Action.Preserves good (do
      let s ← Action.get
      return s.sz : Act F (Nat × Nat)) :=
    Action.preserves_get.bind fun _ => Action.preserves_pure _
  split
  · exact (preserves_setSpan _).bind fun _ => read
  · exact (Action.preserves_pure ()).bind fun _ => read

omit [DecidableEq F] [Keeping good] in
theorem preserves_hold (d : Nat) :
    Action.Preserves good (hold d : Act F Bytes) :=
  Action.preserves_get.bind fun _ => Action.preserves_pure _

omit [Keeping good] in
/-- `materialize_object_with_origin` and `materialize_array_with_origin`. -/
theorem preserves_materializeOriginProxy [Growing good]
    (step : ∀ v, Action.Preserves good (recur v)) (view : Nat) (q : Proxy F) :
    Action.Preserves good (materializeOriginProxy env recur view q) := by
  -- What the two walks do with a child once it is there.
  have record (child : Option (Value F)) (next : Option (Value F) → Bytes → State F → Walk F) :
      Action.Preserves good (do
        let v ← recur child
        let source ← hold q.doc
        let s ← Action.get
        return next v source s) :=
    (step _).bind fun _ => (preserves_hold _).bind fun _ => Action.preserves_get.bind fun _ =>
      Action.preserves_pure _
  have entry (w : Walk F) (key : Bytes) (value : Cursor) :
      Action.Preserves good (originEntry env recur view q w key value) := by
    refine (preserves_cursorTokenSpan _ _).bind fun span => ?_
    dsimp only
    split
    · refine (preserves_cachedChild _ _).bind fun cached => ?_
      split
      · exact (Action.preserves_pure _).bind fun child => record child _
      · exact (preserves_decodeCursor _ _ _).bind fun child => record child _
    · refine (Action.preserves_pure _).bind fun cached => ?_
      split
      · exact (Action.preserves_pure _).bind fun child => record child _
      · exact (preserves_decodeCursor _ _ _).bind fun child => record child _
  have element (w : Walk F) (i : Nat) (value : Cursor) :
      Action.Preserves good (originElement env recur view q w i value) := by
    refine (preserves_cursorTokenSpan _ _).bind fun span => ?_
    refine (preserves_rawElem _ _).bind fun cached => ?_
    dsimp only
    split
    · exact (Action.preserves_pure _).bind fun child => record child _
    · exact (preserves_decodeCursor _ _ _).bind fun child => record child _
  have table (w : Walk F) : Action.Preserves good (newOriginTable env q w) := by
    refine (preserves_hold _).bind fun source => ?_
    refine Action.Preserves.bind (fun s kept =>
      Growing.record kept rfl rfl (List.prefix_append _ _) rfl rfl) fun o => ?_
    exact (preserves_newTable (fun _ none => by cases none)).bind fun _ =>
      Action.preserves_pure _
  rw [materializeOriginProxy]
  split
  · exact (preserves_forEntries q entry _).bind table
  · exact (preserves_forElements q element _).bind table

omit [Keeping good] in
theorem preserves_materialize [Growing good] (room : Nat) (keepOrigin : Bool)
    (v : Option (Value F)) :
    Action.Preserves good (materialize env room keepOrigin v) := by
  have origin (room : Nat) (v : Option (Value F)) :
      Action.Preserves good (materializeWithOrigin env room v) := by
    induction room generalizing v with
    | zero => exact Action.preserves_raise _
    | succ room ih =>
        refine Action.preserves_get.bind fun s => ?_
        split
        · split
          · split
            · exact preserves_materializePlain _ _
            · exact (preserves_materializeOriginProxy ih _ _).bind fun _ =>
                Action.preserves_pure _
          · exact Action.preserves_pure _
        · exact Action.preserves_pure _
  rw [materialize]
  split
  · exact origin room v
  · exact preserves_materializePlain room v

end Materializing

/-! ## Encoding -/

section Encoding

variable {F : Type} [DecidableEq F] {env : Env F} {good : State F → Prop} [Keeping good] {room : Nat}
  {recur : Option (Value F) → Act F Bytes}

omit [DecidableEq F] [Keeping good] in
theorem preserves_guarded {α : Type} {walk : Act F α}
    (kept : Action.Preserves good walk) :
    Action.Preserves good (guarded room walk) := by
  rw [guarded]
  split
  · exact Action.preserves_raise _
  · exact kept

theorem preserves_walkElement (step : ∀ v, Action.Preserves good (recur v)) (t : Nat)
    (q : Proxy F) (parts : List Bytes) (i : Nat) : Action.Preserves good (do
      match ← access q.doc (some (.type .arr)) fun document cache =>
          qjsonCursorIndex document cache q.cur i with
      | some (.cursor child) =>
          let v ← match ← rawElem t (i + 1) with
            | some cached => pure (some cached)
            | none => decodeCursor env (some t) q.doc child
          let text ← recur v
          return parts ++ [text]
      | _ => Action.raise (.runtime "no element")) := by
  refine (preserves_access _ _ _).bind fun reply => ?_
  have texts (v : Option (Value F)) : Action.Preserves good (do
      let text ← recur v
      return parts ++ [text]) := (step v).bind fun _ => Action.preserves_pure _
  split
  · refine (preserves_rawElem _ _).bind fun cached => ?_
    dsimp only
    split
    · exact (Action.preserves_pure _).bind texts
    · exact (preserves_decodeCursor _ _ _).bind texts
  · exact Action.preserves_raise _

theorem preserves_encodeProxy (step : ∀ v, Action.Preserves good (recur v)) (t : Nat)
    (q : Proxy F) : Action.Preserves good (encodeProxy env room recur t q) := by
  rw [encodeProxy]
  split
  · exact (preserves_hold _).bind fun _ => Action.preserves_pure _
  · split
    · refine preserves_guarded ((preserves_ensureObjectOrderState _ _).bind fun order => ?_)
      refine (Action.preserves_foldlM (fun parts k => ?_) _ _).bind fun _ =>
        Action.preserves_pure _
      split
      · exact Action.preserves_pure _
      · exact (step _).bind fun _ => Action.preserves_pure _
    · refine preserves_guarded ((preserves_getter _ _ _ _).bind fun reply => ?_)
      dsimp only
      split
      · exact (Action.preserves_pure _).bind fun n =>
          (Action.preserves_foldlM (preserves_walkElement step t q) _ _).bind fun _ =>
            Action.preserves_pure _
      · exact (Action.preserves_raise _).bind fun n =>
          (Action.preserves_foldlM (preserves_walkElement step t q) _ _).bind fun _ =>
            Action.preserves_pure _

omit [DecidableEq F] [Keeping good] in
theorem preserves_lift {α : Type} (outcome : Except LuaError α) :
    Action.Preserves good (lift outcome : Act F α) := by
  cases outcome with
  | ok v => exact Action.preserves_pure v
  | error error => exact Action.preserves_raise error

omit [Keeping good] in
theorem preserves_encodeArray (step : ∀ v, Action.Preserves good (recur v))
    (p : Plain F) (n : Nat) : Action.Preserves good (encodeArray room recur p n) := by
  refine preserves_guarded ((Action.preserves_foldlM (fun _ _ => (step _).bind fun _ =>
    Action.preserves_pure _) _ _).bind fun parts => ?_)
  split
  · exact Action.preserves_raise _
  · exact Action.preserves_pure _

omit [Keeping good] in
theorem preserves_encodeMembers (step : ∀ v, Action.Preserves good (recur v))
    (entries : List (Key F × Value F)) (parts : List Bytes) :
    Action.Preserves good (encodeMembers env recur entries parts) :=
  Action.preserves_foldlM (fun _ _ => (preserves_lift _).bind fun _ => (step _).bind fun _ =>
    Action.preserves_pure _) _ _

omit [Keeping good] in
theorem preserves_encodeObject (step : ∀ v, Action.Preserves good (recur v))
    (p : Plain F) : Action.Preserves good (encodeObject env room recur p) :=
  preserves_guarded ((preserves_encodeMembers step _ _).bind fun _ => Action.preserves_pure _)

omit [Keeping good] in
/-- `encode_plain_table` on a table whose class is not given by a field of it. -/
theorem preserves_classified (step : ∀ v, Action.Preserves good (recur v)) (p : Plain F)
    (settings : Settings) : Action.Preserves good (do
      match ← lift (classifyPlainTable env settings p) with
      | some max => encodeArray room recur p max
      | none => encodeObject env room recur p) := by
  refine (preserves_lift _).bind fun class_ => ?_
  split
  · exact preserves_encodeArray step p _
  · exact preserves_encodeObject step p

omit [Keeping good] in
theorem preserves_encodePlainTable (step : ∀ v, Action.Preserves good (recur v))
    (active : List Nat) (p : Plain F) :
    Action.Preserves good (encodePlainTable env room active recur p) := by
  refine Action.preserves_get.bind fun s => ?_
  split
  · rename_i origin _
    have matching {other : Act F Bytes} (kept : Action.Preserves good other) :
        Action.Preserves good (guarded room do
          if ← fullyMatches env room active p origin then return originTableSlice origin
          else other) := by
      refine preserves_guarded ((still_fullyMatches room active p origin).preserves.bind
        fun same => ?_)
      split
      · exact Action.preserves_pure _
      · exact kept
    split
    · refine matching ((Action.preserves_foldlM (fun parts key => ?_) _ _).bind fun parts =>
        (preserves_encodeMembers step _ _).bind fun _ => Action.preserves_pure _)
      split
      · exact Action.preserves_pure _
      · refine Action.Preserves.bind ?_ fun _ => Action.preserves_pure _
        rw [encodeOriginChild.eq_def]
        split
        · split
          · exact Action.preserves_pure _
          · exact step _
        · exact step _
    · exact matching (Action.preserves_get.bind fun s => preserves_classified step p _)
  · split
    · exact preserves_encodeArray step p _
    · split
      · exact preserves_encodeObject step p
      · exact preserves_encodeArray step p _
      · exact preserves_classified step p _

theorem preserves_encodeAt (room : Nat) (active : List Nat) (v : Option (Value F)) :
    Action.Preserves good (encodeAt env room active v) := by
  have value {room : Nat} {children : List Nat → Option (Value F) → Act F Bytes}
      (step : ∀ active v, Action.Preserves good (children active v))
      (active : List Nat) (v : Option (Value F)) :
      Action.Preserves good (encodeValue env room children active v) := by
    rw [encodeValue.eq_def]
    split
    · exact Action.preserves_pure _
    · exact Action.preserves_pure _
    · exact Action.preserves_pure _
    · refine Action.preserves_get.bind fun s => ?_
      split
      · exact Action.preserves_raise _
      · split <;> exact Action.preserves_pure _
    · exact Action.preserves_pure _
    · exact Action.preserves_pure _
    · split
      · exact Action.preserves_raise _
      · refine Action.preserves_get.bind fun s => ?_
        split
        · exact preserves_encodeProxy (step _) _ _
        · exact preserves_encodePlainTable (step _) _ _
        · exact Action.preserves_raise _
    · exact Action.preserves_raise _
  induction room generalizing active v with
  | zero => exact value (fun _ _ => Action.preserves_raise _) active v
  | succ room ih => exact value ih active v

theorem preserves_encode (v : Option (Value F)) :
    Action.Preserves good (encode env v) := by
  refine (preserves_encodeAt _ _ _).bind fun text => ?_
  split
  · exact Action.preserves_raise _
  · exact Action.preserves_pure _

end Encoding

/-! ## Sessions without assignments -/

section Sessions

variable {F : Type} [DecidableEq F] {env : Env F} {good : State F → Prop} [Lasting good]
  {s : State F}

/-- `qjson.parse` adds the result of a parse. -/
theorem preserves_parse {text : Bytes} (short : text.length ≤ luaMaxString) :
    Action.Preserves (Untouched env) (parse env text : Act F Nat) := by
  intro s untouched
  cases parsed : parseWithOptionsDetailed (dispatch env.scanner env.strings) text
      Options.default with
  | error fault =>
      simp only [Action.Wp, parse, parsed]
      cases fault <;> exact untouched
  | ok document =>
      simp only [Action.Wp, parse, parsed]
      refine ⟨fun doc member => ?_, untouched.clean⟩
      rcases List.mem_append.1 member with old | new
      · exact untouched.parsed doc old
      · obtain rfl := List.mem_singleton.1 new
        exact ⟨text, short, parseWithOptions_ok_iff.2 parsed⟩

theorem preserves_decode {text : Bytes} (parses : Action.Preserves good (parse env text)) :
    Action.Preserves good (decode env text) := by
  refine parses.bind fun d => (preserves_access _ _ _).bind fun opened => ?_
  split
  · refine (preserves_getter _ _ _ _).bind fun typed => ?_
    split
    · refine (preserves_access _ _ _).bind fun spanned => ?_
      split
      · refine Action.Preserves.bind
          (preserves_aside (fun _ => rfl) (fun _ => rfl) fun _ => rfl) fun _ => ?_
        dsimp only
        have container (table : LuaTable F) (clean : IsClean table) :
            Action.Preserves good (do
              let r ← newTable table
              return some (.table r) : Act F (Option (Value F))) :=
          (preserves_newTable clean).bind fun _ => Action.preserves_pure _
        split
        · exact container _ fun q same => by cases same; rfl
        · exact container _ fun q same => by cases same; rfl
        · exact preserves_decodeCursor _ _ _
      · exact Action.preserves_raise _
    · exact Action.preserves_raise _
  · exact Action.preserves_raise _

/-- A step that assigns nothing, when its materialization keeps the condition. -/
theorem preserves_run_of {op : Op F}
    (parses : ∀ text, op = .decode text → Action.Preserves good (parse env text))
    (materializes : ∀ room keepOrigin v, op = .materialize room keepOrigin v →
      Action.Preserves good (materialize env room keepOrigin v))
    (read : op.IsRead) :
    Action.Preserves good (op.run env) := by
  have reply {α : Type} {action : Act F α} {shown : α → Reply F}
      (kept : Action.Preserves good action) :
      Action.Preserves good (do
        let v ← action
        return shown v) := kept.bind fun _ => Action.preserves_pure _
  cases op with
  | decode text => exact reply (preserves_decode (parses text rfl))
  | newTable emptyArray => exact reply (preserves_newTable fun _ none => by cases none)
  | index t k => exact reply (preserves_index t k)
  | newindex t k v => exact read.elim
  | pairs t =>
      refine Action.preserves_get.bind fun s => ?_
      split
      · exact Action.preserves_pure _
      · split
        · exact reply (preserves_objectPairs _ _)
        · exact reply (preserves_newLoop _)
  | ipairs t =>
      refine Action.preserves_get.bind fun s => ?_
      split
      · exact Action.preserves_pure _
      · split
        · exact Action.preserves_pure _
        · exact reply (preserves_newLoop _)
  | next loop => exact preserves_nextRound loop
  | len t =>
      refine Action.preserves_get.bind fun s => ?_
      split
      · exact Action.preserves_raise _
      · exact Action.preserves_pure _
      · exact reply (preserves_lazyLen _)
  | materialize room keepOrigin v => exact reply (materializes room keepOrigin v rfl)
  | encode v => exact reply (preserves_encode v)
  | encodeNumberPrecision precision =>
      refine reply ?_
      rw [Table.encodeNumberPrecision]
      split
      · exact Action.preserves_raise _
      · refine Action.preserves_get.bind fun _ =>
          Action.Preserves.bind ?_ fun _ => Action.preserves_pure _
        exact preserves_aside (fun _ => rfl) (fun _ => rfl) fun _ => rfl
  | encodeSparseArray convert ratio safe =>
      refine Action.Preserves.bind ?_ fun _ => Action.preserves_pure _
      exact preserves_aside (fun _ => rfl) (fun _ => rfl) fun _ => rfl

omit [Lasting good] in
/-- A step that assigns nothing. -/
theorem preserves_run [Stable good] {op : Op F}
    (parses : ∀ text, op = .decode text → Action.Preserves good (parse env text))
    (read : op.IsRead) :
    Action.Preserves good (op.run env) :=
  preserves_run_of parses (fun room keepOrigin v _ => preserves_materialize room keepOrigin v) read

/-- In a session without assignments nothing is touched. -/
theorem Session.untouched {allowed : State F → Op F → Prop} (session : Session env allowed s)
    (reads : ∀ s op, allowed s op → op.Proper s ∧ op.IsRead) : Untouched env s := by
  induction session with
  | start => exact ⟨nofun, nofun⟩
  | step _ may ih =>
      obtain ⟨proper, read⟩ := reads _ _ may
      refine (preserves_run (fun text same => ?_) read _ ih).state
      subst same
      exact preserves_parse proper

end Sessions

/-! ## The bytes of a clean proxy -/

section Clean

variable {F : Type} [DecidableEq F] {env : Env F} {s : State F} {r : Nat} {q : Proxy F}

theorem encodeAt_clean {room : Nat} {active : List Nat} (new : r ∉ active)
    (here : s.proxy? r = some q) (clean : q.dirty = false) {doc : Document}
    (docAt : s.docs[q.doc]? = some doc) :
    encodeAt env room active (some (.table r)) s = (.ok (sub doc.buf q.bs q.be), s) := by
  have sliced {recur : Option (Value F) → Act F Bytes} (room : Nat) :
      encodeProxy env room recur r q s = (.ok (sub doc.buf q.bs q.be), s) := by
    rw [encodeProxy, if_pos (by simp [clean])]
    change (Except.ok (sub (((s.docs[q.doc]?).map Document.buf).getD []) q.bs q.be), s) = _
    rw [docAt]
    rfl
  have value {room : Nat} {children : List Nat → Option (Value F) → Act F Bytes} :
      encodeValue env room children active (some (.table r)) s =
        (.ok (sub doc.buf q.bs q.be), s) := by
    rw [encodeValue, if_neg new, Action.get_bind, proxy?_eq_some.1 here]
    exact sliced room
  cases room with
  | zero => exact value
  | succ room => exact value

theorem encode_clean (here : s.proxy? r = some q) (clean : q.dirty = false) {doc : Document}
    (docAt : s.docs[q.doc]? = some doc)
    (short : (sub doc.buf q.bs q.be).length ≤ luaMaxString) :
    encode env (some (.table r)) s = (.ok (sub doc.buf q.bs q.be), s) := by
  have whole : encodeAt env encodeMaxDepth [] (some (.table r)) s =
      (.ok (sub doc.buf q.bs q.be), s) := encodeAt_clean List.not_mem_nil here clean docAt
  have returned : Action.Wp (encode env (some (.table r))) s
      (fun text s' => text = sub doc.buf q.bs q.be ∧ s' = s) fun _ => False := by
    rw [encode, Action.wp_bind]
    unfold Action.Wp
    rw [whole]
    simp only [if_neg (Nat.not_lt.2 short)]
    exact ⟨rfl, rfl⟩
  obtain ⟨text, s', ran, rfl, rfl⟩ := returned.exists_ok
  exact ran

/-- A document of a session without assignments, and its parse tree. -/
theorem Untouched.parses (untouched : Untouched env s) {doc : Document} (member : doc ∈ s.docs)
    {tree : Tree} {start : Nat} (rep : Stands doc tree start) :
    tree.Parses doc.buf ∧ tree.depth ≤ Options.default.effectiveMaxDepth ∧
      doc.buf.length ≤ luaMaxString := by
  have eager : Options.default.isEager = true := by decide
  obtain ⟨text, short, parsed⟩ := untouched.parsed doc member
  obtain ⟨-, -, same⟩ := ok_of_parse eager parsed
  have buf : doc.buf = text := by rw [same]
  have small : text.length < u32Max := buf ▸ rep.small
  obtain ⟨tree', parses⟩ := exists_parses env.scanner env.strings small eager parsed
  obtain ⟨start', rep'⟩ := stands_of_parse env.scanner env.strings small parsed parses
  obtain ⟨rfl, -⟩ := Stands.unique rep rep'
  exact ⟨buf ▸ parses, depth_le_of_parse small eager parsed parses, buf ▸ short⟩

/-- `qjson.encode` returns the token, which decodes to a proxy that is encoded as the same
bytes. -/
def ReEmits (env : Env F) (s : State F) (r : Nat) (token : Bytes) : Prop :=
  ∃ s₁ s₂ s₃ r', encode env (some (.table r)) s = (.ok token, s₁) ∧
    decode env token s₁ = (.ok (some (.table r')), s₂) ∧
    encode env (some (.table r')) s₂ = (.ok token, s₃)

theorem reEmits_of_clean {forest : Forest} (wf : Wf forest s) (untouched : Untouched env s)
    (here : s.proxy? r = some q) {place : Place}
    (ok : ProxyOk forest s.tables.length r q place) {doc : Document}
    (docAt : s.docs[q.doc]? = some doc) {tree : Tree} {start : Nat} {path : List Nat}
    (rep : Stands doc tree start)
    (found : (rootPlace tree start).locate path = some place) :
    ReEmits env s r place.node.render := by
  obtain ⟨-, shallow, short⟩ := untouched.parses (List.mem_of_getElem? docAt) rep
  have token : sub doc.buf q.bs q.be = place.node.render := by
    rw [sub, ok.span.1, ok.span.2, Nat.add_sub_cancel_left]
    exact token_of_locate rep found
  have fits : place.node.render.length ≤ luaMaxString := by
    rw [← token, sub]
    calc ((doc.buf.drop q.bs).take (q.be - q.bs)).length ≤ (doc.buf.drop q.bs).length :=
          List.length_take_le' _ _
      _ ≤ doc.buf.length := by
          rw [List.length_drop]
          exact Nat.sub_le _ _
      _ ≤ luaMaxString := short
  have first : encode env (some (.table r)) s = (.ok (sub doc.buf q.bs q.be), s) :=
    encode_clean here (untouched.clean r q here) docAt (token ▸ fits)
  rw [token] at first
  -- The token is decoded to a new proxy.
  have parsed : parseWithOptions (dispatch env.scanner env.strings) place.node.render
      Options.default = .ok _ := parse_token rep (by decide) shallow found
  have valid := (rep.locate found).1.valid
  obtain ⟨begins, own⟩ := stands_of_parse env.scanner env.strings
    (Nat.lt_of_le_of_lt fits (by decide)) parsed ((parses_render_iff valid _).2 rfl)
  have readable : ¬ Unreadable env (rootPlace place.node begins).node := by
    rintro ⟨token, spelled, -⟩
    have container := ok.kind
    rw [show place.node = .scalar token from spelled] at container
    cases container
  have decodes := (show Action.Wp (decode env place.node.render) s _ _ from
    wp_decode wf.library (parseWithOptions_ok_iff.1 parsed) own).mono (fun _ _ => id)
      fun _ refused => readable refused.unreadable
  obtain ⟨v, s₂, second, decoded⟩ := decodes.exists_ok
  have returns := decoded.returns
  rw [show (rootPlace place.node begins).node.kind? = some q.kind from ok.kind] at returns
  obtain ⟨rfl, adds⟩ := returns
  have here₂ : s₂.proxy? s.tables.length =
      some (fresh q.kind none s.docs.length (rootPlace place.node begins)) := by
    rw [proxy?_eq_some, getElem?_added adds.tables, if_pos rfl]
  have docAt₂ : s₂.docs[s.docs.length]? =
      some ⟨place.node.render, place.node.marks 0 ++ [u32Max], true⟩ := by
    rw [adds.docs]
    exact List.getElem?_concat_length
  -- It spans the whole of its text.
  have whole : sub place.node.render begins (begins + place.node.render.length) =
      place.node.render := by
    rw [sub, Nat.add_sub_cancel_left]
    exact token_of_locate own (Place.locate_nil _)
  have third := @encode_clean F _ env _ _ _ here₂ rfl _ docAt₂ (by
    rw [show sub _ (fresh q.kind none s.docs.length (rootPlace place.node begins)).bs
      (fresh q.kind none s.docs.length (rootPlace place.node begins)).be = _ from whole]
    exact fits)
  rw [show sub _ (fresh q.kind none s.docs.length (rootPlace place.node begins)).bs
    (fresh q.kind none s.docs.length (rootPlace place.node begins)).be = _ from whole] at third
  exact ⟨s, s₂, s₂, s.tables.length, first, second, third⟩

end Clean

/-- The bytes of every cursor that programs hold are the token of its node, which is
accepted on its own and stands for that node alone; and in a session without assignments
every proxy is encoded as that token, again and again. -/
theorem spans_faithful {F : Type} [DecidableEq F] (env : Env F) :
    (∀ (buf : Bytes) (opts : Options) (doc : Document), buf.length < 2 ^ 32 - 1 →
      opts.isEager = true →
      parseWithOptions (dispatch env.scanner env.strings) buf opts = .ok doc →
      ∃ (tree : Tree) (start : Nat), tree.Parses buf ∧
        ∀ m, Reached env.host doc m → ∀ cur ∈ Cursor.root doc :: m.cursors,
          ∃ path place, (rootPlace tree start).locate path = some place ∧
            Faithful (dispatch env.scanner env.strings) opts doc cur place) ∧
    ∀ s : State F, Session env (fun s op => op.Proper s ∧ op.IsRead) s →
      ∀ r q, s.proxy? r = some q → ∃ doc tree start path place,
        s.docs[q.doc]? = some doc ∧ tree.Parses doc.buf ∧
        (rootPlace tree start).locate path = some place ∧
        Faithful (dispatch env.scanner env.strings) Options.default doc q.cur place ∧
        ReEmits env s r place.node.render := by
  refine ⟨fun buf opts doc small eager parsed =>
    faithful_of_reached env.scanner env.strings env.std small eager parsed,
    fun s session r q here => ?_⟩
  obtain ⟨forest, wf⟩ := session.wf fun _ _ may => may.1
  have untouched := session.untouched fun _ _ may => may
  obtain ⟨place, ok⟩ := wf.proxy here
  obtain ⟨doc, cells, tree, start, path, docAt, -, -, found, rep, -⟩ := wf.library.doc ok.at_
  obtain ⟨parses, shallow, -⟩ := untouched.parses (List.mem_of_getElem? docAt) rep
  have faithful : Faithful (dispatch env.scanner env.strings) Options.default doc place.cursor
      place := faithful_of_locate rep (by decide) shallow found
  rw [← ok.cursor] at faithful
  exact ⟨doc, tree, start, path, place, docAt, parses, found, faithful,
    reEmits_of_clean wf untouched here ok docAt rep found⟩

end QJson.Table
