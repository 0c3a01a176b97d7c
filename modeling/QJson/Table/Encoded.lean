import QJson.Table.Marked
import QJson.Table.Spelled

/-!
# Encoding in whole sessions

In every state that a program leads to, `qjson.encode` writes the tree by which the value is
spelled.  The text is parsed again when its strings are valid UTF-8 and the brackets fit.
-/

namespace QJson.Table

open Relation Rfc8259 Validate Doc Decode Ffi Lua

section Sessions

variable {F : Type} [DecidableEq F] {env : Env F} {forest : Forest} {s s' : State F}
  {v : Option (Value F)} {text : Bytes}

/-- What `qjson.encode` returned, on the heap in front of it. -/
theorem spelled_of_encode {base : State F} (wf : Wf forest base) (recorded : Recorded env base)
    (steady : Steady env forest base s) (held : Held base.tables.length v)
    (returned : encode env v s = (.ok text, s')) :
    ∃ tree, SpelledIn env forest base encodeMaxDepth (.value v) tree ∧ tree.render = text :=
  ((prints_encode wf recorded steady held).returned returned).2

/-- The text of a valid tree is accepted exactly when its brackets fit. -/
theorem accepts_render_iff (scanner : ScanPath) (strings : StringPath) {tree : Tree}
    (valid : tree.Valid) (small : tree.render.length < u32Max) {opts : Options}
    (eager : opts.isEager = true) :
    (∃ doc, parseWithOptions (dispatch scanner strings) tree.render opts = .ok doc) ↔
      tree.depth ≤ opts.effectiveMaxDepth := by
  have own : tree.Parses tree.render := (parses_render_iff valid tree).2 rfl
  constructor
  · rintro ⟨doc, parsed⟩
    exact depth_le_of_parse small eager parsed own
  · intro shallow
    exact ⟨_, (parse_ok_iff scanner strings small eager).2 ⟨tree, [], [], valid, isBlank_nil,
      isBlank_nil, by simp, shallow, rfl⟩⟩

/-- `qjson.encode` returns no string that Lua cannot hold. -/
theorem length_of_encode (returned : encode env v s = (.ok text, s')) :
    text.length ≤ luaMaxString := by
  rw [encode, Action.bind_apply] at returned
  rcases ran : encodeAt env encodeMaxDepth [] v s with ⟨result, between⟩
  rw [ran] at returned
  cases result with
  | error error => cases returned
  | ok whole =>
      simp only at returned
      split at returned
      · cases returned
      · rename_i fits
        cases returned
        exact Nat.le_of_not_lt fits

end Sessions

section Extras

variable {F : Type} [DecidableEq F] (env : Env F) {s : State F}

/-- In every session, the text of `qjson.encode` is that of the one tree by which the value is
spelled on the heap in front of the call. -/
theorem encode_spells (session : Session env (fun s op => op.Proper s) s) :
    ∃ forest, Wf forest s ∧ ∀ v, Held s.tables.length v →
      ∀ text s', encode env v s = (.ok text, s') →
        ∃ tree, (∀ other, Spells env forest s (.value v) other ↔ other = tree) ∧
          tree.render = text := by
  obtain ⟨forest, wf⟩ := session.wf fun _ _ proper => proper
  have recorded := session.recorded fun _ _ proper => proper
  refine ⟨forest, wf, fun v held text s' returned => ?_⟩
  obtain ⟨tree, spelled, render⟩ := spelled_of_encode wf recorded (.refl wf) held returned
  refine ⟨tree, fun other => ⟨fun spells => spells.unique spelled.spells, ?_⟩, render⟩
  rintro rfl
  exact spelled.spells

/-- Where all strings and keys are valid UTF-8, the text of `qjson.encode` is parsed exactly
when its brackets fit.  They are never deeper than 2024, and at most 1000 deeper than what was
copied. -/
theorem encode_parses (session : Session env (fun s op => op.Proper s) s) :
    ∃ forest, Wf forest s ∧ ∀ v, Held s.tables.length v → AllUtf8 env forest s (.value v) →
      ∀ text s', encode env v s = (.ok text, s') →
        ∃ tree, Spells env forest s (.value v) tree ∧ tree.depth ≤ 2024 ∧
          (∀ d, CopiesWithin env forest s d (.value v) → tree.depth ≤ 1000 + d) ∧
          ∀ opts : Options, opts.isEager = true →
            ((∃ doc, parseWithOptions (dispatch env.scanner env.strings) text opts = .ok doc) ↔
              tree.depth ≤ opts.effectiveMaxDepth) := by
  obtain ⟨forest, wf⟩ := session.wf fun _ _ proper => proper
  have recorded := session.recorded fun _ _ proper => proper
  refine ⟨forest, wf, fun v held utf8 text s' returned => ?_⟩
  have small : text.length < u32Max :=
    Nat.lt_of_le_of_lt (length_of_encode returned) (by decide)
  obtain ⟨tree, spelled, rfl⟩ := spelled_of_encode wf recorded (.refl wf) held returned
  refine ⟨tree, spelled.spells, ?_, spelled.depth, fun opts eager =>
    accepts_render_iff env.scanner env.strings (spelled.spells.valid utf8) small eager⟩
  exact spelled.depth _ (copiesWithin_of_recorded wf recorded v)

/-- What every state of every session keeps: a proxy stands for a container of its document and
knows its cursor and its span, references lead to tables that are there, a loop over the entries
of an object stands at one of them or at the end, other loops are over an object with an order
or over what is or was an array, documents are results of parses, what a provenance record would
have copied is the text of one value, and the parents of dirty proxies are dirty. -/
theorem session_keeps {s : State F} (session : Session env (fun s op => op.Proper s) s) :
    (∃ forest, Wf forest s) ∧ Recorded env s ∧ MarkedUp s :=
  ⟨session.wf fun _ _ proper => proper, session.recorded fun _ _ proper => proper,
    session.markedUp fun _ _ proper => proper⟩

end Extras

/-! ## A loop, records and a dirty child -/

/-- `materialize(t, {keep_origin = true})`, a round of `pairs(t)`, and `a.c = 5`. -/
def busyState : State Nat :=
  ((Op.newindex 1 (some (.str [0x63])) (some (.num 5))).run natEnv
    ((Op.next 0).run natEnv ((Op.pairs 0).run natEnv
      ((Op.materialize 8 true (some (.table 0))).run natEnv openedState).2).2).2).2

theorem busyState_facts : busyState.loops.length = 1 ∧ busyState.origins.length = 3 ∧
    (busyState.proxy? 1).map (fun q => (q.parent, q.dirty)) = some (some 0, true) := by
  decide +kernel

theorem session_keeps_busy :
    (busyState.loops.length = 1 ∧ busyState.origins.length = 3 ∧
      (busyState.proxy? 1).map (fun q => (q.parent, q.dirty)) = some (some 0, true)) ∧
    (∃ forest, Wf forest busyState) ∧ Recorded natEnv busyState ∧ MarkedUp busyState := by
  have read : Session natEnv (fun s op => op.Proper s) openedState :=
    .step (.step (.step .start (by decide : List.length _ ≤ luaMaxString)) trivial) trivial
  refine ⟨busyState_facts, session_keeps natEnv
    (.step (.step (.step (.step read ?_) trivial) trivial) ?_)⟩
  · exact held_some (sharedState_facts.1 ▸ (by decide) : 0 < openedState.tables.length)
  · refine ⟨held_some trivial, held_some trivial, ?_⟩
    rintro - ⟨name, member, same⟩
    obtain rfl := Value.str.inj (Option.some.inj same)
    exact absurd member (by decide +kernel)

/-! ## An object with one member -/

/-- `t = decode("{}")`, then `t.a = "x"`. -/
def namedState : State Nat :=
  ((Op.newindex 0 (some (.str [0x61])) (some (.str [0x78]))).run natEnv emptyState).2

/-- `{"a":"x"}` -/
def namedText : Bytes := [0x7B, 0x22, 0x61, 0x22, 0x3A, 0x22, 0x78, 0x22, 0x7D]

theorem namedState_facts : 0 < namedState.tables.length ∧
    (namedState.proxy? 0).map (fun q => (q.kind, q.dirty, q.order.map Order.keys)) =
      some (.obj, true, some [[0x61]]) ∧
    (((namedState.proxy? 0).bind Proxy.order).bind fun order => order.values.lookup [0x61]) =
      some (.str [0x78]) ∧
    (encode natEnv (some (.table 0)) namedState).1 = .ok namedText := by
  decide +kernel

theorem namedState_session : Session natEnv (fun s op => op.Proper s) namedState := by
  obtain ⟨length, -, -, -, other⟩ := selfState_facts
  refine .step emptyState_session ⟨held_some trivial, held_some trivial, ?_⟩
  rintro - ⟨name, member, same⟩
  obtain rfl := Value.str.inj (Option.some.inj same)
  exact other member

theorem namedState_held : Held namedState.tables.length (some (.table 0) : Option (Value Nat)) :=
  held_some namedState_facts.1

theorem namedState_encode : encode natEnv (some (.table 0)) namedState =
    (.ok namedText, (encode natEnv (some (.table 0)) namedState).2) :=
  Prod.ext namedState_facts.2.2.2 rfl

theorem namedState_parts {forest : Forest} {kind : Kind}
    {parts : List (Option Bytes × Part Nat)} (laid : Laid natEnv forest namedState 0 kind parts) :
    parts = [(some [0x61], .value (some (.str [0x78])))] := by
  obtain ⟨-, table, entry, -⟩ := namedState_facts
  obtain ⟨q, here, same⟩ := Option.map_eq_some_iff.1 table
  obtain ⟨object, rest⟩ := Prod.mk.inj same
  obtain ⟨dirty, keys⟩ := Prod.mk.inj rest
  obtain ⟨order, isOrder, keys⟩ := Option.map_eq_some_iff.1 keys
  rw [here, Option.bind_some, isOrder, Option.bind_some] at entry
  obtain ⟨-, rfl⟩ := laid.unique (.ordered here dirty object isOrder)
  rw [keys, List.filterMap_cons_some (by rw [entry]; rfl), List.filterMap_nil]

theorem namedState_reaches {forest : Forest} {inner : Part Nat}
    (path : ReflTransGen (PartOf natEnv forest namedState) (.value (some (.table 0))) inner) :
    inner = .value (some (.table 0)) ∨ inner = .value (some (.str [0x78])) := by
  induction path with
  | refl => exact .inl rfl
  | tail _ last ih =>
      obtain ⟨r, kind, parts, key, same, laid, member⟩ := last
      rcases ih with rfl | rfl
      · obtain rfl := Value.table.inj (Option.some.inj (Part.value.inj same))
        rw [namedState_parts laid, List.mem_singleton] at member
        exact .inr (Prod.mk.inj member).2
      · cases Option.some.inj (Part.value.inj same)

/-- The object is spelled by a tree with the text that is written. -/
theorem encode_spells_named : ∃ forest tree,
    Spells natEnv forest namedState (.value (some (.table 0))) tree ∧
      tree.render = namedText := by
  obtain ⟨forest, -, spells⟩ := encode_spells natEnv namedState_session
  obtain ⟨tree, spelled, render⟩ := spells _ namedState_held _ _ namedState_encode
  exact ⟨forest, tree, (spelled tree).2 rfl, render⟩

/-- The key and the string are valid UTF-8. -/
theorem namedState_utf8 (forest : Forest) :
    AllUtf8 natEnv forest namedState (.value (some (.table 0))) := by
  have utf8 (b : UInt8) (ascii : b < 0x80) : IsUtf8 [b] := isUtf8_ascii ascii
  intro inner path
  rcases namedState_reaches path with rfl | rfl
  · refine ⟨fun x clash => ?_, fun r kind parts key child same laid member => ?_⟩
    · cases Option.some.inj (Part.value.inj clash)
    · obtain rfl := Value.table.inj (Option.some.inj (Part.value.inj same))
      rw [namedState_parts laid, List.mem_singleton] at member
      obtain rfl := Option.some.inj (Prod.mk.inj member).1
      exact utf8 _ (by decide)
  · refine ⟨fun x same => ?_, fun r kind parts key child clash _ _ => ?_⟩
    · obtain rfl := Value.str.inj (Option.some.inj (Part.value.inj same))
      exact utf8 _ (by decide)
    · cases Option.some.inj (Part.value.inj clash)

/-- The text is parsed with default options. -/
theorem encode_parses_named :
    ∃ doc, parseWithOptions (dispatch .scalar .scalar) namedText Options.default = .ok doc := by
  obtain ⟨forest, -, parses⟩ := encode_parses natEnv namedState_session
  obtain ⟨tree, -, -, shallow, accepted⟩ :=
    parses _ namedState_held (namedState_utf8 forest) _ _ namedState_encode
  refine (accepted Options.default (by decide)).2
    ((shallow 0 fun inner copy path copies => ?_).trans (by decide))
  rcases namedState_reaches path with rfl | rfl
  · cases copies with
    | table copied =>
        obtain ⟨-, table, -⟩ := namedState_facts
        obtain ⟨q, here, same⟩ := Option.map_eq_some_iff.1 table
        have dirty := (Prod.mk.inj (Prod.mk.inj same).2).1
        cases copied with
        | clean here' clean =>
            obtain rfl := Option.some.inj (here.symm.trans here')
            rw [clean] at dirty
            cases dirty
        | matched matches_ =>
            obtain ⟨p, plain, -⟩ := matches_.plain
            exact (proxy_ne_plain here plain).elim
  · cases copies

end QJson.Table
