import QJson.Table.Respelled

/-!
# Provenance in whole sessions

Whatever a program does behind `qjson.materialize(qjson.decode(text), {keep_origin = true})`:
a table that the encoder would copy, because it matches its record, holds what the copied text
says.
-/

namespace QJson.Table

open Relation Rfc8259 Validate Doc Decode Ffi Lua

section Records

variable {F : Type} [DecidableEq F] {env : Env F} {first : List (Origin F)}

/-- The provenance records go on from these. -/
def KeepsRecords (first : List (Origin F)) (s : State F) : Prop := first <+: s.origins

omit [DecidableEq F] in
theorem KeepsRecords.congr {s s' : State F} (kept : KeepsRecords first s)
    (origins : s'.origins = s.origins) : KeepsRecords first s' := by
  rw [KeepsRecords, origins]
  exact kept

instance : Lasting (KeepsRecords first) where
  aside kept _ _ origins := kept.congr origins
  newTable kept _ _ _ origins := kept.congr origins
  updateProxy kept _ := kept

instance : Growing (KeepsRecords first) where
  toKeeping := inferInstance
  record kept _ _ grown _ _ := kept.trans grown

theorem keepsRecords_parse (text : Bytes) :
    Action.Preserves (KeepsRecords first) (parse env text : Act F Nat) := by
  intro s kept
  cases parsed : parseWithOptionsDetailed (dispatch env.scanner env.strings) text
      Options.default with
  | error fault =>
      simp only [Action.Wp, parse, parsed]
      cases fault <;> exact kept
  | ok document =>
      simp only [Action.Wp, parse, parsed]
      exact kept

/-- No step takes a record away or changes it. -/
theorem keepsRecords_run (op : Op F) : Action.Preserves (KeepsRecords first) (op.run env) := by
  have other (read : op.IsRead) : Action.Preserves (KeepsRecords first) (op.run env) :=
    preserves_run_of (fun text _ => keepsRecords_parse text)
      (fun room keepOrigin v _ => preserves_materialize room keepOrigin v) read
  cases op with
  | newindex t k v =>
      refine Action.Preserves.bind (preserves_newindex_of ?_ t k v) fun _ =>
        Action.preserves_pure _
      exact fun kept _ origins => kept.congr origins
  | _ => exact other trivial

end Records

section Sessions

variable {F : Type} [DecidableEq F] (env : Env F) {s : State F} {room : Nat}
  {v w : Option (Value F)}

/-- A step of a program. -/
def Advances (s s' : State F) : Prop := ∃ op : Op F, s' = (op.run env s).2

variable {env}

theorem prefix_of_advances {s' : State F} (run : ReflTransGen (Advances env) s s') :
    s.origins <+: s'.origins := by
  induction run with
  | refl => exact List.prefix_refl _
  | @tail s₁ s₂ _ step ih =>
      obtain ⟨op, rfl⟩ := step
      have kept : KeepsRecords s.origins s₁ := ih
      exact (keepsRecords_run op s₁ kept).state

/-- A string that is written as it was recorded. -/
theorem Laid.raw {forest : Forest} {r : Nat} {kind : Kind} {p : Plain F}
    {parts : List (Option Bytes × Part F)} {key : Option Bytes} {raw : Bytes}
    (laid : Laid env forest s r kind parts) (plain : s.plain? r = some p)
    (member : (key, .raw raw) ∈ parts) :
    ∃ k value, key = some k ∧ p.entries.lookup (.str k) = some (.str value) ∧
      (sourceOf s p).2.lookup (.str k) = some (.string value raw) := by
  cases laid with
  | ordered here => exact (proxy_ne_plain here plain).elim
  | members here => exact (proxy_ne_plain here plain).elim
  | elements here => exact (proxy_ne_plain here plain).elim
  | array =>
      obtain ⟨i, -, same⟩ := List.mem_filterMap.1 member
      cases same
  | object plain' =>
      obtain rfl := Option.some.inj (plain.symm.trans plain')
      rcases List.mem_append.1 member with source | other
      · obtain ⟨k, -, same⟩ := List.mem_filterMap.1 source
        obtain ⟨v, entry, pair⟩ := Option.map_eq_some_iff.1 same
        obtain ⟨rfl, stands⟩ := Prod.mk.inj pair
        rw [childPart.eq_def] at stands
        split at stands
        · rename_i value raw' isRecord
          split at stands
          · rename_i isValue
            obtain rfl := Part.raw.inj stands
            exact ⟨k, value, rfl, isValue ▸ entry, isRecord⟩
          · cases stands
        · cases stands
      · obtain ⟨e, -, same⟩ := List.mem_filterMap.1 other
        obtain ⟨k, -, pair⟩ := Option.map_eq_some_iff.1 same
        cases (Prod.mk.inj pair).2

/-- Whatever a program did since a decoded text was materialized with `keep_origin`: what the
encoder copies for a table that was returned then, the whole table or a string in it, is the
text of what is there now. -/
theorem kept_copies_hold (positive : ∀ x, env.numbers.key x ≠ some (.inl 0))
    (session : Session env (fun s op => op.Proper s) s) {text : Bytes}
    (short : text.length ≤ luaMaxString) {s₁ s₂ s₃ : State F}
    (decoded : decode env text s = (.ok v, s₁))
    (materialized : materialize env room true v s₁ = (.ok w, s₂))
    (run : ReflTransGen (Advances env) s₂ s₃) {r o : Nat} {p : Plain F}
    (plain : s₃.plain? r = some p) (isOrigin : p.origin = some o)
    (low : s₁.origins.length ≤ o) (high : o < s₂.origins.length) :
    (∀ forest tree, Sourced env forest s₃ r tree →
      ∃ place : Place, place.node = tree ∧ StillHolds env s₃ place (.table r)) ∧
    ∀ forest kind parts key raw, Laid env forest s₃ r kind parts → (key, .raw raw) ∈ parts →
      ∃ k value, ∃ node : Tree, key = some k ∧ p.entries.lookup (.str k) = some (.str value) ∧
        node.Valid ∧ node.render = raw ∧ IsLeaf env node (.str value) := by
  obtain ⟨session₂, forest, tree, d, start, x, -, -, widened, -, -⟩ :=
    exists_mirrors env session short decoded materialized
  obtain ⟨d', place, at_, remembers⟩ := widened.remembered o low high
  have recorded := session₂.recorded fun _ _ proper => proper
  have valid := (recorded.slice widened.kept.wf.library at_).1
  have later := remembers.later (prefix_of_advances run)
  constructor
  · intro forest' tree' sourced
    cases sourced with
    | clean here => exact (proxy_ne_plain here plain).elim
    | matched matches_ here valid' render =>
        obtain ⟨p', plain', isOrigin'⟩ := matches_.plain
        obtain rfl := Option.some.inj (plain.symm.trans plain')
        obtain rfl := Option.some.inj (isOrigin.symm.trans isOrigin')
        refine ⟨place, ?_, matches_.stillHolds positive later⟩
        exact eq_of_render valid valid' ((later.slice here).symm.trans render.symm)
  · intro forest' kind parts key raw laid member
    obtain ⟨k, value, isKey, entry, isRecord⟩ := laid.raw plain member
    rw [sourceOf, isOrigin, Option.bind_some] at isRecord
    split at isRecord
    · rename_i origin here
      split at isRecord
      · rename_i object
        obtain ⟨node, valid', render, leaf⟩ := later.raw valid here object isRecord
        exact ⟨k, value, node, isKey, entry, valid', render, leaf⟩
      · cases isRecord
    · cases isRecord

end Sessions

/-- `{"a":"aaaaaaaaaaaaaaaaaaaaaaaaa"}` -/
def longText : Bytes :=
  [0x7B, 0x22, 0x61, 0x22, 0x3A, 0x22] ++ List.replicate 25 0x61 ++ [0x22, 0x7D]

/-- The states behind decoding, behind materialization and behind `t.b = "x"`. -/
def longState : State Nat := (decode natEnv longText (State.start Nat)).2
@[inherit_doc longState] def longKeptState : State Nat :=
  (materialize natEnv 8 true (some (.table 0)) longState).2
@[inherit_doc longState] def longWrittenState : State Nat :=
  ((Op.newindex 1 (some (.str [0x62])) (some (.str [0x78]))).run natEnv longKeptState).2

theorem longText_facts :
    (decode natEnv longText (State.start Nat)).1.toOption = some (some (.table 0)) ∧
    (materialize natEnv 8 true (some (.table 0)) longState).1.toOption =
      some (some (.table 1)) ∧
    longState.origins.length = 0 ∧ longKeptState.origins.length = 1 ∧
    (longWrittenState.plain? 1).map (fun p => p.origin) = some (some 0) := by
  decide +kernel

/-- The member that was not touched is written as it was. -/
theorem kept_copies_hold_long : ∃ p, longWrittenState.plain? 1 = some p ∧
    ∀ forest kind parts key raw, Laid natEnv forest longWrittenState 1 kind parts →
      (key, .raw raw) ∈ parts →
        ∃ k value, ∃ node : Tree, key = some k ∧ p.entries.lookup (.str k) = some (.str value) ∧
          node.Valid ∧ node.render = raw ∧ IsLeaf natEnv node (.str value) := by
  obtain ⟨decoded, materialized, empty, one, table⟩ := longText_facts
  obtain ⟨p, plain, isOrigin⟩ := Option.map_eq_some_iff.1 table
  have positive (x : Nat) : natEnv.numbers.key x ≠ some (.inl 0) := by
    change some (if x = 0 then Sum.inr 0 else Sum.inl x) ≠ some (.inl 0)
    split
    · simp
    · simpa
  have run : ReflTransGen (Advances natEnv) longKeptState longWrittenState :=
    .single ⟨.newindex 1 (some (.str [0x62])) (some (.str [0x78])), rfl⟩
  have holds := kept_copies_hold positive .start
    (show longText.length ≤ luaMaxString by decide) (eq_of_toOption decoded)
    (eq_of_toOption materialized) run plain isOrigin (Nat.le_of_eq empty)
    (show 0 < longKeptState.origins.length by rw [one]; exact Nat.one_pos)
  exact ⟨p, plain, holds.2⟩

end QJson.Table
