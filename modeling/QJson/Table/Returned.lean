import QJson.Table.Respelled

/-!
# What is written comes back

The text that `qjson.encode` returned for a value is decoded and materialized.  What comes back
holds what the value held: strings and literals are the same, numbers are what was formatted,
arrays have their elements in order, and objects have every key with its last part.
-/

namespace QJson.Table

open Relation Rfc8259 Validate Doc Decode Ffi Lua

/-! ## Parts and what is read of them -/

/-- The part that is read back under a key, the last one of an object. -/
def partUnder {F : Type} (kind : Kind) (parts : List (Option Bytes × Part F)) :
    Key F → Option (Option Bytes × Part F)
  | .str key =>
      if kind = .obj then (parts.filter fun part => part.1 = some key).getLast? else none
  | .idx n => if kind = .arr ∧ n ≠ 0 then parts[n - 1]? else none
  | _ => none

section Statements

variable {F : Type} [DecidableEq F] (env : Env F) (forest : Forest) (s s' : State F)
  (keepOrigin : Bool)

/-- What is encoded on a heap comes back as a value on another one. -/
inductive ComesBack : Part F → Value F → Prop where
  | absent : ComesBack (.value none) .null
  | null : ComesBack (.value (some .null)) .null
  | str (x : Bytes) : ComesBack (.value (some (.str x))) (.str x)
  | bool (b : Bool) : ComesBack (.value (some (.bool b))) (.bool b)
  | number {v : Value F} {token : Bytes} {y : F} :
      (∃ x, v = .num x) ∨ (∃ n, v = .int64 n) → leafTree env s (some v) = some (.scalar token) →
      parseF64 env.std token false = .ok y → ComesBack (.value (some v)) (.num y)
  | copied {r : Nat} {place : Place} {w : Value F} :
      Sourced env forest s r place.node → Mirrors env s' keepOrigin place w →
      ComesBack (.value (some (.table r))) w
  | table {r t : Nat} {kind : Kind} {parts : List (Option Bytes × Part F)} {p : Plain F} :
      Laid env forest s r kind parts → s'.plain? t = some p →
      (p.emptyArray = true ↔ kind = .arr ∧ parts = []) →
      (∀ k, p.entries.lookup k = none ↔ partUnder kind parts k = none) →
      (∀ k part w, partUnder kind parts k = some part → p.entries.lookup k = some w →
        ComesBack part.2 w) →
      ComesBack (.value (some (.table r))) (.table t)
  | node {place : Place} {w : Value F} :
      Mirrors env s' keepOrigin place w → ComesBack (.node place.node) w
  | reread {tree : Tree} {v w : Value F} :
      IsLeaf env tree v → ComesBack (.value (some v)) w → ComesBack (.node tree) w
  | raw {place : Place} {w : Value F} :
      place.node.Valid → Mirrors env s' keepOrigin place w → ComesBack (.raw place.node.render) w

/-- What is materialized of a tree comes back from a part. -/
def Rereads (part : Part F) (tree : Tree) : Prop :=
  ∀ (place : Place) (w : Value F), place.node = tree → Mirrors env s' keepOrigin place w →
    ComesBack env forest s s' keepOrigin part w

end Statements

/-- A child that is read where a part was written. -/
structure ReadOf {F : Type} (kind : Kind) (spelled : Part F → Tree → Prop) (child : Child)
    (part : Option Bytes × Part F) : Prop where
  named : kind = .obj → part.1 = some (keyText child)
  spelled : spelled part.2 child.place.node

/-! ## Children and parts -/

section Lists

variable {α β : Type} {R : α → β → Prop} {left : List α} {right : List β}

theorem forall₂_getElem? (related : List.Forall₂ R left right) (i : Nat) :
    Option.Rel R left[i]? right[i]? := by
  induction related generalizing i with
  | nil => exact .none
  | cons head _ ih =>
      cases i with
      | zero => exact .some head
      | succ i => exact ih i

theorem forall₂_getLast? (related : List.Forall₂ R left right) :
    Option.Rel R left.getLast? right.getLast? := by
  rw [List.getLast?_eq_getElem?, List.getLast?_eq_getElem?, related.length_eq]
  exact forall₂_getElem? related _

end Lists

section Reading

variable {F : Type} [DecidableEq F] {env : Env F} {forest : Forest} {s s' : State F}
  {keepOrigin : Bool} {kind : Kind} {place : Place} {children : List Child}
  {parts : List (Option Bytes × Part F)} {pairs : List (Option Name × Tree)} {r : Nat}
  {v : Option (Value F)} {w : Value F} {part : Part F} {tree : Tree}
  {spelled : Part F → Tree → Prop}

omit [DecidableEq F] in
/-- Under every key, the child that is read is the part that was written. -/
theorem readOf_under (related : List.Forall₂ (ReadOf kind spelled) children parts)
    (k : Key F) :
    Option.Rel (ReadOf kind spelled) (under kind children k) (partUnder kind parts k) := by
  cases k with
  | str key =>
      rw [under, partUnder]
      split
      · rename_i object
        apply forall₂_getLast?
        apply List.rel_filter _ related
        intro child part readOf
        simp only [decide_eq_true_eq, readOf.named object, Option.some.injEq]
      · exact .none
  | idx n =>
      rw [under, partUnder]
      split
      · exact forall₂_getElem? related _
      · exact .none
  | _ => exact .none

theorem readOf_children (laid : Laid env forest s r kind parts)
    (node : place.node = Tree.ofList kind pairs)
    (names : pairs.map Prod.fst = parts.map fun part => nameOf part.1)
    (each : ∀ (i : Nat) (part : Option Bytes × Part F) (pair : Option Name × Tree),
      parts[i]? = some part → pairs[i]? = some pair → spelled part.2 pair.2) :
    List.Forall₂ (ReadOf kind spelled) place.children parts := by
  have entries : place.children.map Child.entry =
      pairs.map fun pair => ⟨pair.1, [], pair.2, []⟩ := by
    rw [place.children_map_entry, node, Tree.children_ofList]
  have length : place.children.length = pairs.length := by
    simpa using congrArg List.length entries
  have length' : pairs.length = parts.length := by
    simpa using congrArg List.length names
  refine List.forall₂_iff_get.2 ⟨length.trans length', fun i inside inside' => ?_⟩
  have atPart : parts[i]? = some (parts.get ⟨i, inside'⟩) := List.getElem?_eq_getElem inside'
  have atChild : place.children[i]? = some (place.children.get ⟨i, inside⟩) :=
    List.getElem?_eq_getElem inside
  obtain ⟨pair, atPair⟩ : ∃ pair, pairs[i]? = some pair :=
    ⟨_, List.getElem?_eq_getElem (length ▸ inside)⟩
  have entry := congrArg (fun list => list[i]?) entries
  simp only [List.getElem?_map, atChild, atPair, Option.map_some, Option.some.injEq] at entry
  obtain ⟨part, atPart', name⟩ := exists_part names atPair
  obtain rfl := Option.some.inj (atPart.symm.trans atPart')
  have value : (place.children.get ⟨i, inside⟩).place.node = pair.2 := congrArg Entry.value entry
  refine ⟨fun object => ?_, value ▸ each i _ _ atPart atPair⟩
  subst object
  obtain ⟨key, isKey⟩ := laid.named (List.mem_of_getElem? atPart)
  have read : keyText (place.children.get ⟨i, inside⟩) = key := by
    calc keyText (place.children.get ⟨i, inside⟩)
        = entryKey (place.children.get ⟨i, inside⟩).entry := rfl
      _ = key := by rw [entry, entryKey_of_part (name.trans (congrArg nameOf isKey))]
  rw [isKey, read]

/-! ## Values -/

theorem comesBack_of_leaf (spelled : leafTree env s v = some tree) (leaf : IsLeaf env tree w) :
    ComesBack env forest s s' keepOrigin (.value v) w := by
  have number {x : Value F} {token : Bytes} (isNumber : IsNumber token)
      (numeric : (∃ y, x = .num y) ∨ ∃ n, x = .int64 n)
      (spelled : leafTree env s (some x) = some (.scalar token))
      (leaf : IsLeaf env (.scalar token) w) :
      ComesBack env forest s s' keepOrigin (.value (some x)) w := by
    obtain ⟨notNull, notTrue, notFalse⟩ := not_literal isNumber
    rcases leaf with ⟨same, -⟩ | ⟨same, -⟩ | ⟨same, -⟩ | ⟨-, y, read, rfl⟩
    · exact absurd same notNull
    · exact absurd same notTrue
    · exact absurd same notFalse
    · exact .number numeric spelled read
  cases v with
  | none =>
      obtain rfl := Option.some.inj spelled
      obtain rfl := leaf.unique (w := .null) (.inl ⟨rfl, rfl⟩)
      exact .absent
  | some v =>
      cases v with
      | null =>
          obtain rfl := Option.some.inj spelled
          obtain rfl := leaf.unique (w := .null) (.inl ⟨rfl, rfl⟩)
          exact .null
      | str x =>
          obtain rfl := Option.some.inj spelled
          obtain rfl : w = .str x := leaf.trans (congrArg Value.str (bodyText_interior x))
          exact .str x
      | bool b =>
          obtain rfl := Option.some.inj spelled
          cases b with
          | true =>
              obtain rfl := leaf.unique (w := .bool true) (.inr (.inl ⟨rfl, rfl⟩))
              exact .bool true
          | false =>
              obtain rfl := leaf.unique (w := .bool false) (.inr (.inr (.inl ⟨rfl, rfl⟩)))
              exact .bool false
      | num x =>
          have whole := spelled
          rw [leafTree] at spelled
          split at spelled
          · rename_i finite
            obtain rfl := Option.some.inj spelled
            refine number ?_ (.inl ⟨x, rfl⟩) whole leaf
            split
            · rename_i integer
              exact env.numbers.formatD_number x finite integer
            · exact env.numbers.formatG_number _ x finite
          · cases spelled
      | int64 n =>
          obtain rfl := Option.some.inj spelled
          exact number (env.numbers.int64Text_number n) (.inr ⟨n, rfl⟩) rfl leaf
      | table r => exact absurd spelled not_leafTree_table
      | foreign x => cases spelled

theorem kind?_of_leafTree (spelled : leafTree env s v = some tree) : tree.kind? = none := by
  cases v with
  | none =>
      obtain rfl := Option.some.inj spelled
      rfl
  | some v =>
      cases v with
      | num x =>
          rw [leafTree] at spelled
          split at spelled
          · obtain rfl := Option.some.inj spelled
            rfl
          · cases spelled
      | table r => exact absurd spelled not_leafTree_table
      | foreign x => cases spelled
      | _ =>
          obtain rfl := Option.some.inj spelled
          rfl

theorem Mirrors.comesBack_leaf {place : Place} (mirrors : Mirrors env s' keepOrigin place w)
    (spelled : leafTree env s v = some place.node) :
    ComesBack env forest s s' keepOrigin (.value v) w := by
  cases mirrors with
  | leaf leaf => exact comesBack_of_leaf spelled leaf
  | table isKind => cases isKind.symm.trans (kind?_of_leafTree spelled)

theorem Spells.comesBack (spells : Spells env forest s part tree) {place : Place}
    (node : place.node = tree) (mirrors : Mirrors env s' keepOrigin place w) :
    ComesBack env forest s s' keepOrigin part w := by
  induction spells generalizing place w with
  | leaf spelled =>
      subst node
      exact mirrors.comesBack_leaf spelled
  | copied copied =>
      subst node
      exact .copied copied mirrors
  | @table r kind parts pairs laid names _ ih =>
      cases mirrors with
      | leaf leaf =>
          have noKind := leaf.kind?
          rw [node, Tree.kind?_ofList] at noKind
          cases noKind
      | @table _ t p kind' isKind plain labels domain children =>
          rw [node, Tree.kind?_ofList] at isKind
          obtain rfl := Option.some.inj isKind
          have related : List.Forall₂ (ReadOf kind (Rereads env forest s s' keepOrigin))
              place.children parts :=
            readOf_children laid node names fun i part pair left right place w =>
              ih i part pair left right
          have under_ := readOf_under related
          apply ComesBack.table laid plain
          · rw [labels.empty, ← List.length_eq_zero_iff, related.length_eq, List.length_eq_zero_iff]
          · intro k
            rw [domain k]
            have rel := under_ k
            generalize under kind place.children k = child at rel
            generalize partUnder kind parts k = part at rel
            cases rel with
            | none => exact iff_of_true rfl rfl
            | some _ => exact iff_of_false (Option.some_ne_none _) (Option.some_ne_none _)
          · intro k part x isPart entry
            have rel := under_ k
            rw [isPart] at rel
            cases found : under kind place.children k with
            | none =>
                rw [found] at rel
                cases rel
            | some child =>
                rw [found] at rel
                cases rel with
                | some readOf =>
                    exact readOf.spelled child.place x rfl (children k child x found entry)
  | container valid isKind =>
      subst node
      exact .node mirrors
  | reread valid leaf spelled =>
      subst node
      exact .reread leaf (mirrors.comesBack_leaf spelled)
  | raw valid render =>
      subst node render
      exact .raw valid mirrors

end Reading

/-! ## Whole round trips -/

section Sessions

variable {F : Type} [DecidableEq F] {s : State F} {keepOrigin : Bool} {room : Nat}

/-- A text that is accepted, whose numbers can be read and for which the stack has room is
decoded and materialized. -/
theorem exists_materialized (env : Env F) (session : Session env (fun s op => op.Proper s) s)
    {text : Bytes} (short : text.length ≤ luaMaxString) {tree : Tree} (parses : tree.Parses text)
    (accepted : ∃ doc, parseWithOptions (dispatch env.scanner env.strings) text
      Options.default = .ok doc)
    (readable : Readable env tree) (deep : tree.depth < room) :
    ∃ u s₁ x s₂, decode env text s = (.ok u, s₁) ∧
      materialize env room keepOrigin u s₁ = (.ok (some x), s₂) := by
  obtain ⟨forest, wf⟩ := session.wf fun _ _ proper => proper
  obtain ⟨document, parsed⟩ := accepted
  have parsed := parseWithOptions_ok_iff.1 parsed
  obtain ⟨tree', start, parses', stands⟩ := exists_stands short parsed
  obtain rfl := parses'.unique parses
  have at_ := wf.library.at_planted tree' start
  obtain ⟨u, s₁, decoded, root⟩ := Action.Wp.exists_ok
    ((wp_decode wf.library parsed stands).mono (fun _ _ => id) fun _ refused =>
      readable [] tree' (Tree.sub?_nil tree') refused.unreadable)
  have wf₁ := root.wf (wf.planted stands rfl rfl rfl rfl) at_ nofun
  obtain ⟨w, s₂, materialized, -, -, x, rfl, -⟩ := Action.Wp.exists_ok
    ((wp_materialize_root wf₁ at_ root).mono (fun _ _ => id) fun _ stuck =>
      stuck.elim (Nat.not_le_of_lt deep) fun not => not readable)
  exact ⟨u, s₁, x, s₂, decoded, materialized⟩

/-- In every session, what `qjson.encode` wrote of a value with valid strings is, decoded and
materialized, what the value was.  It is decoded and materialized when its brackets fit, its
numbers can be read and the stack has room. -/
theorem encoded_comes_back (env : Env F) (session : Session env (fun s op => op.Proper s) s) :
    ∃ forest, Wf forest s ∧ ∀ v, Held s.tables.length v → AllUtf8 env forest s (.value v) →
      ∀ text s₁, encode env v s = (.ok text, s₁) →
        ∃ tree, Spells env forest s (.value v) tree ∧ tree.render = text ∧
          (tree.depth ≤ Options.default.effectiveMaxDepth → Readable env tree →
            tree.depth < room → ∃ u s₂ x s₃, decode env text s₁ = (.ok u, s₂) ∧
              materialize env room keepOrigin u s₂ = (.ok (some x), s₃)) ∧
          ∀ u s₂ w s₃, decode env text s₁ = (.ok u, s₂) →
            materialize env room keepOrigin u s₂ = (.ok w, s₃) →
              ∃ x, w = some x ∧ ComesBack env forest s s₃ keepOrigin (.value v) x := by
  obtain ⟨forest, wf⟩ := session.wf fun _ _ proper => proper
  have recorded := session.recorded fun _ _ proper => proper
  refine ⟨forest, wf, fun v held utf8 text s₁ encoded => ?_⟩
  have session₁ := session.encoded held encoded
  have short := length_of_encode encoded
  obtain ⟨tree, spelled, rfl⟩ := spelled_of_encode wf recorded (.refl wf) held encoded
  have valid := spelled.spells.valid utf8
  refine ⟨tree, spelled.spells, rfl, fun shallow readable deep => ?_,
    fun u s₂ w s₃ decoded materialized => ?_⟩
  · have small : tree.render.length < u32Max := Nat.lt_of_le_of_lt short (by decide)
    exact exists_materialized env session₁ short ((parses_render_iff valid tree).2 rfl)
      ((accepts_render_iff env.scanner env.strings valid small (by decide)).2 shallow) readable
      deep
  · obtain ⟨-, forest', read, d, start, x, parses, -, -, rfl, mirrors⟩ :=
      exists_mirrors env session₁ short decoded materialized
    obtain rfl := (parses_render_iff valid read).1 parses
    exact ⟨x, rfl, spelled.spells.comesBack rfl mirrors⟩

end Sessions

/-- The states behind encoding `{"a":"x"}`, behind decoding the text and behind
materialization. -/
def writtenState : State Nat := (encode natEnv (some (.table 0)) namedState).2
@[inherit_doc writtenState] def rereadState : State Nat :=
  (decode natEnv namedText writtenState).2
@[inherit_doc writtenState] def returnedState : State Nat :=
  (materialize natEnv 8 false (some (.table 1)) rereadState).2

theorem returnedState_facts :
    (decode natEnv namedText writtenState).1.toOption = some (some (.table 1)) ∧
    (materialize natEnv 8 false (some (.table 1)) rereadState).1.toOption =
      some (some (.table 2)) := by
  decide +kernel

/-- The object comes back as a plain table. -/
theorem encoded_comes_back_named : ∃ forest,
    ComesBack natEnv forest namedState returnedState false (.value (some (.table 0)))
      (.table 2) := by
  obtain ⟨decoded, materialized⟩ := returnedState_facts
  obtain ⟨forest, -, comesBack⟩ := encoded_comes_back natEnv namedState_session
  obtain ⟨tree, -, -, -, comesBack⟩ :=
    comesBack _ namedState_held (namedState_utf8 forest) _ _ namedState_encode
  obtain ⟨x, same, back⟩ :=
    comesBack _ _ _ _ (eq_of_toOption decoded) (eq_of_toOption materialized)
  obtain rfl := Option.some.inj same
  exact ⟨forest, back⟩

end QJson.Table
