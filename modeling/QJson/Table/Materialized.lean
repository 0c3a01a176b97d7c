import QJson.Table.Remains

/-!
# What materialization returns

Materialization builds one table for each proxy, out of what it returns for the children.
The result holds a proxy exactly when a plain table that was met does.
-/

namespace QJson.Table

open Rfc8259 Validate Doc Decode Ffi Lua

section Statements

variable {F : Type} [DecidableEq F] (env : Env F) (forest : Forest)

/-- A value that is not `nil` holds a proxy. -/
def Leaves (s : State F) (w : Option (Value F)) : Prop := ∃ x, w = some x ∧ HoldsProxy s x

/-- Materialization of a value that is not `nil` meets a holder. -/
def Meets (s : State F) (mode : Bool) (v : Option (Value F)) : Prop :=
  ∃ x, v = some x ∧ MeetsHolder env s mode x

/-- The heap is well formed and grew. -/
structure Kept (s s' : State F) : Prop where
  wf : Wf forest s'
  grown : Grown env forest s s'

/-- A value was materialized. -/
structure Settled (mode : Bool) (s : State F) (v w : Option (Value F)) (s' : State F) :
    Prop where
  kept : Kept env forest s s'
  held : Held s'.tables.length w
  leaves : Leaves s' w ↔ Meets env s mode v

/-- A function that materializes values. -/
def Settles (mode : Bool) (recur : Option (Value F) → Act F (Option (Value F))) : Prop :=
  ∀ s v, Wf forest s → Held s.tables.length v →
    Action.Wp (recur v) s (Settled env forest mode s v) (Kept env forest s)

/-- A table under construction, whose values stand for children as `shown` says. -/
structure Building (mode : Bool) (s : State F) (shown : Key F → Option (Value F))
    (out : Map (Key F) (Value F)) (s' : State F) : Prop where
  kept : Kept env forest s s'
  held : ∀ k v, out.lookup k = some v → (∀ w, k ≠ .val w) ∧ v.Below s'.tables.length
  leaves : ∀ k, Leaves s' (out.lookup k) ↔ Meets env s mode (shown k)

/-- The table that is built for a proxy. -/
def Built (mode : Bool) (s : State F) (q : Proxy F) (out : Map (Key F) (Value F))
    (s' : State F) : Prop :=
  ∃ shown, Building env forest mode s shown out s' ∧
    ((∃ k, Meets env s mode (shown k)) ↔
      ∃ v, Shown env s (mode && !q.dirty) q v ∧ MeetsHolder env s (mode && !q.dirty) v)

end Statements

section Steps

variable {F : Type} [DecidableEq F] {env : Env F} {forest : Forest} {mode : Bool}
  {s s' s'' : State F} {shown shown' : Key F → Option (Value F)} {v w : Option (Value F)}
  {out : Map (Key F) (Value F)}

theorem Kept.refl (wf : Wf forest s) : Kept env forest s s := ⟨wf, Grown.refl s⟩

theorem Kept.trans (first : Kept env forest s s') (second : Kept env forest s' s'') :
    Kept env forest s s'' :=
  ⟨second.wf, first.grown.trans second.grown⟩

theorem Opened.kept (opened : Opened forest s s') : Kept env forest s s' :=
  ⟨opened.wf, opened.opens.grown⟩

theorem Kept.leaves (kept : Kept env forest s s') (wf : Wf forest s)
    (held : Held s.tables.length v) : Leaves s' v ↔ Leaves s v :=
  exists_congr fun x => and_congr_right fun same => kept.grown.holdsProxy wf (held x same)

theorem Kept.meets (kept : Kept env forest s s') (wf : Wf forest s)
    (held : Held s.tables.length v) : Meets env s' mode v ↔ Meets env s mode v :=
  exists_congr fun x => and_congr_right fun same => kept.grown.meetsHolder wf (held x same)

theorem not_leaves_none : ¬ Leaves s none := by
  rintro ⟨x, none, -⟩
  cases none

theorem not_meets_none : ¬ Meets env s mode none := by
  rintro ⟨x, none, -⟩
  cases none

/-- What is decoded afresh meets nothing. -/
theorem Yields.not_meets {view d : Nat} {place : Place} (yields : Yields env s view d place v) :
    ¬ Meets env s mode v := by
  rintro ⟨x, rfl, meets⟩
  exact yields.childless.not_meets meets

theorem Settled.earlier (settled : Settled env forest mode s' v w s'')
    (kept : Kept env forest s s') (wf : Wf forest s) (held : Held s.tables.length v) :
    Settled env forest mode s v w s'' :=
  ⟨kept.trans settled.kept, settled.held, settled.leaves.trans (kept.meets wf held)⟩

/-! ## Tables under construction -/

theorem Building.start (wf : Wf forest s) (empty : ∀ k, shown k = none) :
    Building env forest mode s shown ∅ s where
  kept := .refl wf
  held k v here := by cases here
  leaves k := by
    rw [empty]
    exact ⟨fun leaves => absurd leaves not_leaves_none, fun meets => absurd meets not_meets_none⟩

/-- Nothing under construction changes while the heap grows. -/
theorem Building.keep (building : Building env forest mode s shown out s')
    (kept : Kept env forest s' s'') : Building env forest mode s shown out s'' where
  kept := building.kept.trans kept
  held k v here := ⟨(building.held k v here).1,
    (building.held k v here).2.mono kept.grown.length_le⟩
  leaves k := (kept.leaves building.kept.wf fun x here => (building.held k x here).2).trans
    (building.leaves k)

theorem Building.put (building : Building env forest mode s shown out s')
    (settled : Settled env forest mode s' v w s'') {key : Key F} (plainKey : ∀ x, key ≠ .val x)
    (same : Meets env s' mode v ↔ Meets env s mode (shown' key))
    (other : ∀ k, k ≠ key → shown' k = shown k) :
    Building env forest mode s shown' (put out key w) s'' := by
  have before := building.keep settled.kept
  refine ⟨before.kept, ?_, fun k => ?_⟩
  · exact put_all before.held fun x here => ⟨plainKey, settled.held x here⟩
  · rw [lookup_put]
    split
    · rename_i at_
      rw [at_]
      exact settled.leaves.trans same
    · rename_i apart
      rw [other k apart]
      exact before.leaves k

theorem Building.added (building : Building env forest mode s shown out s') {emptyArray : Bool}
    {hint : Option Kind} {origin : Option Nat}
    (adds : Adds [.plain ⟨out, emptyArray, hint, origin⟩] s' s'')
    (library : Library forest s'') :
    Kept env forest s s'' ∧ s''.tables.length = s'.tables.length + 1 ∧
      (HoldsProxy s'' (.table s'.tables.length) ↔ ∃ k, Meets env s mode (shown k)) := by
  have ok : PlainOk (s'.tables.length + 1) ⟨out, emptyArray, hint, origin⟩ := by
    intro k v here
    obtain ⟨plainKey, below⟩ := building.held k v here
    refine ⟨?_, below.mono (Nat.le_succ _)⟩
    cases k with
    | val x => exact absurd rfl (plainKey x)
    | _ => trivial
  have okTable : TableOk forest (s'.tables.length + 1) s'.tables.length
      (.plain ⟨out, emptyArray, hint, origin⟩) := ok
  have kept : Kept env forest s' s'' :=
    ⟨building.kept.wf.added okTable adds library, grown_added adds⟩
  have tables : s''.tables = s'.tables ++ [.plain ⟨out, emptyArray, hint, origin⟩] := adds.tables
  have here : s''.plain? s'.tables.length = some ⟨out, emptyArray, hint, origin⟩ := by
    rw [plain?_eq_some, getElem?_added tables, if_pos rfl]
  refine ⟨building.kept.trans kept, by rw [tables, List.length_append, List.length_singleton], ?_⟩
  have after := building.keep kept
  rw [holdsProxy_plain here]
  constructor
  · rintro ⟨v, inside, holds⟩
    cases inside with
    | value plain entry =>
        rename_i p k
        obtain rfl := Option.some.inj (here.symm.trans plain)
        exact ⟨k, (after.leaves k).1 ⟨v, entry, holds⟩⟩
    | key plain entry =>
        obtain rfl := Option.some.inj (here.symm.trans plain)
        exact absurd rfl ((after.held _ _ entry).1 v)
  · rintro ⟨k, meets⟩
    obtain ⟨v, entry, holds⟩ := (after.leaves k).2 meets
    exact ⟨v, .value here entry, holds⟩

end Steps

/-! ## The walks of `materialize_plain` -/

section Among

variable {F : Type} [DecidableEq F] {env : Env F} {s : State F} {mode : Bool}
  {done : List (Key F)} {key k : Key F} {lookup : Key F → Option (Value F)}

/-- The children under the keys that were worked off. -/
def among (done : List (Key F)) (lookup : Key F → Option (Value F)) (k : Key F) :
    Option (Value F) :=
  if k ∈ done then lookup k else none

/-- Children under strings. -/
def byName (lookup : Bytes → Option (Value F)) : Key F → Option (Value F)
  | .str k => lookup k
  | _ => none

/-- Children under positive integers. -/
def byIndex (lookup : Nat → Option (Value F)) : Key F → Option (Value F)
  | .idx i => lookup i
  | _ => none

theorem among_nil (k : Key F) : among [] lookup k = none := by
  rw [among, if_neg List.not_mem_nil]

theorem among_other (k : Key F) (apart : k ≠ key) :
    among (done ++ [key]) lookup k = among done lookup k := by
  simp [among, apart]

theorem among_last : among (done ++ [key]) lookup key = lookup key := by
  simp [among]

theorem meets_among : (∃ k, Meets env s mode (among done lookup k)) ↔
    ∃ v, (∃ k ∈ done, lookup k = some v) ∧ MeetsHolder env s mode v := by
  constructor
  · rintro ⟨k, v, entry, meets⟩
    rw [among] at entry
    split at entry
    · rename_i member
      exact ⟨v, ⟨k, member, entry⟩, meets⟩
    · cases entry
  · rintro ⟨v, ⟨k, member, entry⟩, meets⟩
    exact ⟨k, v, by rw [among, if_pos member, entry], meets⟩

/-- What is related to a list has something behind every entry. -/
theorem forall₂_right {α β : Type} {rel : α → β → Prop} {left : List α} {right : List β}
    (related : List.Forall₂ rel left right) {b : β} (member : b ∈ right) :
    ∃ a ∈ left, rel a b := by
  induction related with
  | nil => cases member
  | cons head tail ih =>
      rcases List.mem_cons.1 member with rfl | later
      · exact ⟨_, List.mem_cons_self, head⟩
      · obtain ⟨a, inside, here⟩ := ih later
        exact ⟨a, List.mem_cons_of_mem _ inside, here⟩

end Among

section Plain

variable {F : Type} [DecidableEq F] {env : Env F} {forest : Forest} {s : State F} {view : Nat}
  {q : Proxy F} {place : Place} {recur : Option (Value F) → Act F (Option (Value F))}

theorem wp_materializeOrdered (settles : Settles env forest false recur) (wf : Wf forest s)
    (here : s.proxy? view = some q) (object : q.kind = .obj) {order : Order F}
    (ordered : q.order = some order) :
    Action.Wp (materializeOrdered recur order) s (Built env forest false s q)
      (Kept env forest s) := by
  obtain ⟨place, ok⟩ := wf.proxy here
  refine (Action.wp_foldlM (fun done out s' => Building env forest false s
    (among (done.map .str) (byName order.values.lookup)) out s') ?_ ?_).mono
    (fun out s' building => ?_) fun _ => id
  · intro done k out s' _ building
    cases entry : order.values.lookup k with
    | none => exact building.kept
    | some val =>
        have below := held_some (ok.order order ordered k val entry)
        change Action.Wp (recur (some val) >>= fun w => pure (put out (.str k) w)) s' _ _
        rw [Action.wp_bind, List.map_append, List.map_singleton]
        refine (settles s' (some val) building.kept.wf
          (below.mono building.kept.grown.length_le)).mono (fun w s'' settled => ?_)
          fun _ failed => building.kept.trans failed
        refine building.put settled (fun _ => nofun) ?_ among_other
        rw [among_last, byName, entry]
        exact building.kept.meets wf below
  · exact Building.start wf among_nil
  · refine ⟨_, building, meets_among.trans ?_⟩
    simp [Shown, object, ordered, byName]

theorem meets_luaOr (mode : Bool) {view d : Nat} {child : Place} (cached : Option (Value F))
    {v : Option (Value F)} (yields : Yields env s view d child v) :
    Meets env s mode (luaOr cached v) ↔ Meets env s mode cached := by
  rw [luaOr]
  split
  · rfl
  · rename_i falsy
    refine ⟨fun meets => absurd meets yields.not_meets, ?_⟩
    rintro ⟨x, rfl, meets⟩
    have childless : Childless s x := by
      cases x with
      | table r => exact absurd rfl falsy
      | _ => trivial
    exact absurd meets childless.not_meets

theorem wp_materializeContents (settles : Settles env forest false recur) (wf : Wf forest s)
    (here : s.proxy? view = some q) (ok : ProxyOk forest s.tables.length view q place)
    (object : q.kind = .obj) (clean : q.dirty = false) (unordered : q.order = none)
    {contents : List (Bytes × Option (Value F))}
    (decoded : List.Forall₂ (fun child kv => kv.1 = keyText child ∧
      Yields env s view q.doc child.place kv.2) place.children contents) :
    Action.Wp (materializeContents recur view contents) s (Built env forest false s q)
      (Kept env forest s) := by
  have keys : contents.map Prod.fst = sourceKeys env s q := by
    rw [sourceKeys_eq wf.library ok.at_ ok.cursor (ok.kind.trans (congrArg some object)),
      ← List.forall₂_eq_eq_eq, List.forall₂_map_left_iff, List.forall₂_map_right_iff]
    exact (decoded.imp fun _ _ each => each.1).flip
  refine (Action.wp_foldlM (fun done out s' => Building env forest false s
    (among (done.map fun kv => .str kv.1) (byName q.childCache.lookup)) out s') ?_ ?_).mono
    (fun out s' building => ?_) fun _ => id
  · intro done kv out s' member building
    obtain ⟨child, -, -, yields⟩ := forall₂_right decoded member
    have grown := building.kept.grown
    have held : Held s.tables.length (luaOr (q.childCache.lookup kv.1) kv.2) :=
      held_luaOr (ok.childCache kv.1) yields.held
    rw [cachedChild, Action.wp_bind, Action.wp_bind, Action.wp_get, Action.wp_pure,
      grown.same here (.inr (.inr clean)), Option.bind_some, Action.wp_bind]
    refine (settles s' _ building.kept.wf (held.mono grown.length_le)).mono
      (fun w s'' settled => ?_) fun _ failed => building.kept.trans failed
    rw [List.map_append, List.map_singleton]
    refine building.put settled (fun _ other => by cases other) ?_ among_other
    rw [among_last, byName]
    exact (building.kept.meets wf held).trans (meets_luaOr _ _ yields)
  · exact Building.start wf among_nil
  · refine ⟨_, building, meets_among.trans ?_⟩
    simp [Shown, object, unordered, clean, byName, ← keys]

theorem meets_elements (ok : ProxyOk forest s.tables.length view q place) (array : q.kind = .arr)
    {mode : Bool} (same : (mode && !q.dirty) = mode) :
    (∃ k, Meets env s mode (among ((List.range' 1 place.children.length).map .idx)
      (byIndex q.elems.lookup) k)) ↔
      ∃ v, Shown env s (mode && !q.dirty) q v ∧ MeetsHolder env s (mode && !q.dirty) v := by
  rw [meets_among, same]
  simp only [Shown, array]
  refine exists_congr fun v => and_congr_left fun _ => ?_
  constructor
  · rintro ⟨k, member, entry⟩
    obtain ⟨i, -, rfl⟩ := List.mem_map.1 member
    exact ⟨i, entry⟩
  · rintro ⟨i, entry⟩
    obtain ⟨-, low, high⟩ := ok.elems i v entry
    exact ⟨.idx i, List.mem_map.2 ⟨i, List.mem_range'_1.2 ⟨low, by omega⟩, rfl⟩, entry⟩

theorem wp_materializeElements (settles : Settles env forest false recur) (wf : Wf forest s)
    (here : s.proxy? view = some q) (ok : ProxyOk forest s.tables.length view q place)
    (array : q.kind = .arr) {contents : List (Option (Value F))}
    (decoded : List.Forall₂ (fun child v => Yields env s view q.doc child.place v)
      place.children contents) :
    Action.Wp (materializeElements recur view contents) s (Built env forest false s q)
      (Kept env forest s) := by
  have all : contents.takeWhile Option.isSome = contents := by
    refine List.takeWhile_eq_self_iff.2 fun v member => ?_
    obtain ⟨child, -, yields⟩ := forall₂_right decoded member
    obtain ⟨w, rfl⟩ := yields.isSome
    rfl
  rw [materializeElements, all]
  refine (Action.wp_foldlM (fun done out s' => Building env forest false s
    (among (done.map fun x => .idx x.2) (byIndex q.elems.lookup)) out s') ?_ ?_).mono
    (fun out s' building => ?_) fun _ => id
  · intro done x out s' member building
    obtain ⟨child, -, yields⟩ := forall₂_right decoded (List.fst_mem_of_mem_zipIdx member)
    have grown := building.kept.grown
    have held : Held s.tables.length (luaOr (q.elems.lookup x.2) x.1) :=
      held_luaOr (fun v entry => (ok.elems x.2 v entry).1) yields.held
    rw [rawElem, Action.wp_bind, Action.wp_bind, Action.wp_get, Action.wp_pure,
      grown.same here (.inl array), Option.bind_some, Action.wp_bind]
    refine (settles s' _ building.kept.wf (held.mono grown.length_le)).mono
      (fun w s'' settled => ?_) fun _ failed => building.kept.trans failed
    rw [List.map_append, List.map_singleton]
    refine building.put settled (fun _ => nofun) ?_ among_other
    rw [among_last, byIndex]
    exact (building.kept.meets wf held).trans (meets_luaOr _ _ yields)
  · exact Building.start wf among_nil
  · have indices : (contents.zipIdx 1).map (fun x => (.idx x.2 : Key F)) =
        (List.range' 1 place.children.length).map .idx := by
      rw [decoded.length_eq, ← List.zipIdx_map_snd 1 contents, List.map_map]
      rfl
    refine ⟨_, building, ?_⟩
    rw [indices]
    exact meets_elements ok array rfl

/-! ## `materialize_plain` -/

theorem Built.added {mode : Bool} {s' s'' : State F} {out : Map (Key F) (Value F)}
    (built : Built env forest mode s q out s') (here : s.proxy? view = some q)
    {emptyArray : Bool} {hint : Option Kind} {origin : Option Nat}
    (adds : Adds [.plain ⟨out, emptyArray, hint, origin⟩] s' s'') (library : Library forest s'') :
    Settled env forest mode s (some (.table view)) (some (.table s'.tables.length)) s'' := by
  obtain ⟨shown, building, same⟩ := built
  obtain ⟨kept, length, holds⟩ := building.added adds library
  refine ⟨kept, held_some (by rw [length]; exact Nat.lt_succ_self _), ?_⟩
  have leaves {t : Nat} : Leaves s'' (some (.table t)) ↔ HoldsProxy s'' (.table t) := by
    simp [Leaves]
  have meets {t : Nat} :
      Meets env s mode (some (.table t)) ↔ MeetsHolder env s mode (.table t) := by
    simp [Meets]
  rw [leaves, meets, holds, same, meetsHolder_proxy here]

theorem wp_newPlain {mode : Bool} {s' : State F} {out : Map (Key F) (Value F)} {kind : Kind}
    (built : Built env forest mode s q out s') (here : s.proxy? view = some q)
    {err : State F → Prop} :
    Action.Wp (newPlain env kind out) s'
      (fun w s'' => Settled env forest mode s (some (.table view)) (some w) s'') err := by
  have library : Library forest s' := by
    obtain ⟨_, building, -⟩ := built
    exact building.kept.wf.library
  rw [newPlain, Action.wp_bind]
  exact built.added here ⟨rfl, rfl, rfl, rfl, rfl⟩ (library.congr rfl rfl)

/-- The heap grows by the order state of a dirty object. -/
theorem kept_ordered (wf : Wf forest s) (here : s.proxy? view = some q)
    (ok : ProxyOk forest s.tables.length view q place) (object : q.kind = .obj)
    (unordered : q.order = none) (dirty : q.dirty = true) {o : Order F}
    (order : OrderOf env s view q place.children o) :
    Kept env forest s (s.updateProxy view fun q => { q with order := some o }) := by
  refine ⟨wf_ordered wf (order.held ok.childCache), rfl, fun r p plain => ?_, fun r other old => ?_⟩
  · exact plain?_eq_some.2 ((getElem?_updateProxy _).2 (.inr ⟨plain?_eq_some.1 plain,
      fun _ => ⟨p, rfl⟩⟩))
  · by_cases at_ : view = r
    · subst at_
      obtain rfl := Option.some.inj (here.symm.trans old)
      refine .inr ⟨object, unordered, dirty, o, place, ok.at_, ok.cursor,
        ok.kind.trans (congrArg some object), order.imp fun _ _ yields => yields.update wf _, ?_⟩
      exact proxy?_eq_some.2 ((getElem?_updateProxy _).2 (.inl ⟨_, rfl,
        proxy?_eq_some.1 here, rfl⟩))
    · exact .inl (proxy?_eq_some.2 ((getElem?_updateProxy _).2 (.inr ⟨proxy?_eq_some.1 old,
        fun same => absurd same at_⟩)))

theorem wp_materializePlainProxy (settles : Settles env forest false recur) (wf : Wf forest s)
    (here : s.proxy? view = some q) :
    Action.Wp (materializePlainProxy env recur view q) s
      (fun w s' => Settled env forest false s (some (.table view)) (some w) s')
      (Kept env forest s) := by
  obtain ⟨place, ok⟩ := wf.proxy here
  have held : Held s.tables.length (some (.table view : Value F)) := held_some (lt_of_proxy? here)
  -- The children were opened, or the order state was made, and the walk starts behind that.
  have behind {s' : State F} {q' : Proxy F} {kind : Kind} {action : Act F (Map (Key F) (Value F))}
      (kept : Kept env forest s s') (here' : s'.proxy? view = some q')
      (walk : Action.Wp action s' (Built env forest false s' q') (Kept env forest s')) :
      Action.Wp (action >>= newPlain env kind) s'
        (fun w s'' => Settled env forest false s (some (.table view)) (some w) s'')
        (Kept env forest s) := by
    rw [Action.wp_bind]
    refine walk.mono (fun out s'' built => ?_) fun _ failed => kept.trans failed
    exact (wp_newPlain built here').mono (fun _ _ settled => settled.earlier kept wf held)
      fun _ => id
  rw [materializePlainProxy]
  cases kind : q.kind with
  | arr =>
      change Action.Wp (materializeArrayContents env view q >>= _) s _ _
      rw [Action.wp_bind]
      refine (wp_materializeArrayContents wf here ok kind).mono (fun contents s' walked => ?_)
        fun _ failed => failed.1.kept
      obtain ⟨opened, decoded⟩ := walked
      have here' := opened.opens.proxy? here
      exact behind opened.kept here' (wp_materializeElements settles opened.wf here'
        (ok.mono opened.opens.later.length_le) kind decoded)
  | obj =>
      by_cases ordered : q.order.isSome ∨ q.dirty
      · simp only [ordered, if_true]
        rw [Action.wp_bind]
        cases isOrder : q.order with
        | some order =>
            rw [ensureObjectOrderState, isOrder]
            exact behind (.refl wf) here (wp_materializeOrdered settles wf here kind isOrder)
        | none =>
            have dirty : q.dirty = true := by simpa [isOrder] using ordered
            refine (wp_ensureObjectOrderState wf here ok kind isOrder).mono ?_
              fun _ failed => failed.1.kept
            rintro o _ ⟨s₁, opened, order, rfl⟩
            have here₁ := opened.opens.proxy? here
            have kept := opened.kept.trans (kept_ordered opened.wf here₁
              (ok.mono opened.opens.later.length_le) kind isOrder dirty order)
            have here₂ : (s₁.updateProxy view fun q => { q with order := some o }).proxy? view =
                some { q with order := some o } :=
              proxy?_eq_some.2 ((getElem?_updateProxy _).2 (.inl ⟨q, rfl,
                proxy?_eq_some.1 here₁, rfl⟩))
            exact behind kept here₂ (wp_materializeOrdered settles kept.wf here₂ kind rfl)
      · simp only [ordered, if_false]
        rw [Action.wp_bind]
        refine (wp_materializeObjectContents wf here ok kind).mono (fun contents s' walked => ?_)
          fun _ failed => failed.1.kept
        obtain ⟨opened, decoded⟩ := walked
        have here' := opened.opens.proxy? here
        have clean : q.dirty = false := by simpa using fun dirty => ordered (.inr dirty)
        have unordered : q.order = none := by simpa using fun some_ => ordered (.inl some_)
        exact behind opened.kept here' (wp_materializeContents settles opened.wf here'
          (ok.mono opened.opens.later.length_le) kind clean unordered decoded)

theorem settled_same {mode : Bool} (wf : Wf forest s) {v : Option (Value F)}
    (held : Held s.tables.length v) (noProxy : ∀ r, v = some (.table r) → s.proxy? r = none) :
    Settled env forest mode s v v s := by
  refine ⟨.refl wf, held, ?_⟩
  cases v with
  | none => exact ⟨fun leaves => absurd leaves not_leaves_none,
      fun meets => absurd meets not_meets_none⟩
  | some x =>
      refine exists_congr fun y => and_congr_right fun same => ?_
      obtain rfl := Option.some.inj same
      cases x with
      | table r =>
          cases table : s.tables[r]? with
          | none => exact absurd (List.getElem?_eq_none_iff.1 table) (Nat.not_le.2 (held _ rfl))
          | some t =>
              cases t with
              | proxy q =>
                  have clash := (noProxy r rfl).symm.trans (proxy?_eq_some.2 table)
                  cases clash
              | plain p => exact (meetsHolder_plain (plain?_eq_some.2 table)).symm
      | _ =>
          refine iff_of_false (not_holdsProxy_of_not_table nofun) ?_
          exact Childless.not_meets trivial

theorem settles_materializePlain (room : Nat) :
    Settles env forest false (materializePlain env room) := by
  induction room with
  | zero => exact fun s v wf _ => Kept.refl wf
  | succ room ih =>
      intro s v wf held
      rw [materializePlain, Action.wp_bind, Action.wp_get]
      split
      · rename_i r
        cases here : s.proxy? r with
        | none =>
            refine settled_same wf held fun t same => ?_
            obtain rfl := Value.table.inj (Option.some.inj same)
            exact here
        | some q =>
            change Action.Wp (materializePlainProxy env (materializePlain env room) r q >>= _) s _ _
            rw [Action.wp_bind]
            exact (wp_materializePlainProxy ih wf here).mono (fun _ _ => id) fun _ => id
      · rename_i noTable
        exact settled_same wf held fun r same => absurd same (noTable r)

end Plain

/-! ## `materialize_with_origin` -/

section Origins

variable {F : Type} [DecidableEq F] {env : Env F} {forest : Forest} {s : State F} {view : Nat}
  {q : Proxy F} {place : Place} {recur : Option (Value F) → Act F (Option (Value F))}

theorem Quiet.kept {s' : State F} (quiet : Quiet s s') (wf : Wf forest s)
    (library : Library forest s') : Kept env forest s s' :=
  ⟨wf.quiet quiet library, quiet.opens.grown⟩

omit [DecidableEq F] in
theorem wp_cursorTokenSpan {d : Nat} (library : Library forest s) (at_ : At forest d place)
    {ok : Nat × Nat → State F → Prop} {err : State F → Prop}
    (next : ∀ s', Quiet s s' → Library forest s' →
      ok (place.pos, place.pos + place.node.render.length) s') :
    Action.Wp (cursorTokenSpan d place.cursor) s ok err := by
  rw [cursorTokenSpan, Action.wp_bind]
  refine library.wp_access at_ replies_bytes fun s' quiet library' => ?_
  exact next { s' with sz := (place.pos, place.pos + place.node.render.length) }
    ⟨quiet.docs, quiet.tables, quiet.origins, quiet.loops, quiet.settings⟩
    (library'.congr rfl rfl)

theorem wp_originChild (settles : Settles env forest true recur) {s' : State F}
    {shown shown' : Key F → Option (Value F)} {out : Map (Key F) (Value F)}
    (building : Building env forest true s shown out s') {child : Option (Value F)}
    (held : Held s'.tables.length child) {key : Key F} (plainKey : ∀ x, key ≠ .val x)
    (same : Meets env s' true child ↔ Meets env s true (shown' key))
    (other : ∀ k, k ≠ key → shown' k = shown k) {d : Nat}
    {finish : Option (Value F) → Bytes → State F → Walk F}
    (outOf : ∀ v source at_, (finish v source at_).out = put out key v) :
    Action.Wp (do
        let v ← recur child
        let source ← hold d
        let at_ ← Action.get
        return finish v source at_) s'
      (fun w s'' => Building env forest true s shown' w.out s'' ∧
        ∃ v source at_, w = finish v source at_) (Kept env forest s) := by
  rw [Action.wp_bind]
  refine (settles s' child building.kept.wf held).mono (fun v s'' settled => ?_)
    fun _ failed => building.kept.trans failed
  refine ⟨?_, v, _, s'', rfl⟩
  rw [outOf]
  exact building.put settled plainKey same other

/-- The children that an object shows to the walk, once it has met some of its members. -/
def entriesShown (q : Proxy F) (done : List Child) : Key F → Option (Value F) :=
  byName (cachedOnce q (done.map keyText))

omit [DecidableEq F] in
theorem entriesShown_other {done : List Child} {child : Child} (k : Key F)
    (apart : k ≠ .str (keyText child)) :
    entriesShown q (done ++ [child]) k = entriesShown q done k := by
  cases k with
  | str k =>
      have other : keyText child ≠ k := fun same => apart (by rw [same])
      rw [entriesShown, entriesShown, byName, byName, cachedOnce, cachedOnce, List.map_append,
        List.count_append, List.map_singleton, List.count_singleton]
      simp [other]
  | _ => rfl

omit [DecidableEq F] in
theorem entriesShown_last {done : List Child} {child : Child} :
    entriesShown q (done ++ [child]) (.str (keyText child)) =
      if keyText child ∈ done.map keyText then none else q.childCache.lookup (keyText child) := by
  rw [entriesShown, byName, cachedOnce, List.map_append, List.map_singleton, List.count_append,
    List.count_singleton_self]
  split
  · rename_i once
    have absent : keyText child ∉ done.map keyText := by
      intro member
      have := List.count_pos_iff.2 member
      omega
    rw [if_neg absent]
  · rename_i twice
    have present : keyText child ∈ done.map keyText := by
      refine List.count_pos_iff.1 ?_
      omega
    rw [if_pos present]

/-- The walk behind a member. -/
def Walk.member (w : Walk F) (key : Bytes) (v : Option (Value F)) (record : Option (Record F)) :
    Walk F :=
  let w := if key ∉ w.keys then { w with keys := w.keys ++ [key] }
    else { w with hadDuplicates := true }
  w.add (.str key) v record

theorem Walk.member_out (w : Walk F) (key : Bytes) (v : Option (Value F))
    (record : Option (Record F)) : (w.member key v record).out = put w.out (.str key) v := by
  rw [Walk.member]
  split <;> rfl

theorem Walk.mem_member_keys (w : Walk F) (key : Bytes) (v : Option (Value F))
    (record : Option (Record F)) (k : Bytes) :
    k ∈ (w.member key v record).keys ↔ k ∈ w.keys ∨ k = key := by
  rw [Walk.member]
  split
  · exact List.mem_append.trans (or_congr_right List.mem_singleton)
  · rename_i seen
    refine ⟨.inl, fun either => ?_⟩
    rcases either with old | rfl
    · exact old
    · exact not_not.1 seen

theorem meets_byName {mode : Bool} {lookup : Bytes → Option (Value F)} :
    (∃ k, Meets env s mode (byName lookup k)) ↔
      ∃ v, (∃ k, lookup k = some v) ∧ MeetsHolder env s mode v := by
  constructor
  · rintro ⟨key, v, entry, meets⟩
    cases key with
    | str k => exact ⟨v, ⟨k, entry⟩, meets⟩
    | _ => cases entry
  · rintro ⟨v, ⟨k, entry⟩, meets⟩
    exact ⟨.str k, v, entry, meets⟩

theorem wp_originEntry (settles : Settles env forest true recur) (wf : Wf forest s)
    (here : s.proxy? view = some q) (ok : ProxyOk forest s.tables.length view q place)
    (clean : q.dirty = false) {s' : State F} {done : List Child} {child : Child} {w : Walk F}
    (at_ : At forest q.doc child.place)
    (building : Building env forest true s (entriesShown q done) w.out s')
    (keys : ∀ k, k ∈ w.keys ↔ k ∈ done.map keyText) :
    Action.Wp (originEntry env recur view q w (keyText child) child.cursor) s'
      (fun w' s'' => Building env forest true s (entriesShown q (done ++ [child])) w'.out s'' ∧
        ∀ k, k ∈ w'.keys ↔ k ∈ (done ++ [child]).map keyText) (Kept env forest s) := by
  have names (k : Bytes) : k ∈ (done ++ [child]).map keyText ↔
      k ∈ done.map keyText ∨ k = keyText child := by
    rw [List.map_append, List.mem_append, List.map_singleton, List.mem_singleton]
  rw [originEntry, Action.wp_bind]
  refine wp_cursorTokenSpan building.kept.wf.library at_ fun s₁ quiet library => ?_
  have building₁ := building.keep (quiet.kept building.kept.wf library)
  have here₁ := building₁.kept.grown.same here (.inr (.inr clean))
  have rest {s₂ : State F} {v : Option (Value F)} (kept : Kept env forest s₁ s₂)
      (held : Held s₂.tables.length v)
      (same : Meets env s₂ true v ↔
        Meets env s true (entriesShown q (done ++ [child]) (.str (keyText child)))) :
      Action.Wp (do
          let v ← recur v
          let source ← hold q.doc
          let at_ ← Action.get
          return w.member (keyText child) v (originChildRecord at_ v source child.place.pos
            (child.place.pos + child.place.node.render.length))) s₂
        (fun w' s'' => Building env forest true s (entriesShown q (done ++ [child])) w'.out s'' ∧
          ∀ k, k ∈ w'.keys ↔ k ∈ (done ++ [child]).map keyText) (Kept env forest s) := by
    have plainKey : ∀ x, (.str (keyText child) : Key F) ≠ .val x := nofun
    refine (wp_originChild settles (building₁.keep kept) held plainKey same
      entriesShown_other fun _ _ _ => w.member_out _ _ _).mono
      (fun w' s'' added => ⟨added.1, fun k => ?_⟩) fun _ => id
    obtain ⟨v, source, at_, rfl⟩ := added.2
    rw [w.mem_member_keys, names, keys]
  -- A child that is decoded afresh has nothing to meet, and then none is cached that counts.
  have decodes (uncached : entriesShown q (done ++ [child]) (.str (keyText child)) = none) :
      Action.Wp (do
          let v ← decodeCursor env (some view) q.doc child.cursor
          let v ← recur v
          let source ← hold q.doc
          let at_ ← Action.get
          return w.member (keyText child) v (originChildRecord at_ v source child.place.pos
            (child.place.pos + child.place.node.render.length))) s₁
        (fun w' s'' => Building env forest true s (entriesShown q (done ++ [child])) w'.out s'' ∧
          ∀ k, k ∈ w'.keys ↔ k ∈ (done ++ [child]).map keyText) (Kept env forest s) := by
    rw [Action.wp_bind]
    refine (wp_decodeChild building₁.kept.wf at_ (lt_of_proxy? here₁)).mono
      (fun v s₂ decoded => ?_) fun _ failed => building₁.kept.trans failed.1.kept
    refine rest decoded.1.kept decoded.2.held ?_
    rw [uncached]
    exact iff_of_false decoded.2.not_meets not_meets_none
  have last : entriesShown q (done ++ [child]) (.str (keyText child)) = _ := entriesShown_last
  by_cases first : keyText child ∉ w.keys
  · rw [if_neg (mt (keys _).2 first)] at last
    simp only [Walk.member, first, not_false_eq_true, if_true] at rest decodes ⊢
    rw [cachedChild, Action.wp_bind, Action.wp_bind, Action.wp_get, Action.wp_pure, here₁,
      Option.bind_some]
    cases cached : q.childCache.lookup (keyText child) with
    | none => exact decodes (last.trans cached)
    | some c =>
        have held : Held s.tables.length (some c) := held_some (ok.childCache _ c cached)
        refine rest (.refl building₁.kept.wf)
          (held.mono building₁.kept.grown.length_le) ?_
        rw [last, cached]
        exact building₁.kept.meets wf held
  · rw [if_pos ((keys _).1 (not_not.1 first))] at last
    simp only [Walk.member, first, if_false] at decodes ⊢
    exact decodes last

theorem wp_originElement (settles : Settles env forest true recur) (wf : Wf forest s)
    (here : s.proxy? view = some q) (ok : ProxyOk forest s.tables.length view q place)
    (array : q.kind = .arr) {s' : State F} {k : Nat} {child : Child} {w : Walk F}
    (at_ : At forest q.doc child.place)
    (building : Building env forest true s
      (among ((List.range' 1 k).map .idx) (byIndex q.elems.lookup)) w.out s') :
    Action.Wp (originElement env recur view q w k child.cursor) s'
      (fun w' s'' => Building env forest true s
        (among ((List.range' 1 (k + 1)).map .idx) (byIndex q.elems.lookup)) w'.out s'')
      (Kept env forest s) := by
  rw [originElement, Action.wp_bind]
  refine wp_cursorTokenSpan building.kept.wf.library at_ fun s₁ quiet library => ?_
  have building₁ := building.keep (quiet.kept building.kept.wf library)
  have here₁ := building₁.kept.grown.same here (.inl array)
  have indices : (List.range' 1 (k + 1)).map (fun i => (.idx i : Key F)) =
      (List.range' 1 k).map .idx ++ [.idx (k + 1)] := by
    rw [List.range'_concat, List.map_append, List.map_singleton, Nat.one_mul, Nat.add_comm 1 k]
  have rest {s₂ : State F} {v : Option (Value F)} (kept : Kept env forest s₁ s₂)
      (held : Held s₂.tables.length v)
      (same : Meets env s₂ true v ↔ Meets env s true (q.elems.lookup (k + 1))) :
      Action.Wp (do
          let v ← recur v
          let source ← hold q.doc
          let at_ ← Action.get
          return w.add (.idx (k + 1)) v (originChildRecord at_ v source child.place.pos
            (child.place.pos + child.place.node.render.length))) s₂
        (fun w' s'' => Building env forest true s
          (among ((List.range' 1 (k + 1)).map .idx) (byIndex q.elems.lookup)) w'.out s'')
        (Kept env forest s) := by
    have plainKey : ∀ x, (.idx (k + 1) : Key F) ≠ .val x := nofun
    rw [indices]
    exact (wp_originChild settles (building₁.keep kept) held plainKey
      (same.trans (by rw [among_last, byIndex])) among_other fun _ _ _ => rfl).mono
        (fun w' s'' added => added.1) fun _ => id
  rw [rawElem, Action.wp_bind, Action.wp_bind, Action.wp_get, Action.wp_pure, here₁,
    Option.bind_some]
  have held : Held s.tables.length (q.elems.lookup (k + 1)) :=
    fun v entry => (ok.elems _ v entry).1
  split
  · exact rest (.refl building₁.kept.wf) (held.mono building₁.kept.grown.length_le)
      (building₁.kept.meets wf held)
  · rename_i falsy
    rw [Action.wp_bind]
    refine (wp_decodeChild building₁.kept.wf at_ (lt_of_proxy? here₁)).mono
      (fun v s₂ decoded => ?_) fun _ failed => building₁.kept.trans failed.1.kept
    have meets : Meets env s₂ true v ↔ Meets env s₂ true (q.elems.lookup (k + 1)) := by
      have either := meets_luaOr true (q.elems.lookup (k + 1)) decoded.2
      rwa [luaOr, if_neg falsy] at either
    exact rest decoded.1.kept decoded.2.held
      (meets.trans ((building₁.kept.trans decoded.1.kept).meets wf held))

/-- `materialize_object_with_origin` and `materialize_array_with_origin`. -/
theorem wp_materializeOriginProxy (settles : Settles env forest true recur) (wf : Wf forest s)
    (here : s.proxy? view = some q) (clean : q.dirty = false) :
    Action.Wp (materializeOriginProxy env recur view q) s
      (fun w s' => Settled env forest true s (some (.table view)) (some w) s')
      (Kept env forest s) := by
  obtain ⟨place, ok⟩ := wf.proxy here
  -- Behind the walk, a record and a table are added.
  have behind {w : Walk F} {s' : State F} (built : Built env forest true s q w.out s') :
      Action.Wp (newOriginTable env q w) s'
        (fun x s'' => Settled env forest true s (some (.table view)) (some x) s'')
        (Kept env forest s) := by
    obtain ⟨shown, building, same⟩ := built
    have library := building.kept.wf.library
    rw [newOriginTable, hold, Action.wp_bind, Action.wp_bind, Action.wp_get, Action.wp_pure,
      Action.wp_bind]
    have recorded (origins : List (Origin F)) :
        Built env forest true s q w.out { s' with origins } := by
      refine ⟨shown, building.keep ⟨?_, rfl, fun _ _ => id, fun _ _ => .inl⟩, same⟩
      exact building.kept.wf.later (library.congr rfl rfl) (Later.of_tables rfl) rfl
        building.kept.wf.tables
    exact (recorded _).added here ⟨rfl, rfl, rfl, rfl, rfl⟩ (library.congr rfl rfl)
  rw [materializeOriginProxy]
  cases kind : q.kind with
  | obj =>
      rw [Action.wp_bind]
      have object := ok.kind.trans (congrArg some kind)
      have inv : LoopInv forest fun done (w : Walk F) s' =>
          Building env forest true s (entriesShown q done) w.out s' ∧
            ∀ k, k ∈ w.keys ↔ k ∈ done.map keyText :=
        { library := fun _ _ _ kept => kept.1.kept.wf.library
          quiet := fun _ _ _ _ kept quiet library =>
            ⟨kept.1.keep (quiet.kept kept.1.kept.wf library), kept.2⟩ }
      refine (wp_forEntries ok.at_ ok.cursor object inv (fun k child w s' at_ kept => ?_)
        ⟨Building.start wf fun k => ?_, fun k => Iff.rfl⟩).mono (fun w s' kept => ?_) fun _ => id
      · exact wp_originEntry settles wf here ok clean (ok.child at_) kept.1 kept.2
      · cases k <;> rfl
      · refine behind ⟨_, kept.1, ?_⟩
        have keys : sourceKeys env s q = place.children.map keyText :=
          sourceKeys_eq wf.library ok.at_ ok.cursor object
        rw [entriesShown, meets_byName]
        simp [Shown, kind, clean, keys]
  | arr =>
      rw [Action.wp_bind]
      have inv : LoopInv forest fun done (w : Walk F) s' => Building env forest true s
          (among ((List.range' 1 done.length).map .idx) (byIndex q.elems.lookup)) w.out s' :=
        { library := fun _ _ _ kept => kept.kept.wf.library
          quiet := fun _ _ _ _ kept quiet library =>
            kept.keep (quiet.kept kept.kept.wf library) }
      refine (wp_forElements ok.at_ ok.cursor (ok.kind.trans (congrArg some kind)) inv
        (fun k child w s' at_ kept => ?_) (Building.start wf among_nil)).mono
        (fun w s' kept => behind ⟨_, kept, meets_elements ok kind (by rw [clean]; rfl)⟩)
        fun _ => id
      have length : (place.children.take k).length = k :=
        List.length_take_of_le (List.getElem?_eq_some_iff.1 at_).1.le
      rw [List.length_append, length]
      rw [length] at kept
      exact wp_originElement settles wf here ok kind (ok.child at_) kept

theorem settles_materializeWithOrigin (room : Nat) :
    Settles env forest true (materializeWithOrigin env room) := by
  induction room with
  | zero => exact fun s v wf _ => Kept.refl wf
  | succ room ih =>
      intro s v wf held
      rw [materializeWithOrigin, Action.wp_bind, Action.wp_get]
      split
      · rename_i r
        cases here : s.proxy? r with
        | none =>
            refine settled_same wf held fun t same => ?_
            obtain rfl := Value.table.inj (Option.some.inj same)
            exact here
        | some q =>
            simp only
            split
            · rename_i dirty
              refine (settles_materializePlain room s _ wf held).mono (fun w s' settled => ?_)
                fun _ => id
              refine ⟨settled.kept, settled.held, settled.leaves.trans ?_⟩
              refine exists_congr fun x => and_congr_right fun same => ?_
              obtain rfl := Option.some.inj same
              rw [meetsHolder_proxy here, meetsHolder_proxy here, dirty]
              rfl
            · rename_i clean
              rw [Action.wp_bind]
              exact (wp_materializeOriginProxy ih wf here (by simpa using clean)).mono
                (fun _ _ => id) fun _ => id
      · rename_i noTable
        exact settled_same wf held fun r same => absurd same (noTable r)

theorem settles_materialize (room : Nat) (keepOrigin : Bool) :
    Settles env forest keepOrigin (materialize env room keepOrigin) := by
  cases keepOrigin with
  | true => exact settles_materializeWithOrigin room
  | false => exact settles_materializePlain room

end Origins

end QJson.Table
