import QJson.Table.Loops

/-!
# What every heap of a session keeps

Every proxy stands for a container of its document, references lead to tables that are
there, and the loops that are under way stand in front of a child.  Each way to change the
heap keeps this, on a condition that its callers meet.
-/

namespace QJson.Table

open Rfc8259 Validate Doc Decode Ffi Lua

/-- A key that refers to a table that is there. -/
def Key.Below {F : Type} (n : Nat) : Key F → Prop
  | .val v => v.Below n
  | _ => True

/-- A proxy among `n` tables, itself at position `r`, and its node. -/
structure ProxyOk {F : Type} (forest : Forest) (n r : Nat) (q : Proxy F) (place : Place) :
    Prop where
  at_ : At forest q.doc place
  cursor : q.cur = place.cursor
  kind : place.node.kind? = some q.kind
  span : q.bs = place.pos ∧ q.be = place.pos + place.node.render.length
  parent : ∀ p, q.parent = some p → p < r
  childCache : ∀ k v, q.childCache.lookup k = some v → v.Below n
  elems : ∀ i v, q.elems.lookup i = some v → v.Below n ∧ 1 ≤ i ∧ i ≤ place.children.length
  order : ∀ o, q.order = some o → ∀ k v, o.values.lookup k = some v → v.Below n

/-- A plain table among `n` tables. -/
def PlainOk {F : Type} [DecidableEq F] (n : Nat) (p : Plain F) : Prop :=
  ∀ k v, p.entries.lookup k = some v → k.Below n ∧ v.Below n

/-- A table among `n` tables. -/
def TableOk {F : Type} [DecidableEq F] (forest : Forest) (n r : Nat) : LuaTable F → Prop
  | .proxy q => ∃ place, ProxyOk forest n r q place
  | .plain p => PlainOk n p

/-- A loop that is under way: over an object in either order, or over what is or was an array. -/
def LoopOk {F : Type} (forest : Forest) (s : State F) : Loop → Prop
  | .ordered view _ => ∃ q, s.proxy? view = some q ∧ q.kind = .obj
  | .entries view it _ => ∃ q place k, s.proxy? view = some q ∧ q.kind = .obj ∧
      At forest q.doc place ∧ place.node.kind? = some .obj ∧ it = iterPlace place k
  | .elements view _ => view < s.tables.length ∧ ∀ q, s.proxy? view = some q → q.kind = .arr

/-- What every state of a session keeps. -/
structure Wf {F : Type} [DecidableEq F] (forest : Forest) (s : State F) : Prop where
  library : Library forest s
  tables : ∀ (r : Nat) (t : LuaTable F), s.tables[r]? = some t →
    TableOk forest s.tables.length r t
  loops : ∀ loop ∈ s.loops, LoopOk forest s loop

/-- What a table may become: a proxy stays what it stands for, and an array may be
promoted. -/
def Follows {F : Type} : LuaTable F → LuaTable F → Prop
  | .proxy q, .proxy q' => q'.kind = q.kind ∧ q'.parent = q.parent ∧ q'.doc = q.doc ∧
      q'.cur = q.cur ∧ q'.bs = q.bs ∧ q'.be = q.be
  | .proxy q, .plain _ => q.kind = .arr
  | .plain _, .plain _ => True
  | .plain _, .proxy _ => False

/-- The tables of a state are there in another one. -/
def Later {F : Type} (s s' : State F) : Prop :=
  ∀ (r : Nat) (t : LuaTable F), s.tables[r]? = some t →
    ∃ t', s'.tables[r]? = some t' ∧ Follows t t'

section Values

variable {F : Type} {n m : Nat}

theorem Value.Below.mono {v : Value F} (below : v.Below n) (le : n ≤ m) : v.Below m := by
  cases v with
  | table r => exact Nat.lt_of_lt_of_le below le
  | _ => trivial

theorem Key.Below.mono {k : Key F} (below : k.Below n) (le : n ≤ m) : k.Below m := by
  cases k with
  | val v => exact Value.Below.mono below le
  | _ => trivial

theorem Held.mono {v : Option (Value F)} (held : Held n v) (le : n ≤ m) : Held m v :=
  fun w same => (held w same).mono le

theorem held_none : Held n (none : Option (Value F)) := fun _ none => by cases none

theorem held_some {v : Value F} (below : v.Below n) : Held n (some v) := by
  intro w same
  obtain rfl := Option.some.inj same
  exact below

theorem held_luaOr {a b : Option (Value F)} (left : Held n a) (right : Held n b) :
    Held n (luaOr a b) := by
  rw [luaOr]
  split
  · exact left
  · exact right

theorem below_of_leaf [DecidableEq F] {env : Env F} {node : Tree} {v : Value F}
    (leaf : IsLeaf env node v) : v.Below n := by
  cases node with
  | str body => obtain rfl := leaf; trivial
  | scalar token =>
      rcases leaf with ⟨-, rfl⟩ | ⟨-, rfl⟩ | ⟨-, rfl⟩ | ⟨-, x, -, rfl⟩ <;> trivial
  | empty _ _ => exact leaf.elim
  | node _ _ => exact leaf.elim

theorem ProxyOk.mono {forest : Forest} {r : Nat} {q : Proxy F} {place : Place}
    (ok : ProxyOk forest n r q place) (le : n ≤ m) : ProxyOk forest m r q place where
  at_ := ok.at_
  cursor := ok.cursor
  kind := ok.kind
  span := ok.span
  parent := ok.parent
  childCache k v here := (ok.childCache k v here).mono le
  elems i v here := ⟨(ok.elems i v here).1.mono le, (ok.elems i v here).2⟩
  order o isOrder k v here := (ok.order o isOrder k v here).mono le

theorem PlainOk.mono [DecidableEq F] {p : Plain F} (ok : PlainOk n p) (le : n ≤ m) :
    PlainOk m p :=
  fun k v here => ⟨(ok k v here).1.mono le, (ok k v here).2.mono le⟩

theorem fresh_ok {forest : Forest} {d r : Nat} {place : Place} {kind : Kind}
    {parent : Option Nat} (at_ : At forest d place) (isKind : place.node.kind? = some kind)
    (older : ∀ p, parent = some p → p < r) :
    ProxyOk forest n r (fresh (F := F) kind parent d place) place where
  at_ := at_
  cursor := rfl
  kind := isKind
  span := ⟨rfl, rfl⟩
  parent := older
  childCache k v here := by cases here
  elems i v here := by cases here
  order o none := by cases none

end Values

/-! ## Maps -/

section Maps

variable {κ α : Type} [DecidableEq κ]

theorem lookup_put {map : Map κ α} {k j : κ} {v : Option α} :
    (put map k v).lookup j = if j = k then v else map.lookup j := by
  cases v with
  | none =>
      rw [put]
      split
      · rename_i same
        rw [same, AList.lookup_erase]
      · rename_i apart
        exact AList.lookup_erase_ne apart
  | some v =>
      rw [put]
      split
      · rename_i same
        rw [same, AList.lookup_insert]
      · rename_i apart
        exact AList.lookup_insert_ne apart

/-- What holds of a map and of a new value holds of the map with it. -/
theorem put_all {map : Map κ α} {k : κ} {v : Option α} {good : κ → α → Prop}
    (old : ∀ j w, map.lookup j = some w → good j w) (new : ∀ w, v = some w → good k w) :
    ∀ j w, (put map k v).lookup j = some w → good j w := by
  intro j w here
  rw [lookup_put] at here
  split at here
  · rename_i same
    exact same ▸ new w here
  · exact old j w here

end Maps

/-! ## Tables -/

section Tables

variable {F : Type} {s s' s'' : State F} {r t : Nat}

theorem proxy?_eq_some {q : Proxy F} : s.proxy? r = some q ↔ s.tables[r]? = some (.proxy q) := by
  unfold State.proxy?
  cases s.tables[r]? with
  | none => simp
  | some table => cases table <;> simp

theorem plain?_eq_some {p : Plain F} : s.plain? r = some p ↔ s.tables[r]? = some (.plain p) := by
  unfold State.plain?
  cases s.tables[r]? with
  | none => simp
  | some table => cases table <;> simp

theorem proxy?_congr (tables : s'.tables = s.tables) (r : Nat) : s'.proxy? r = s.proxy? r := by
  rw [State.proxy?, tables, State.proxy?]

theorem plain?_congr (tables : s'.tables = s.tables) (r : Nat) : s'.plain? r = s.plain? r := by
  rw [State.plain?, tables, State.plain?]

theorem lt_of_proxy? {q : Proxy F} (here : s.proxy? r = some q) : r < s.tables.length :=
  (List.getElem?_eq_some_iff.1 (proxy?_eq_some.1 here)).1

theorem getElem?_updateProxy (change : Proxy F → Proxy F) {table : LuaTable F} :
    (s.updateProxy t change).tables[r]? = some table ↔
      (∃ q, t = r ∧ s.tables[r]? = some (.proxy q) ∧ table = .proxy (change q)) ∨
        s.tables[r]? = some table ∧ (t = r → ∃ p, table = .plain p) := by
  simp only [State.updateProxy, List.getElem?_modify]
  cases s.tables[r]? with
  | none => simp
  | some old =>
      by_cases same : t = r
      · cases old with
        | proxy q =>
            simp only [same, if_true, Option.map_eq_map, Option.map_some, Option.some.injEq,
              LuaTable.proxy.injEq, true_and, exists_eq_left', forall_const]
            refine ⟨fun changed => .inl changed.symm, fun cases_ => ?_⟩
            rcases cases_ with changed | ⟨rfl, p, none⟩
            · exact changed.symm
            · cases none
        | plain p =>
            simp only [same, if_true, Option.map_eq_map, Option.map_some, Option.some.injEq,
              reduceCtorEq, false_and, and_false, exists_false, false_or, forall_const]
            exact ⟨fun kept => ⟨kept, p, kept.symm⟩, And.left⟩
      · simp [same]

theorem getElem?_updatePlain (change : Plain F → Plain F) {table : LuaTable F} :
    (s.updatePlain t change).tables[r]? = some table ↔
      (∃ p, t = r ∧ s.tables[r]? = some (.plain p) ∧ table = .plain (change p)) ∨
        s.tables[r]? = some table ∧ (t = r → ∃ q, table = .proxy q) := by
  simp only [State.updatePlain, List.getElem?_modify]
  cases s.tables[r]? with
  | none => simp
  | some old =>
      by_cases same : t = r
      · cases old with
        | proxy q =>
            simp only [same, if_true, Option.map_eq_map, Option.map_some, Option.some.injEq,
              reduceCtorEq, false_and, and_false, exists_false, false_or, forall_const]
            exact ⟨fun kept => ⟨kept, q, kept.symm⟩, And.left⟩
        | plain p =>
            simp only [same, if_true, Option.map_eq_map, Option.map_some, Option.some.injEq,
              LuaTable.plain.injEq, true_and, exists_eq_left', forall_const]
            refine ⟨fun changed => .inl changed.symm, fun cases_ => ?_⟩
            rcases cases_ with changed | ⟨rfl, q, none⟩
            · exact changed.symm
            · cases none
      · simp [same]

@[simp] theorem length_updateProxy (change : Proxy F → Proxy F) :
    (s.updateProxy t change).tables.length = s.tables.length :=
  List.length_modify _ _ _

@[simp] theorem length_updatePlain (change : Plain F → Plain F) :
    (s.updatePlain t change).tables.length = s.tables.length :=
  List.length_modify _ _ _

theorem getElem?_added {table : LuaTable F} (tables : s'.tables = s.tables ++ [table]) :
    s'.tables[r]? = if r = s.tables.length then some table else s.tables[r]? := by
  rw [tables]
  split
  · rename_i same
    rw [same, List.getElem?_concat_length]
  · rename_i apart
    rcases Nat.lt_or_ge r s.tables.length with old | beyond
    · exact List.getElem?_append_left old
    · rw [List.getElem?_eq_none (by simp; omega), List.getElem?_eq_none beyond]

theorem Follows.refl (table : LuaTable F) : Follows table table := by
  cases table with
  | proxy q => exact ⟨rfl, rfl, rfl, rfl, rfl, rfl⟩
  | plain p => trivial

theorem Follows.trans {a b c : LuaTable F} (first : Follows a b) (second : Follows b c) :
    Follows a c := by
  cases a with
  | proxy q =>
      cases b with
      | proxy q' =>
          cases c with
          | proxy q'' =>
              obtain ⟨h1, h2, h3, h4, h5, h6⟩ := first
              obtain ⟨k1, k2, k3, k4, k5, k6⟩ := second
              exact ⟨k1.trans h1, k2.trans h2, k3.trans h3, k4.trans h4, k5.trans h5, k6.trans h6⟩
          | plain p => exact first.1.symm.trans second
      | plain p =>
          cases c with
          | proxy q'' => exact second.elim
          | plain p' => exact first
  | plain p =>
      cases b with
      | proxy q' => exact first.elim
      | plain p' =>
          cases c with
          | proxy q'' => exact second.elim
          | plain p'' => trivial

theorem Later.of_tables (tables : s'.tables = s.tables) : Later s s' :=
  fun _ table here => ⟨table, by rw [tables]; exact here, Follows.refl table⟩

theorem Later.trans (first : Later s s') (second : Later s' s'') : Later s s'' := by
  intro r table here
  obtain ⟨table', here', follows⟩ := first r table here
  obtain ⟨table'', here'', follows'⟩ := second r table' here'
  exact ⟨table'', here'', follows.trans follows'⟩

theorem Later.length_le (later : Later s s') : s.tables.length ≤ s'.tables.length := by
  by_contra less
  have inside : s'.tables.length < s.tables.length := Nat.lt_of_not_le less
  obtain ⟨table, here, -⟩ := later s'.tables.length _ (List.getElem?_eq_getElem inside)
  exact absurd (List.getElem?_eq_some_iff.1 here).1 (Nat.lt_irrefl _)

theorem later_added {table : LuaTable F} (tables : s'.tables = s.tables ++ [table]) :
    Later s s' := by
  intro r old here
  refine ⟨old, ?_, Follows.refl old⟩
  rw [getElem?_added tables, if_neg (Nat.ne_of_lt (List.getElem?_eq_some_iff.1 here).1), here]

theorem later_updateProxy {change : Proxy F → Proxy F}
    (same : ∀ q, Follows (.proxy q) (.proxy (change q))) : Later s (s.updateProxy t change) := by
  intro r old here
  by_cases at_ : t = r
  · cases old with
    | proxy q => exact ⟨_, (getElem?_updateProxy change).2 (.inl ⟨q, at_, here, rfl⟩), same q⟩
    | plain p =>
        exact ⟨_, (getElem?_updateProxy change).2 (.inr ⟨here, fun _ => ⟨p, rfl⟩⟩), trivial⟩
  · exact ⟨old, (getElem?_updateProxy change).2 (.inr ⟨here, fun same => absurd same at_⟩),
      Follows.refl old⟩

theorem later_updatePlain (change : Plain F → Plain F) : Later s (s.updatePlain t change) := by
  intro r old here
  by_cases at_ : t = r
  · cases old with
    | proxy q =>
        exact ⟨_, (getElem?_updatePlain change).2 (.inr ⟨here, fun _ => ⟨q, rfl⟩⟩),
          Follows.refl _⟩
    | plain p => exact ⟨_, (getElem?_updatePlain change).2 (.inl ⟨p, at_, here, rfl⟩), trivial⟩
  · exact ⟨old, (getElem?_updatePlain change).2 (.inr ⟨here, fun same => absurd same at_⟩),
      Follows.refl old⟩

end Tables

/-! ## Changes that keep the heap -/

section Changes

variable {F : Type} [DecidableEq F] {forest : Forest} {s s' : State F} {r : Nat}

theorem TableOk.mono {n m : Nat} {table : LuaTable F} (ok : TableOk forest n r table)
    (le : n ≤ m) : TableOk forest m r table := by
  cases table with
  | proxy q =>
      obtain ⟨place, ok⟩ := ok
      exact ⟨place, ok.mono le⟩
  | plain p => exact PlainOk.mono ok le

theorem Wf.proxy (wf : Wf forest s) {q : Proxy F} (here : s.proxy? r = some q) :
    ∃ place, ProxyOk forest s.tables.length r q place :=
  wf.tables r _ (proxy?_eq_some.1 here)

theorem Wf.plain (wf : Wf forest s) {p : Plain F} (here : s.plain? r = some p) :
    PlainOk s.tables.length p :=
  wf.tables r _ (plain?_eq_some.1 here)

omit [DecidableEq F] in
theorem LoopOk.later {loop : Loop} (ok : LoopOk forest s loop) (later : Later s s') :
    LoopOk forest s' loop := by
  cases loop with
  | ordered view i =>
      obtain ⟨q, here, kind⟩ := ok
      obtain ⟨table, here', follows⟩ := later view _ (proxy?_eq_some.1 here)
      cases table with
      | proxy q' => exact ⟨q', proxy?_eq_some.2 here', follows.1.trans kind⟩
      | plain p => exact absurd (kind.symm.trans follows) (by decide)
  | entries view it seen =>
      obtain ⟨q, place, k, here, kind, at_, object, rfl⟩ := ok
      obtain ⟨table, here', follows⟩ := later view _ (proxy?_eq_some.1 here)
      cases table with
      | proxy q' =>
          obtain ⟨kind', -, doc, -⟩ := follows
          exact ⟨q', place, k, proxy?_eq_some.2 here', kind'.trans kind, doc.symm ▸ at_, object,
            rfl⟩
      | plain p => exact absurd (kind.symm.trans follows) (by decide)
  | elements view i =>
      obtain ⟨inside, arrays⟩ := ok
      refine ⟨Nat.lt_of_lt_of_le inside later.length_le, fun q' here' => ?_⟩
      obtain ⟨table, behind, follows⟩ := later view _ (List.getElem?_eq_getElem inside)
      obtain rfl := Option.some.inj (behind.symm.trans (proxy?_eq_some.1 here'))
      cases old : s.tables[view] with
      | proxy q =>
          rw [old] at follows
          exact follows.1.trans (arrays q (proxy?_eq_some.2 (by
            rw [List.getElem?_eq_getElem inside, old])))
      | plain p =>
          rw [old] at follows
          exact follows.elim

theorem Wf.later (wf : Wf forest s) (library : Library forest s') (later : Later s s')
    (loops : s'.loops = s.loops)
    (tables : ∀ r table, s'.tables[r]? = some table → TableOk forest s'.tables.length r table) :
    Wf forest s' :=
  ⟨library, tables, fun loop member => (wf.loops loop (loops ▸ member)).later later⟩

theorem Wf.quiet (wf : Wf forest s) (quiet : Quiet s s') (library : Library forest s') :
    Wf forest s' :=
  wf.later library (Later.of_tables quiet.tables) quiet.loops (by
    rw [quiet.tables]
    exact wf.tables)

theorem Wf.added (wf : Wf forest s) {table : LuaTable F}
    (ok : TableOk forest (s.tables.length + 1) s.tables.length table)
    (adds : Adds [table] s s') (library : Library forest s') : Wf forest s' := by
  have tables : s'.tables = s.tables ++ [table] := adds.tables
  have length : s'.tables.length = s.tables.length + 1 := by
    rw [tables, List.length_append, List.length_singleton]
  refine wf.later library (later_added tables) adds.loops fun r other here => ?_
  rw [getElem?_added tables] at here
  rw [length]
  split at here
  · rename_i new
    obtain rfl := Option.some.inj here
    exact new ▸ ok
  · exact (wf.tables r other here).mono (Nat.le_succ _)

theorem Wf.updateProxy (wf : Wf forest s) {change : Proxy F → Proxy F}
    (same : ∀ q, Follows (.proxy q) (.proxy (change q)))
    (ok : ∀ q, s.proxy? r = some q → ∃ place, ProxyOk forest s.tables.length r (change q) place) :
    Wf forest (s.updateProxy r change) := by
  refine wf.later (wf.library.congr rfl rfl) (later_updateProxy same) rfl fun i table here => ?_
  rw [length_updateProxy]
  rcases (getElem?_updateProxy change).1 here with ⟨q, rfl, old, rfl⟩ | ⟨old, -⟩
  · exact ok q (proxy?_eq_some.2 old)
  · exact wf.tables i table old

theorem Wf.updatePlain (wf : Wf forest s) {change : Plain F → Plain F}
    (ok : ∀ p, s.plain? r = some p → PlainOk s.tables.length p →
      PlainOk s.tables.length (change p)) :
    Wf forest (s.updatePlain r change) := by
  refine wf.later (wf.library.congr rfl rfl) (later_updatePlain change) rfl fun i table here => ?_
  rw [length_updatePlain]
  rcases (getElem?_updatePlain change).1 here with ⟨p, rfl, old, rfl⟩ | ⟨old, -⟩
  · exact ok p (plain?_eq_some.2 old) (wf.tables r _ old)
  · exact wf.tables i table old

end Changes

end QJson.Table
