import QJson.Action.Related
import QJson.Table.Fields

/-!
# Tables that nothing refers to

Two heaps that differ in tables which only one of them has: the others stand further behind
in it, and every reference is shifted by as much.  Reading and decoding do not tell the two
heaps apart.
-/

namespace QJson.Table

open Rfc8259 Validate Doc Decode Ffi Lua

/-! ## Two heaps -/

section Statements

variable {F : Type} (n d m : Nat)

/-- A reference, where `d` tables are put in behind the first `n`. -/
def shift (r : Nat) : Nat := if r < n then r else r + d

/-- A value, where `d` tables are put in behind the first `n`. -/
def Value.shift : Value F → Value F
  | .table r => .table (Table.shift n d r)
  | v => v

variable [DecidableEq F]

/-- The order states of two proxies. -/
structure OrderShift (o o' : Order F) : Prop where
  keys : o'.keys = o.keys
  values : ∀ k, o'.values.lookup k = (o.values.lookup k).map (Value.shift n d)

/-- A proxy and its counterpart. -/
structure ProxyShift (q q' : Proxy F) : Prop where
  kind : q'.kind = q.kind
  dirty : q'.dirty = q.dirty
  doc : q'.doc = q.doc
  cur : q'.cur = q.cur
  bs : q'.bs = q.bs
  be : q'.be = q.be
  parent : q'.parent = q.parent.map (Table.shift n d)
  order : Option.Rel (OrderShift n d) q.order q'.order
  childCache : ∀ k, q'.childCache.lookup k = (q.childCache.lookup k).map (Value.shift n d)
  elems : ∀ i, q'.elems.lookup i = (q.elems.lookup i).map (Value.shift n d)

/-- A table and its counterpart; a plain table refers to none that is shifted. -/
inductive TableShift (forest : Forest) : Option (LuaTable F) → Option (LuaTable F) → Prop where
  | none : TableShift forest none none
  | plain {p : Plain F} (stays : ∀ k v, p.entries.lookup k = some v → v.shift n d = v) :
      TableShift forest (some (.plain p)) (some (.plain p))
  | proxy {q q' : Proxy F} {place : Place} (same : ProxyShift n d q q')
      (at_ : At forest q.doc place) (cursor : q.cur = place.cursor)
      (kind : place.node.kind? = some q.kind) :
      TableShift forest (some (.proxy q)) (some (.proxy q'))

/-- The loops over old views. -/
def Loop.Old : Loop → Prop
  | .ordered view _ | .entries view _ _ | .elements view _ => view < n

/-- The second heap has `d` tables more, behind the first `n`; from position `m` on the loops
are over old views. -/
structure Shifted (forest : Forest) (s s' : State F) : Prop where
  left : Library forest s
  right : Library forest s'
  docs : s'.docs = s.docs
  origins : s'.origins = s.origins
  loops : s'.loops = s.loops
  begun : ∀ i loop, m ≤ i → s.loops[i]? = some loop → loop.Old n ∧ LoopOk forest s loop
  settings : s'.settings = s.settings
  old : n ≤ s.tables.length
  length : s'.tables.length = s.tables.length + d
  tables : ∀ r, TableShift n d forest s.tables[r]? s'.tables[Table.shift n d r]?

end Statements

section Shifts

variable {F : Type} [DecidableEq F] {n d m : Nat} {forest : Forest} {s s' t t' : State F} {r : Nat}

theorem shift_of_lt (old : r < n) : shift n d r = r := if_pos old

theorem shift_of_le (new : n ≤ r) : shift n d r = r + d := if_neg (Nat.not_lt.2 new)

theorem shift_inj {r r' : Nat} : shift n d r = shift n d r' ↔ r = r' := by
  unfold shift
  grind

theorem mem_map_shift {active : List Nat} :
    shift n d r ∈ active.map (shift n d) ↔ r ∈ active := by
  rw [List.mem_map]
  constructor
  · rintro ⟨r', member, same⟩
    exact shift_inj.1 same ▸ member
  · intro member
    exact ⟨r, member, rfl⟩

omit [DecidableEq F] in
/-- An old value is not shifted. -/
theorem Value.Below.shift {v : Value F} (below : v.Below n) : v.shift n d = v := by
  cases v with
  | table r => exact congrArg Value.table (shift_of_lt below)
  | _ => rfl

omit [DecidableEq F] in
theorem Held.shift {v : Option (Value F)} (held : Held n v) :
    v.map (Value.shift n d) = v := by
  cases v with
  | none => rfl
  | some w => exact congrArg some (held w rfl).shift

omit [DecidableEq F] in
theorem lookup_put_shift {κ : Type} [DecidableEq κ] {map map' : Map κ (Value F)}
    (same : ∀ k, map'.lookup k = (map.lookup k).map (Value.shift n d)) (key : κ)
    (v : Option (Value F)) (k : κ) :
    (put map' key (v.map (Value.shift n d))).lookup k =
      ((put map key v).lookup k).map (Value.shift n d) := by
  rw [lookup_put, lookup_put]
  split
  · rfl
  · exact same k

theorem Shifted.later (twins : Shifted n d m forest s s') (loops : t.loops = s.loops)
    (later : Later s t) (i : Nat) (loop : Loop) (begun : m ≤ i) (here : t.loops[i]? = some loop) :
    loop.Old n ∧ LoopOk forest t loop := by
  rw [loops] at here
  obtain ⟨old, ok⟩ := twins.begun i loop begun here
  exact ⟨old, ok.later later⟩

theorem Shifted.quiet (twins : Shifted n d m forest s s') (quiet : Quiet s t)
    (library : Library forest t) (quiet' : Quiet s' t') (library' : Library forest t') :
    Shifted n d m forest t t' where
  left := library
  right := library'
  docs := quiet'.docs.trans (twins.docs.trans quiet.docs.symm)
  origins := quiet'.origins.trans (twins.origins.trans quiet.origins.symm)
  loops := quiet'.loops.trans (twins.loops.trans quiet.loops.symm)
  begun := twins.later quiet.loops (Later.of_tables quiet.tables)
  settings := quiet'.settings.trans (twins.settings.trans quiet.settings.symm)
  old := quiet.tables ▸ twins.old
  length := by rw [quiet.tables, quiet'.tables, twins.length]
  tables := by
    rw [quiet.tables, quiet'.tables]
    exact twins.tables

theorem Shifted.proxy? (twins : Shifted n d m forest s s') (r : Nat) :
    Option.Rel (ProxyShift n d) (s.proxy? r) (s'.proxy? (shift n d r)) := by
  have tables := twins.tables r
  unfold State.proxy?
  generalize s.tables[r]? = table at tables
  generalize s'.tables[shift n d r]? = table' at tables
  cases tables with
  | none => exact .none
  | plain _ => exact .none
  | proxy same _ _ _ => exact .some same

theorem Shifted.view (twins : Shifted n d m forest s s') {q : Proxy F}
    (here : s.proxy? r = some q) :
    ∃ q' place, s'.proxy? (shift n d r) = some q' ∧ ProxyShift n d q q' ∧
      At forest q.doc place ∧ q.cur = place.cursor ∧ place.node.kind? = some q.kind := by
  have tables := twins.tables r
  rw [proxy?_eq_some.1 here] at tables
  cases there : s'.tables[shift n d r]? with
  | none =>
      rw [there] at tables
      cases tables
  | some table =>
      rw [there] at tables
      cases tables with
      | @proxy _ q' place same at_ cursor kind =>
          exact ⟨q', place, proxy?_eq_some.2 there, same, at_, cursor, kind⟩

/-- What is no proxy in the one heap is none in the other. -/
theorem Shifted.no_view (twins : Shifted n d m forest s s') (here : s.proxy? r = none) :
    s'.proxy? (shift n d r) = none := by
  have proxies := twins.proxy? r
  rw [here] at proxies
  generalize s'.proxy? (shift n d r) = q' at proxies
  cases proxies
  rfl

theorem Shifted.adds (twins : Shifted n d m forest s s') {table table' : LuaTable F}
    (adds : Adds [table] s t) (library : Library forest t) (adds' : Adds [table'] s' t')
    (library' : Library forest t') (same : TableShift n d forest (some table) (some table')) :
    Shifted n d m forest t t' where
  left := library
  right := library'
  docs := adds'.docs.trans (twins.docs.trans adds.docs.symm)
  origins := adds'.origins.trans (twins.origins.trans adds.origins.symm)
  loops := adds'.loops.trans (twins.loops.trans adds.loops.symm)
  begun := twins.later adds.loops (later_added adds.tables)
  settings := adds'.settings.trans (twins.settings.trans adds.settings.symm)
  old := by
    have old := twins.old
    rw [adds.tables]
    simp only [List.length_append]
    omega
  length := by
    have length := twins.length
    rw [adds.tables, adds'.tables]
    simp only [List.length_append, List.length_singleton, length]
    omega
  tables r := by
    have next : s'.tables.length = shift n d s.tables.length :=
      twins.length.trans (shift_of_le twins.old).symm
    rw [getElem?_added adds.tables, getElem?_added adds'.tables, next]
    simp only [shift_inj]
    split
    · exact same
    · exact twins.tables r

theorem Shifted.updateProxy (twins : Shifted n d m forest s s') (view : Nat)
    {change change' : Proxy F → Proxy F}
    (same : ∀ q q', ProxyShift n d q q' → ProxyShift n d (change q) (change' q'))
    (fixed : ∀ q, Follows (.proxy q) (.proxy (change q))) :
    Shifted n d m forest (s.updateProxy view change)
      (s'.updateProxy (shift n d view) change') where
  left := twins.left.congr rfl rfl
  right := twins.right.congr rfl rfl
  docs := twins.docs
  origins := twins.origins
  loops := twins.loops
  begun := twins.later rfl (later_updateProxy fixed)
  settings := twins.settings
  old := by
    rw [State.updateProxy, List.length_modify]
    exact twins.old
  length := by
    rw [State.updateProxy, State.updateProxy, List.length_modify, List.length_modify]
    exact twins.length
  tables r := by
    have tables := twins.tables r
    simp only [State.updateProxy, List.getElem?_modify, shift_inj]
    generalize s.tables[r]? = table at tables
    generalize s'.tables[shift n d r]? = table' at tables
    cases tables with
    | none => exact .none
    | plain stays =>
        split
        · exact .plain stays
        · exact .plain stays
    | @proxy q q' place twin at_ cursor kind =>
        split
        · obtain ⟨isKind, -, doc, cur, -⟩ := fixed q
          exact .proxy (same q q' twin) (doc ▸ at_) (cur.trans cursor) (kind.trans (isKind ▸ rfl))
        · exact .proxy twin at_ cursor kind

theorem Shifted.newLoop (twins : Shifted n d m forest s s') (loop : Loop) (old : loop.Old n)
    (ok : LoopOk forest s loop) :
    Action.SameEnd (Shifted n d m forest) Eq (newLoop loop s) (newLoop loop s') := by
  refine ⟨congrArg List.length twins.loops.symm, ?_⟩
  refine { twins with
    left := twins.left.congr rfl rfl
    right := twins.right.congr rfl rfl
    loops := congrArg (· ++ [loop]) twins.loops
    begun := ?_ }
  intro i other begun here
  have later : Later s { s with loops := s.loops ++ [loop] } := Later.of_tables rfl
  rcases Nat.lt_or_ge i s.loops.length with inside | outside
  · rw [List.getElem?_append_left inside] at here
    obtain ⟨old, ok⟩ := twins.begun i other begun here
    exact ⟨old, ok.later later⟩
  · rw [List.getElem?_append_right outside] at here
    obtain rfl := List.mem_singleton.1 (List.mem_of_getElem? here)
    exact ⟨old, ok.later later⟩

theorem Shifted.setLoop (twins : Shifted n d m forest s s') (i : Nat) (loop : Loop)
    (old : loop.Old n) (ok : LoopOk forest s loop) :
    Action.SameEnd (Shifted n d m forest) Eq (setLoop i loop s) (setLoop i loop s') := by
  refine ⟨rfl, ?_⟩
  refine { twins with
    left := twins.left.congr rfl rfl
    right := twins.right.congr rfl rfl
    loops := congrArg (List.set · i loop) twins.loops
    begun := ?_ }
  intro j other begun here
  have later : Later s { s with loops := s.loops.set i loop } := Later.of_tables rfl
  rw [List.getElem?_set] at here
  split at here
  · split at here
    · obtain rfl := Option.some.inj here
      exact ⟨old, ok.later later⟩
    · cases here
  · obtain ⟨old, ok⟩ := twins.begun j other begun here
    exact ⟨old, ok.later later⟩

end Shifts

/-! ## The library -/

/-- What `access` makes of an answer. -/
def answered {F : Type} (expected : Option Expected) :
    Answer F → Except LuaError (Option (Output F))
  | .ok finding => .ok (some finding.output)
  | .error (.notFound, _) => .ok none
  | .error (code, offset) => .error (.access code offset expected)

section Calls

variable {F : Type} [DecidableEq F] {env : Env F} {n d m doc : Nat} {forest : Forest}
  {s s' : State F} {place : Place} {answer : Answer F}
  {run : Document → SkipCache → Located (Output F) × SkipCache}

omit [DecidableEq F] in
theorem Library.access_eq (lib : Library forest s) (at_ : At forest doc place)
    (replies : Replies forest doc place run answer) (expected : Option Expected) :
    ∃ t, Quiet s t ∧ Library forest t ∧
      access doc expected run s = (answered expected answer, t) := by
  have wp : Action.Wp (access doc expected run) s
      (fun output t => (Quiet s t ∧ Library forest t) ∧ answered expected answer = .ok output)
      fun t => (Quiet s t ∧ Library forest t) ∧
        ∀ offset, answer ≠ .error (.notFound, offset) := by
    apply lib.wp_access at_ replies
    intro t quiet library
    match answer with
    | .ok finding => exact ⟨⟨quiet, library⟩, rfl⟩
    | .error (code, offset) =>
        cases code with
        | notFound => exact ⟨⟨quiet, library⟩, rfl⟩
        | _ => exact ⟨⟨quiet, library⟩, fun offset same => by cases same⟩
  have throws := lib.throws_access at_ replies expected
  unfold Action.Wp at wp
  rcases ran : access doc expected run s with ⟨result, t⟩
  rw [ran] at wp
  cases result with
  | ok output => exact ⟨t, wp.1.1, wp.1.2, by rw [wp.2]⟩
  | error error =>
      obtain ⟨code, offset, rfl, rfl⟩ := throws error t ran
      refine ⟨t, wp.1.1, wp.1.2, congrArg (·, t) ?_⟩
      cases code with
      | notFound => exact absurd rfl (wp.2 offset)
      | _ => rfl

theorem Shifted.access (twins : Shifted n d m forest s s') (at_ : At forest doc place)
    (replies : Replies forest doc place run answer) (expected : Option Expected) :
    ∃ t t', Quiet s t ∧ Shifted n d m forest t t' ∧
      access doc expected run s = (answered expected answer, t) ∧
      access doc expected run s' = (answered expected answer, t') := by
  obtain ⟨t, quiet, library, left⟩ := twins.left.access_eq at_ replies expected
  obtain ⟨t', quiet', library', right⟩ := twins.right.access_eq at_ replies expected
  exact ⟨t, t', quiet, twins.quiet quiet library quiet' library', left, right⟩

theorem related_access (at_ : At forest doc place) (replies : Replies forest doc place run answer)
    (expected : Option Expected) :
    Action.Related (Shifted n d m forest)
      (fun output output' => output' = output ∧ answered expected answer = .ok output)
      (access doc expected run) (access doc expected run) := by
  intro s s' twins
  obtain ⟨t, t', -, kept, left, right⟩ := twins.access at_ replies expected
  rw [left, right]
  cases outcome : answered expected answer with
  | ok output => exact ⟨⟨rfl, rfl⟩, kept⟩
  | error error => exact ⟨rfl, kept⟩

theorem related_getter (at_ : At forest doc place) (expected : Option Expected) (g : Getter) :
    Action.Related (Shifted n d m forest)
      (fun output output' => output' = output ∧
        answered expected (readNode env.std place g) = .ok output)
      (getter env doc expected place.cursor g) (getter env doc expected place.cursor g) :=
  related_access at_ (replies_getter (host_validator env) g) expected

/-- What cannot be read is not decoded. -/
theorem Unreadable.not_decoded {parent : Option Nat} {v : Option (Value F)} {t : State F}
    (unreadable : Unreadable env place.node)
    (decoded : Decoded env forest parent doc place s v t) : False := by
  have returns := decoded.returns
  have noKind : place.node.kind? = none := by
    obtain ⟨token, node, -⟩ := unreadable
    rw [node]
    rfl
  rw [noKind] at returns
  obtain ⟨-, w, -, leaf⟩ := returns
  exact unreadable.not_isLeaf leaf

theorem related_decodeCursor (at_ : At forest doc place) (view : Nat) :
    Action.Related (Shifted n d m forest) (fun v v' => v' = v.map (Value.shift n d))
      (decodeCursor env (some view) doc place.cursor)
      (decodeCursor env (some (shift n d view)) doc place.cursor) := by
  intro s s' twins
  have left : Action.Wp (decodeCursor env (some view) doc place.cursor) s _ _ :=
    wp_decodeCursor twins.left at_ (some view)
  have right : Action.Wp (decodeCursor env (some (shift n d view)) doc place.cursor) s' _ _ :=
    wp_decodeCursor twins.right at_ (some (shift n d view))
  have fails : Action.Throws (Fails env place) _ s :=
    throws_decodeCursor_exact twins.left at_ (some view)
  have fails' : Action.Throws (Fails env place) _ s' :=
    throws_decodeCursor_exact twins.right at_ (some (shift n d view))
  unfold Action.Wp at left right
  rcases ran : decodeCursor env (some view) doc place.cursor s with ⟨result, t⟩
  rcases ran' : decodeCursor env (some (shift n d view)) doc place.cursor s' with ⟨result', t'⟩
  rw [ran] at left
  rw [ran'] at right
  cases result with
  | error error =>
      cases result' with
      | ok v' => exact left.unreadable.not_decoded right
      | error error' =>
          exact ⟨(fails error t ran).unique (fails' error' t' ran'),
            twins.quiet left.quiet left.library right.quiet right.library⟩
  | ok v =>
      cases result' with
      | error error' => exact right.unreadable.not_decoded left
      | ok v' =>
          have returns := left.returns
          have returns' := right.returns
          cases kind : place.node.kind? with
          | none =>
              rw [kind] at returns returns'
              obtain ⟨quiet, w, rfl, leaf⟩ := returns
              obtain ⟨quiet', w', rfl, leaf'⟩ := returns'
              obtain rfl := leaf.unique leaf'
              have below : w.Below n := below_of_leaf leaf
              exact ⟨congrArg some below.shift.symm,
                twins.quiet quiet left.library quiet' right.library⟩
          | some kind' =>
              rw [kind] at returns returns'
              obtain ⟨rfl, adds⟩ := returns
              obtain ⟨rfl, adds'⟩ := returns'
              have next : s'.tables.length = shift n d s.tables.length :=
                twins.length.trans (shift_of_le twins.old).symm
              have same : ProxyShift n d (fresh kind' (some view) doc place : Proxy F)
                  (fresh kind' (some (shift n d view)) doc place) :=
                ⟨rfl, rfl, rfl, rfl, rfl, rfl, rfl, .none, fun _ => rfl, fun _ => rfl⟩
              exact ⟨congrArg (fun r => some (Value.table r)) next,
                twins.adds adds left.library adds' right.library (.proxy same at_ rfl kind)⟩

end Calls

/-! ## Caches -/

section Caches

variable {F : Type} [DecidableEq F] {n d m : Nat} {forest : Forest}

theorem related_cachedChild (view : Nat) (key : Bytes) :
    Action.Related (Shifted n d m forest) (fun v v' : Option (Value F) =>
        v' = v.map (Value.shift n d))
      (cachedChild view key) (cachedChild (shift n d view) key) := by
  intro s s' twins
  refine ⟨?_, twins⟩
  have proxies := twins.proxy? view
  generalize s.proxy? view = q at proxies
  generalize s'.proxy? (shift n d view) = q' at proxies
  cases proxies with
  | none => rfl
  | some same => exact same.childCache key

theorem related_rawElem (view i : Nat) :
    Action.Related (Shifted n d m forest) (fun v v' : Option (Value F) =>
        v' = v.map (Value.shift n d))
      (rawElem view i) (rawElem (shift n d view) i) := by
  intro s s' twins
  refine ⟨?_, twins⟩
  have proxies := twins.proxy? view
  generalize s.proxy? view = q at proxies
  generalize s'.proxy? (shift n d view) = q' at proxies
  cases proxies with
  | none => rfl
  | some same => exact same.elems i

theorem related_setCachedChild (view : Nat) (key : Bytes) (v : Option (Value F)) :
    Action.Related (Shifted n d m forest) Eq (setCachedChild view key v)
      (setCachedChild (shift n d view) key (v.map (Value.shift n d))) := by
  apply Action.related_modify
  intro s s' twins
  apply twins.updateProxy
  · intro q q' same
    exact ⟨same.kind, same.dirty, same.doc, same.cur, same.bs, same.be, same.parent, same.order,
      lookup_put_shift same.childCache key v, same.elems⟩
  · intro q
    exact ⟨rfl, rfl, rfl, rfl, rfl, rfl⟩

theorem related_setElem (view i : Nat) (v : Option (Value F)) :
    Action.Related (Shifted n d m forest) Eq
      (Action.modify fun s => s.updateProxy view fun q => { q with elems := put q.elems i v })
      (Action.modify fun s => s.updateProxy (shift n d view) fun q =>
        { q with elems := put q.elems i (v.map (Value.shift n d)) } : Act F Unit) := by
  apply Action.related_modify
  intro s s' twins
  apply twins.updateProxy
  · intro q q' same
    exact ⟨same.kind, same.dirty, same.doc, same.cur, same.bs, same.be, same.parent, same.order,
      same.childCache, lookup_put_shift same.elems i v⟩
  · intro q
    exact ⟨rfl, rfl, rfl, rfl, rfl, rfl⟩

end Caches

/-! ## Loops over members -/

section Loops

variable {F : Type} [DecidableEq F] {env : Env F} {n d m : Nat} {forest : Forest} {α α' : Type}
  {good : α → α' → Prop} {place : Place} {q q' : Proxy F}
  {body : α → Bytes → Cursor → Act F α} {body' : α' → Bytes → Cursor → Act F α'}

theorem related_eachEntry {doc : Nat} (at_ : At forest doc place)
    (object : place.node.kind? = some .obj)
    (step : ∀ child ∈ place.children, ∀ acc acc', good acc acc' →
      Action.Related (Shifted n d m forest) good (body acc (keyText child) child.cursor)
        (body' acc' (keyText child) child.cursor))
    (fuel k : Nat) {acc : α} {acc' : α'} (start : good acc acc') :
    Action.Related (Shifted n d m forest) good (eachEntry env doc body fuel (iterPlace place k) acc)
      (eachEntry env doc body' fuel (iterPlace place k) acc') := by
  induction fuel generalizing k acc acc' with
  | zero => exact Action.related_raise _
  | succ fuel ih =>
      rw [eachEntry, eachEntry]
      apply (related_access at_ (replies_iterNext (host_validator env) object k) none).bind
      rintro reply _ ⟨rfl, outcome⟩
      cases here : place.children[k]? with
      | none =>
          rw [here] at outcome
          obtain rfl := Except.ok.inj outcome
          exact Action.related_pure start
      | some child =>
          rw [here] at outcome
          obtain rfl := Except.ok.inj outcome
          apply (step child (List.mem_of_getElem? here) acc acc' start).bind
          intro next next' kept
          exact ih (k + 1) kept

theorem related_forEntries (at_ : At forest q.doc place) (cursor : q.cur = place.cursor)
    (object : place.node.kind? = some .obj) (same : ProxyShift n d q q')
    (step : ∀ child ∈ place.children, ∀ acc acc', good acc acc' →
      Action.Related (Shifted n d m forest) good (body acc (keyText child) child.cursor)
        (body' acc' (keyText child) child.cursor))
    {acc : α} {acc' : α'} (start : good acc acc') :
    Action.Related (Shifted n d m forest) good (forEntries env q body acc)
      (forEntries env q' body' acc') := by
  have init : Action.Related (Shifted n d m forest)
      (fun it it' => it' = it ∧ it = iterPlace place 0)
      (newObjectIter q) (newObjectIter q') := by
    rw [newObjectIter, newObjectIter, same.doc, same.cur, cursor]
    apply (related_access at_ (replies_iterInit object) _).bind
    rintro reply _ ⟨rfl, outcome⟩
    obtain rfl := Except.ok.inj outcome
    exact Action.related_pure ⟨rfl, rfl⟩
  rw [forEntries, forEntries, same.doc]
  apply init.bind
  rintro it _ ⟨rfl, rfl⟩
  exact related_eachEntry at_ object step _ 0 start

end Loops

end QJson.Table
