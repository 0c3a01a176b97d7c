import QJson.Table.Sessions

/-!
# Reads touch nothing

Every step but an assignment keeps all documents the results of parses and all proxies
clean: only the loops of the `__newindex` functions set a dirty flag.
-/

namespace QJson.Table

open Rfc8259 Validate Doc Decode Ffi Lua

/-- Documents are the results of parses of strings, and no proxy is dirty. -/
structure Untouched {F : Type} [DecidableEq F] (env : Env F) (s : State F) : Prop where
  parsed : ∀ doc ∈ s.docs, ∃ text : Bytes, text.length ≤ luaMaxString ∧
    parseWithOptions (dispatch env.scanner env.strings) text Options.default = .ok doc
  clean : ∀ r q, s.proxy? r = some q → q.dirty = false

/-- The steps that assign nothing. -/
def Op.IsRead {F : Type} : Op F → Prop
  | .newindex _ _ _ => False
  | _ => True

section Primitives

variable {F : Type} [DecidableEq F] {env : Env F} {s s' : State F}

theorem Untouched.congr (untouched : Untouched env s) (docs : s'.docs = s.docs)
    (tables : s'.tables = s.tables) : Untouched env s' where
  parsed := by rw [docs]; exact untouched.parsed
  clean r q here := untouched.clean r q ((proxy?_congr tables r).symm.trans here)

/-- A table that is not a dirty proxy. -/
def IsClean (table : LuaTable F) : Prop := ∀ q, table = .proxy q → q.dirty = false

/-- A condition that outlasts new tables that are clean, and changes of proxies that leave the
dirty flag and the parent alone. -/
class Stable (good : State F → Prop) : Prop where
  aside : ∀ {s s' : State F}, good s → s'.docs = s.docs → s'.tables = s.tables → good s'
  newTable : ∀ {s s' : State F} {table : LuaTable F}, good s → IsClean table →
    s'.docs = s.docs → s'.tables = s.tables ++ [table] → good s'
  updateProxy : ∀ {s : State F} {r : Nat} {change : Proxy F → Proxy F}, good s →
    (∀ q, (change q).dirty = q.dirty ∧ (change q).parent = q.parent) →
    good (s.updateProxy r change)

/-- The same of a condition that may look at the provenance records. -/
class Lasting (good : State F → Prop) : Prop where
  aside : ∀ {s s' : State F}, good s → s'.docs = s.docs → s'.tables = s.tables →
    s'.origins = s.origins → good s'
  newTable : ∀ {s s' : State F} {table : LuaTable F}, good s → IsClean table →
    s'.docs = s.docs → s'.tables = s.tables ++ [table] → s'.origins = s.origins → good s'
  updateProxy : ∀ {s : State F} {r : Nat} {change : Proxy F → Proxy F}, good s →
    (∀ q, (change q).dirty = q.dirty ∧ (change q).parent = q.parent) →
    good (s.updateProxy r change)

/-- The same of a condition that may look at everything but the cells. -/
class Keeping (good : State F → Prop) : Prop where
  aside : ∀ {s s' : State F}, good s → s'.docs = s.docs → s'.tables = s.tables →
    s'.origins = s.origins → s'.loops = s.loops → s'.settings = s.settings → good s'
  newTable : ∀ {s s' : State F} {table : LuaTable F}, good s → IsClean table →
    s'.docs = s.docs → s'.tables = s.tables ++ [table] → s'.origins = s.origins →
    s'.loops = s.loops → s'.settings = s.settings → good s'
  updateProxy : ∀ {s : State F} {r : Nat} {change : Proxy F → Proxy F}, good s →
    (∀ q, (change q).dirty = q.dirty ∧ (change q).parent = q.parent) →
    good (s.updateProxy r change)

/-- The same of a condition that outlasts new provenance records. -/
class Growing (good : State F → Prop) : Prop extends Keeping good where
  record : ∀ {s s' : State F}, good s → s'.docs = s.docs → s'.tables = s.tables →
    s.origins <+: s'.origins → s'.loops = s.loops → s'.settings = s.settings → good s'

instance {good : State F → Prop} [Lasting good] : Keeping good where
  aside kept docs tables origins _ _ := Lasting.aside kept docs tables origins
  newTable kept clean docs tables origins _ _ := Lasting.newTable kept clean docs tables origins
  updateProxy := Lasting.updateProxy

instance {good : State F → Prop} [Stable good] : Lasting good where
  aside kept docs tables _ := Stable.aside kept docs tables
  newTable kept clean docs tables _ := Stable.newTable kept clean docs tables
  updateProxy := Stable.updateProxy

instance {good : State F → Prop} [Stable good] : Growing good where
  record kept docs tables _ _ _ := Stable.aside kept docs tables

instance : Stable (Untouched env) where
  aside untouched docs tables := untouched.congr docs tables
  newTable {s s' table} untouched clean docs tables := by
    refine ⟨by rw [docs]; exact untouched.parsed, fun r q here => ?_⟩
    have at_ := proxy?_eq_some.1 here
    rw [getElem?_added tables] at at_
    split at at_
    · exact clean q (Option.some.inj at_)
    · exact untouched.clean r q (proxy?_eq_some.2 at_)
  updateProxy {s r change} untouched kept := by
    refine ⟨untouched.parsed, fun i q here => ?_⟩
    rcases (getElem?_updateProxy change).1 (proxy?_eq_some.1 here) with
      ⟨old, -, at_, same⟩ | ⟨at_, -⟩
    · obtain rfl := LuaTable.proxy.inj same
      rw [(kept old).1]
      exact untouched.clean i old (proxy?_eq_some.2 at_)
    · exact untouched.clean i q (proxy?_eq_some.2 at_)

end Primitives

section Steps

variable {F : Type} {good : State F → Prop} [Keeping good]

theorem preserves_newTable {table : LuaTable F} (clean : IsClean table) :
    Action.Preserves good (newTable table : Act F Nat) :=
  fun _ kept => Keeping.newTable kept clean rfl rfl rfl rfl rfl

theorem preserves_updateProxy {r : Nat} {change : Proxy F → Proxy F}
    (kept : ∀ q, (change q).dirty = q.dirty ∧ (change q).parent = q.parent) :
    Action.Preserves good
      (Action.modify fun s => s.updateProxy r change : Act F Unit) :=
  Action.preserves_modify fun _ before => Keeping.updateProxy before kept

omit [Keeping good] in
/-- A change that leaves the documents, the tables and the records alone. -/
theorem preserves_aside [Lasting good] {change : State F → State F} (docs : ∀ s, (change s).docs = s.docs)
    (tables : ∀ s, (change s).tables = s.tables)
    (origins : ∀ s, (change s).origins = s.origins) :
    Action.Preserves good (Action.modify change : Act F Unit) :=
  Action.preserves_modify fun s kept => Lasting.aside kept (docs s) (tables s) (origins s)

theorem preserves_setSpan (sz : Nat × Nat) :
    Action.Preserves good (Action.modify fun s => { s with sz } : Act F Unit) :=
  Action.preserves_modify fun _ kept => Keeping.aside kept rfl rfl rfl rfl rfl

theorem preserves_callLib (d : Nat)
    (run : Document → SkipCache → Located (Output F) × SkipCache) :
    Action.Preserves good (callLib d run) := by
  intro s kept
  cases docAt : s.docs[d]? with
  | none =>
      simp only [Action.Wp, callLib, docAt]
      exact kept
  | some document =>
      cases cellsAt : s.cells[d]? with
      | none =>
          simp only [Action.Wp, callLib, docAt, cellsAt]
          exact kept
      | some cells =>
          simp only [Action.Wp, callLib, docAt, cellsAt]
          exact Keeping.aside kept rfl rfl rfl rfl rfl

theorem preserves_access (d : Nat) (expected : Option Expected)
    (run : Document → SkipCache → Located (Output F) × SkipCache) :
    Action.Preserves good (access d expected run) := by
  refine (preserves_callLib d run).bind fun reply => ?_
  rw [check.eq_def]
  split
  · exact Action.preserves_pure _
  · exact Action.preserves_pure _
  · exact Action.preserves_get.bind fun _ => Action.preserves_raise _

end Steps

section Reads

variable {F : Type} [DecidableEq F] {env : Env F} {good : State F → Prop} [Keeping good]

theorem preserves_getter (d : Nat) (expected : Option Expected) (cur : Cursor) (g : Getter) :
    Action.Preserves good (getter env d expected cur g) :=
  preserves_access d expected _

theorem preserves_decodeCursor (parent : Option Nat) (d : Nat) (cur : Cursor) :
    Action.Preserves good (decodeCursor env parent d cur) := by
  have wrapped (kind : Kind) : Action.Preserves good (do
      let r ← newTable (.proxy (← wrapChild kind parent d cur))
      return some (.table r) : Act F (Option (Value F))) := by
    intro s kept
    have calls := @preserves_callLib F good _ d
      (fun document cache => ((qjsonCursorBytes document cur : Located (Output F)), cache)) s
      kept
    rw [Action.wp_bind, wrapChild, Action.wp_bind]
    refine calls.mono (fun reply s₁ kept₁ => ?_) fun _ => id
    have fresh (s₂ : State F) (kept₂ : good s₂) :=
      @preserves_newTable F good _
        (.proxy ⟨kind, parent, false, d, cur, s₂.sz.1, s₂.sz.2, none, ∅, ∅⟩)
        (fun q same => by cases same; rfl) s₂ kept₂
    split
    · exact fresh _ (Keeping.aside kept₁ rfl rfl rfl rfl rfl)
    · exact fresh _ kept₁
  refine (preserves_getter d none cur .typeof).bind fun reply => ?_
  split
  · rename_i type
    cases type with
    | str | num | bool =>
        refine (preserves_getter d _ cur _).bind fun reply => ?_
        split <;> exact Action.preserves_pure _
    | null => exact Action.preserves_pure _
    | obj => exact wrapped .obj
    | arr => exact wrapped .arr
  · exact Action.preserves_pure _

omit [DecidableEq F] [Keeping good] in
theorem preserves_cachedChild (view : Nat) (key : Bytes) :
    Action.Preserves good (cachedChild view key : Act F (Option (Value F))) :=
  Action.preserves_get.bind fun _ => Action.preserves_pure _

omit [DecidableEq F] in
theorem preserves_setCachedChild (view : Nat) (key : Bytes) (v : Option (Value F)) :
    Action.Preserves good (setCachedChild view key v) :=
  preserves_updateProxy fun _ => ⟨rfl, rfl⟩

omit [DecidableEq F] [Keeping good] in
theorem preserves_rawElem (view i : Nat) :
    Action.Preserves good (rawElem view i : Act F (Option (Value F))) :=
  Action.preserves_get.bind fun _ => Action.preserves_pure _

theorem preserves_readObjectField (t : Nat) (q : Proxy F) (key : Bytes) :
    Action.Preserves good (readObjectField env t q key) := by
  rw [readObjectField]
  split
  · exact Action.preserves_pure _
  · split
    · exact Action.preserves_pure _
    · refine (preserves_access _ _ _).bind fun reply => ?_
      split
      · refine (preserves_decodeCursor _ _ _).bind fun v => ?_
        split
        · exact (preserves_setCachedChild _ _ _).bind fun _ => Action.preserves_pure _
        · exact Action.preserves_pure _
      · exact Action.preserves_pure _

theorem preserves_readArrayIndex (t : Nat) (q : Proxy F) (x : F) :
    Action.Preserves good (readArrayIndex env t q x) := by
  rw [readArrayIndex]
  split
  · exact Action.preserves_pure _
  · refine (preserves_access _ _ _).bind fun reply => ?_
    split
    · refine (preserves_decodeCursor _ _ _).bind fun v => ?_
      split
      · exact (preserves_updateProxy fun _ => ⟨by rfl, by rfl⟩).bind fun _ =>
          Action.preserves_pure _
      · exact Action.preserves_pure _
    · exact Action.preserves_pure _

theorem preserves_index (t : Nat) (k : Option (Value F)) :
    Action.Preserves good (index env t k) := by
  refine Action.preserves_get.bind fun s => ?_
  split
  · exact Action.preserves_raise _
  · exact Action.preserves_pure _
  · split
    · exact Action.preserves_pure _
    · split
      · exact preserves_readObjectField _ _ _
      · exact preserves_readArrayIndex _ _ _
      · exact Action.preserves_pure _

/-! ## Loops -/

omit [DecidableEq F] in
theorem preserves_newObjectIter (q : Proxy F) :
    Action.Preserves good (newObjectIter q : Act F Iter) := by
  refine (preserves_access _ _ _).bind fun reply => ?_
  split
  · exact Action.preserves_pure _
  · exact Action.preserves_raise _

theorem preserves_forEntries {α : Type} (q : Proxy F) {body : α → Bytes → Cursor → Act F α}
    (step : ∀ acc key cur, Action.Preserves good (body acc key cur)) (acc : α) :
    Action.Preserves good (forEntries env q body acc) := by
  have rounds (fuel : Nat) (it : Iter) (acc : α) :
      Action.Preserves good (eachEntry env q.doc body fuel it acc) := by
    induction fuel generalizing it acc with
    | zero => exact Action.preserves_raise _
    | succ fuel ih =>
        refine (preserves_access _ _ _).bind fun reply => ?_
        split
        · exact (step _ _ _).bind fun acc => ih _ acc
        · exact Action.preserves_pure _
  exact (preserves_newObjectIter q).bind fun it => rounds _ it acc

omit [DecidableEq F] in
theorem preserves_forElements {α : Type} (q : Proxy F) {body : α → Nat → Cursor → Act F α}
    (step : ∀ acc i cur, Action.Preserves good (body acc i cur)) (acc : α) :
    Action.Preserves good (forElements q body acc) := by
  have rounds (fuel i : Nat) (acc : α) :
      Action.Preserves good (eachElement q body fuel i acc) := by
    induction fuel generalizing i acc with
    | zero => exact Action.preserves_raise _
    | succ fuel ih =>
        refine (preserves_access _ _ _).bind fun reply => ?_
        split
        · exact (step _ _ _).bind fun acc => ih _ acc
        · exact Action.preserves_pure _
  exact Action.preserves_get.bind fun s => rounds _ 0 acc

omit [DecidableEq F] [Keeping good] in
theorem preserves_newLoop [Lasting good] (loop : Loop) :
    Action.Preserves good (newLoop loop : Act F Nat) :=
  fun _ kept => Lasting.aside kept rfl rfl rfl

omit [DecidableEq F] [Keeping good] in
theorem preserves_setLoop [Lasting good] (loop : Nat) (state : Loop) :
    Action.Preserves good (setLoop loop state : Act F Unit) :=
  preserves_aside (fun _ => rfl) (fun _ => rfl) fun _ => rfl

omit [DecidableEq F] [Keeping good] in
theorem preserves_objectPairs [Lasting good] (view : Nat) (q : Proxy F) :
    Action.Preserves good (objectPairs view q) := by
  rw [objectPairs]
  split
  · exact preserves_newLoop _
  · exact (preserves_newObjectIter q).bind fun _ => preserves_newLoop _

omit [Keeping good] in
theorem preserves_lazyObjectIter [Lasting good] (loop view : Nat) (q : Proxy F) (it : Iter)
    (seen : List Bytes) :
    Action.Preserves good (lazyObjectIter env loop view q it seen) := by
  refine (preserves_access _ _ _).bind fun reply => ?_
  split
  · refine (preserves_setLoop _ _).bind fun _ => ?_
    split
    · exact (preserves_setCachedChild _ _ _).bind fun _ =>
        (preserves_decodeCursor _ _ _).bind fun _ => Action.preserves_pure _
    · refine (preserves_cachedChild _ _).bind fun cached => ?_
      split
      · exact Action.preserves_pure _
      · refine (preserves_decodeCursor _ _ _).bind fun v => ?_
        split
        · exact (preserves_setCachedChild _ _ _).bind fun _ => Action.preserves_pure _
        · exact Action.preserves_pure _
  · exact Action.preserves_pure _

omit [Keeping good] in
theorem preserves_lazyArrayIter [Lasting good] (loop view i : Nat) :
    Action.Preserves good (lazyArrayIter env loop view i) := by
  refine Action.preserves_get.bind fun s => ?_
  split
  · exact Action.preserves_raise _
  · refine (preserves_access _ _ _).bind fun reply => ?_
    split
    · exact (preserves_setLoop _ _).bind fun _ =>
        (preserves_decodeCursor _ _ _).bind fun _ => Action.preserves_pure _
    · exact Action.preserves_pure _

omit [Keeping good] in
theorem preserves_nextRound [Lasting good] (loop : Nat) :
    Action.Preserves good (nextRound env loop) := by
  refine Action.preserves_get.bind fun s => ?_
  split
  · exact Action.preserves_pure _
  · refine (preserves_setLoop _ _).bind fun _ => ?_
    split
    · exact Action.preserves_pure _
    · split <;> exact Action.preserves_pure _
  · split
    · exact Action.preserves_pure _
    · refine (preserves_lazyObjectIter _ _ _ _ _).bind fun entry => ?_
      split <;> exact Action.preserves_pure _
  · refine (preserves_lazyArrayIter _ _ _).bind fun element => ?_
    split <;> exact Action.preserves_pure _

theorem preserves_lazyLen (q : Proxy F) :
    Action.Preserves good (lazyLen env q) := by
  rw [lazyLen]
  split
  · exact Action.preserves_pure _
  · refine (preserves_getter _ _ _ _).bind fun reply => ?_
    split <;> exact Action.preserves_pure _

end Reads

end QJson.Table
