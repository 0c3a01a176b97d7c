import QJson.Action.Reach
import QJson.Table.Ordering

/-!
# What materialization leaves behind

Materialization calls itself on the children that a proxy shows and returns every plain
table as it is.  So its result holds a proxy exactly when it meets a plain table that does.
-/

namespace QJson.Table

open Rfc8259 Validate Doc Decode Ffi Lua Relation

section Statements

variable {F : Type} [DecidableEq F] (env : Env F) (s : State F)

/-- A plain table holds a key or a value. -/
inductive Inside : Value F → Value F → Prop where
  | value {r : Nat} {p : Plain F} {k : Key F} {v : Value F} :
      s.plain? r = some p → p.entries.lookup k = some v → Inside (.table r) v
  | key {r : Nat} {p : Plain F} {k v : Value F} :
      s.plain? r = some p → p.entries.lookup (.val k) = some v → Inside (.table r) k

/-- A lazy proxy is, or is anywhere inside, a value. -/
def HoldsProxy (v : Value F) : Prop :=
  ∃ r q, ReflTransGen (Inside s) v (.table r) ∧ s.proxy? r = some q

/-- The keys that an iterator lists. -/
def keysFrom (host : Host F) (doc : Document) : Nat → Iter → List Bytes
  | 0, _ => []
  | fuel + 1, it =>
      match iterNext host doc it with
      | .ok (key, _, it) => key :: keysFrom host doc fuel it
      | .error _ => []

/-- The keys of the object under a proxy as they stand in the source. -/
def sourceKeys (q : Proxy F) : List Bytes :=
  match s.docs[q.doc]? with
  | none => []
  | some doc =>
      match iterInit doc q.cur with
      | .ok it => keysFrom env.host doc (it.idxEnd + 1 - it.idxCurrent) it
      | .error _ => []

/-- The children that a proxy shows to materialization, apart from those that are decoded
afresh: the elements that were read, the values of the order state, or the children that are
cached under a key of the source, which has to occur once where the last member counts. -/
def Shown (keepOrigin : Bool) (q : Proxy F) (v : Value F) : Prop :=
  match q.kind with
  | .arr => ∃ i, q.elems.lookup i = some v
  | .obj =>
      match keepOrigin, q.order with
      | false, some order => ∃ k ∈ order.keys, order.values.lookup k = some v
      | _, _ =>
          if keepOrigin ∨ q.dirty then ∃ k, cachedOnce q (sourceKeys env s q) k = some v
          else ∃ k ∈ sourceKeys env s q, q.childCache.lookup k = some v

/-- Materialization, with or without `keep_origin`, calls itself on a child; provenance is
given up below a dirty proxy. -/
inductive Descends : Bool × Value F → Bool × Value F → Prop where
  | child {keepOrigin : Bool} {r : Nat} {q : Proxy F} {v : Value F} :
      s.proxy? r = some q → Shown env s (keepOrigin && !q.dirty) q v →
      Descends (keepOrigin, .table r) (keepOrigin && !q.dirty, v)

/-- Materialization meets a plain table that holds a proxy. -/
def MeetsHolder (keepOrigin : Bool) (v : Value F) : Prop :=
  ∃ mode r p, ReflTransGen (Descends env s) (keepOrigin, v) (mode, .table r) ∧
    s.plain? r = some p ∧ HoldsProxy s (.table r)

end Statements

/-! ## The keys of the source -/

section Keys

variable {F : Type} [DecidableEq F] {env : Env F} {forest : Forest} {s : State F} {q : Proxy F}
  {place : Place}

/-- The keys of the source are those of the node. -/
theorem sourceKeys_eq (library : Library forest s) (at_ : At forest q.doc place)
    (cursor : q.cur = place.cursor) (object : place.node.kind? = some .obj) :
    sourceKeys env s q = place.children.map keyText := by
  obtain ⟨doc, cells, tree, start, path, docAt, -, -, found, rep, -⟩ := library.doc at_
  have from_ (fuel k : Nat)
      (room : (iterPlace place k).idxEnd < (iterPlace place k).idxCurrent + fuel) :
      keysFrom env.host doc fuel (iterPlace place k) = (place.children.drop k).map keyText := by
    induction fuel generalizing k with
    | zero =>
        have := iterPlace_le rep found object k
        omega
    | succ fuel ih =>
        rw [keysFrom, iterNext_eq rep found (host_validator env) object, nextNode]
        cases here : place.children[k]? with
        | none =>
            rw [List.drop_eq_nil_of_le (List.getElem?_eq_none_iff.1 here)]
            rfl
        | some child =>
            have forward := iterPlace_forward rep found object here
            have stop : (iterPlace place (k + 1)).idxEnd = (iterPlace place k).idxEnd := rfl
            obtain ⟨inside, rfl⟩ := List.getElem?_eq_some_iff.1 here
            rw [List.drop_eq_getElem_cons inside, List.map_cons, ← ih (k + 1) (by omega)]
            rfl
  obtain ⟨pos, -, init⟩ := iterInit_eq rep found
  rw [if_pos object] at init
  have inside := iterPlace_le rep found object 0
  rw [sourceKeys, docAt, cursor]
  simp only [init]
  rw [from_ _ 0 (by omega), List.drop_zero]

end Keys

/-! ## How the heap grows -/

section Grown

variable {F : Type} [DecidableEq F] {env : Env F} {forest : Forest} {s s' s'' : State F}

/-- What materialization does to the heap: tables are added, and dirty objects get their
order state. -/
structure Grown (env : Env F) (forest : Forest) (s s' : State F) : Prop where
  docs : s'.docs = s.docs
  plain : ∀ (r : Nat) (p : Plain F), s.plain? r = some p → s'.plain? r = some p
  proxy : ∀ (r : Nat) (q : Proxy F), s.proxy? r = some q → s'.proxy? r = some q ∨
    q.kind = .obj ∧ q.order = none ∧ q.dirty = true ∧ ∃ o place, At forest q.doc place ∧
      q.cur = place.cursor ∧ place.node.kind? = some .obj ∧
      OrderOf env s' r q place.children o ∧ s'.proxy? r = some { q with order := some o }

/-- A proxy that is clean or has its order state stays as it is. -/
theorem Grown.same (grown : Grown env forest s s') {r : Nat} {q : Proxy F}
    (here : s.proxy? r = some q)
    (settled : q.kind = .arr ∨ q.order.isSome ∨ q.dirty = false) : s'.proxy? r = some q := by
  rcases grown.proxy r q here with same | ⟨kind, order, dirty, -⟩
  · exact same
  · rcases settled with arr | some_ | clean
    · rw [arr] at kind
      cases kind
    · rw [order] at some_
      cases some_
    · rw [clean] at dirty
      cases dirty

theorem Yields.grown {view d : Nat} {place : Place} {v : Option (Value F)}
    (yields : Yields env s view d place v) (grown : Grown env forest s s') :
    Yields env s' view d place v := by
  unfold Yields at yields ⊢
  cases kind : place.node.kind? with
  | none =>
      rw [kind] at yields
      exact yields
  | some kind' =>
      rw [kind] at yields
      obtain ⟨r, same, here⟩ := yields
      exact ⟨r, same, grown.same here (.inr (.inr rfl))⟩

theorem Grown.refl (s : State F) : Grown env forest s s :=
  ⟨rfl, fun _ _ => id, fun _ _ => .inl⟩

theorem Grown.trans (first : Grown env forest s s') (second : Grown env forest s' s'') :
    Grown env forest s s'' := by
  refine ⟨second.docs.trans first.docs, fun r p here => second.plain r p (first.plain r p here),
    fun r q here => ?_⟩
  rcases first.proxy r q here with same | ⟨kind, order, dirty, o, place, at_, cursor, object,
    isOrder, here'⟩
  · exact second.proxy r q same
  · exact .inr ⟨kind, order, dirty, o, place, at_, cursor, object,
      isOrder.imp fun _ _ yields => Yields.grown yields second, second.same here' (.inr (.inl rfl))⟩

theorem Opens.grown (opens : Opens s s') : Grown env forest s s' :=
  ⟨opens.docs, fun _ _ => opens.plain?, fun _ _ here => .inl (opens.proxy? here)⟩

theorem Grown.later (grown : Grown env forest s s') : Later s s' := by
  intro r table here
  cases table with
  | proxy q =>
      rcases grown.proxy r q (proxy?_eq_some.2 here) with same | ⟨-, -, -, o, -, -, -, -, -, same⟩
      · exact ⟨_, proxy?_eq_some.1 same, Follows.refl _⟩
      · exact ⟨_, proxy?_eq_some.1 same, rfl, rfl, rfl, rfl, rfl, rfl⟩
  | plain p =>
      exact ⟨_, plain?_eq_some.1 (grown.plain r p (plain?_eq_some.2 here)), Follows.refl _⟩

theorem Grown.length_le (grown : Grown env forest s s') :
    s.tables.length ≤ s'.tables.length := grown.later.length_le

theorem grown_added {table : LuaTable F} (adds : Adds [table] s s') : Grown env forest s s' := by
  have old {r : Nat} {other : LuaTable F} (here : s.tables[r]? = some other) :
      s'.tables[r]? = some other := by
    rw [getElem?_added adds.tables, if_neg (Nat.ne_of_lt (List.getElem?_eq_some_iff.1 here).1),
      here]
  exact ⟨adds.docs, fun r p here => plain?_eq_some.2 (old (plain?_eq_some.1 here)),
    fun r q here => .inl (proxy?_eq_some.2 (old (proxy?_eq_some.1 here)))⟩

/-- A table that was there is a proxy or plain, now as before. -/
theorem Grown.plain_old (grown : Grown env forest s s') {r : Nat} {p : Plain F}
    (old : r < s.tables.length) (here : s'.plain? r = some p) : s.plain? r = some p := by
  cases table : s.tables[r]? with
  | none => exact absurd (List.getElem?_eq_none_iff.1 table) (Nat.not_le.2 old)
  | some t =>
      cases t with
      | plain p' =>
          have same := grown.plain r p' (plain?_eq_some.2 table)
          obtain rfl := Option.some.inj (same.symm.trans here)
          exact plain?_eq_some.2 table
      | proxy q =>
          rcases grown.proxy r q (proxy?_eq_some.2 table) with
            same | ⟨-, -, -, o, -, -, -, -, -, same⟩
          · have clash := (proxy?_eq_some.1 same).symm.trans (plain?_eq_some.1 here)
            cases clash
          · have clash := (proxy?_eq_some.1 same).symm.trans (plain?_eq_some.1 here)
            cases clash

/-- A proxy that was there is as it was, or has its order state now. -/
theorem Grown.proxy_old (grown : Grown env forest s s') {r : Nat} {q' : Proxy F}
    (old : r < s.tables.length) (here : s'.proxy? r = some q') :
    ∃ q, s.proxy? r = some q ∧ (q' = q ∨ q.kind = .obj ∧ q.order = none ∧ q.dirty = true ∧
      ∃ o place, At forest q.doc place ∧ q.cur = place.cursor ∧
        place.node.kind? = some .obj ∧ OrderOf env s' r q place.children o ∧
        q' = { q with order := some o }) := by
  cases table : s.tables[r]? with
  | none => exact absurd (List.getElem?_eq_none_iff.1 table) (Nat.not_le.2 old)
  | some t =>
      cases t with
      | plain p =>
          have same := grown.plain r p (plain?_eq_some.2 table)
          have clash := (plain?_eq_some.1 same).symm.trans (proxy?_eq_some.1 here)
          cases clash
      | proxy q =>
          refine ⟨q, proxy?_eq_some.2 table, ?_⟩
          rcases grown.proxy r q (proxy?_eq_some.2 table) with same | ⟨kind, order, dirty, o, place,
            at_, cursor, object, isOrder, same⟩
          · exact .inl (Option.some.inj (here.symm.trans same))
          · exact .inr ⟨kind, order, dirty, o, place, at_, cursor, object, isOrder,
              Option.some.inj (here.symm.trans same)⟩

end Grown

/-! ## What does not change as the heap grows -/

section Frame

variable {F : Type} [DecidableEq F] {env : Env F} {forest : Forest} {s s' : State F}

/-- What a plain table holds is there. -/
theorem Inside.below (wf : Wf forest s) {v w : Value F} (inside : Inside s v w) :
    w.Below s.tables.length := by
  cases inside with
  | value here entry => exact (wf.plain here _ _ entry).2
  | key here entry => exact (wf.plain here _ _ entry).1

/-- The tables that were there hold a proxy as before. -/
theorem Grown.holdsProxy (grown : Grown env forest s s') (wf : Wf forest s) {v : Value F}
    (below : v.Below s.tables.length) : HoldsProxy s' v ↔ HoldsProxy s v := by
  constructor
  · rintro ⟨r, q', path, here⟩
    have step : ∀ a b : Value F, a.Below s.tables.length → Inside s' a b →
        b.Below s.tables.length ∧ Inside s a b := by
      intro a b old inside
      have back : Inside s a b := by
        cases inside with
        | value here entry => exact .value (grown.plain_old old here) entry
        | key here entry => exact .key (grown.plain_old old here) entry
      exact ⟨back.below wf, back⟩
    obtain ⟨old, path'⟩ := reflTransGen_on step below path
    obtain ⟨q, before, -⟩ := grown.proxy_old old here
    exact ⟨r, q, path', before⟩
  · rintro ⟨r, q, path, here⟩
    have step : ∀ a b : Value F, True → Inside s a b → True ∧ Inside s' a b := by
      intro a b _ inside
      cases inside with
      | value here entry => exact ⟨trivial, .value (grown.plain _ _ here) entry⟩
      | key here entry => exact ⟨trivial, .key (grown.plain _ _ here) entry⟩
    have path' := (reflTransGen_on step trivial path).2
    rcases grown.proxy r q here with same | ⟨-, -, -, o, -, -, -, -, -, same⟩
    · exact ⟨r, _, path', same⟩
    · exact ⟨r, _, path', same⟩

/-- The children that a proxy shows are there. -/
theorem Shown.below (wf : Wf forest s) {r : Nat} {q : Proxy F} (here : s.proxy? r = some q)
    {keepOrigin : Bool} {v : Value F} (shown : Shown env s keepOrigin q v) :
    v.Below s.tables.length := by
  obtain ⟨place, ok⟩ := wf.proxy here
  have once {keys : List Bytes} {k : Bytes} (cached : cachedOnce q keys k = some v) :
      v.Below s.tables.length := by
    rw [cachedOnce] at cached
    split at cached
    · exact ok.childCache k v cached
    · cases cached
  unfold Shown at shown
  split at shown
  · obtain ⟨i, entry⟩ := shown
    exact (ok.elems i v entry).1
  · split at shown
    · rename_i order isOrder
      obtain ⟨k, -, entry⟩ := shown
      exact ok.order order isOrder k v entry
    · split at shown
      · obtain ⟨k, cached⟩ := shown
        exact once cached
      · obtain ⟨k, -, cached⟩ := shown
        exact ok.childCache k v cached

/-- A value without children: a leaf, or an unused proxy. -/
def Childless (s : State F) (v : Value F) : Prop :=
  match v with
  | .table r => ∃ kind parent doc place, s.proxy? r = some (fresh kind parent doc place)
  | _ => True

theorem Childless.not_shown {r : Nat} (childless : Childless s (.table r : Value F))
    {q : Proxy F} (here : s.proxy? r = some q) {keepOrigin : Bool} {v : Value F} :
    ¬ Shown env s keepOrigin q v := by
  obtain ⟨kind, parent, doc, place, same⟩ := childless
  obtain rfl := Option.some.inj (here.symm.trans same)
  intro shown
  unfold Shown at shown
  cases kind with
  | arr =>
      obtain ⟨i, entry⟩ := shown
      cases entry
  | obj =>
      have none_ (keys : List Bytes) (k : Bytes) :
          cachedOnce (fresh (F := F) .obj parent doc place) keys k = none := by
        rw [cachedOnce]
        split <;> rfl
      cases keepOrigin with
      | true =>
          obtain ⟨k, entry⟩ := shown
          rw [none_] at entry
          cases entry
      | false =>
          obtain ⟨k, -, entry⟩ := shown
          cases entry

/-- Materialization goes nowhere from a value without children. -/
theorem Childless.dead {mode : Bool} {v : Value F} (childless : Childless s v)
    (next : Bool × Value F) : ¬ Descends env s (mode, v) next := by
  rintro (@⟨_, r, q, w, here, shown⟩)
  exact childless.not_shown here shown

theorem Childless.not_meets {mode : Bool} {v : Value F} (childless : Childless s v) :
    ¬ MeetsHolder env s mode v := by
  rintro ⟨mode', r, p, path, here, -⟩
  rcases ReflTransGen.cases_head path with same | ⟨next, first, -⟩
  · obtain ⟨rfl, rfl⟩ := Prod.mk.inj same
    obtain ⟨kind, parent, doc, place, clash⟩ := childless
    have both := (plain?_eq_some.1 here).symm.trans (proxy?_eq_some.1 clash)
    cases both
  · exact childless.dead next first

theorem childless_of_leaf {node : Tree} {v : Value F} (leaf : IsLeaf env node v) :
    Childless s v := by
  cases node with
  | str body => obtain rfl := leaf; trivial
  | scalar token =>
      rcases leaf with ⟨-, rfl⟩ | ⟨-, rfl⟩ | ⟨-, rfl⟩ | ⟨-, x, -, rfl⟩ <;> trivial
  | empty _ _ => exact leaf.elim
  | node _ _ => exact leaf.elim

/-- What is decoded afresh has no children. -/
theorem Yields.childless {view d : Nat} {place : Place} {v : Value F}
    (yields : Yields env s view d place (some v)) : Childless s v := by
  unfold Yields at yields
  split at yields
  · rename_i kind _
    obtain ⟨r, same, here⟩ := yields
    obtain rfl := Option.some.inj same
    exact ⟨kind, some view, d, place, here⟩
  · obtain ⟨w, same, leaf⟩ := yields
    obtain rfl := Option.some.inj same
    exact childless_of_leaf leaf

theorem sourceKeys_congr {q q' : Proxy F} (docs : s'.docs = s.docs)
    (doc : q'.doc = q.doc) (cur : q'.cur = q.cur) :
    sourceKeys env s' q' = sourceKeys env s q := by
  rw [sourceKeys, sourceKeys, docs, doc, cur]

/-- What a proxy shows stays, apart from values without children. -/
theorem Grown.shown (grown : Grown env forest s s') (wf : Wf forest s) {r : Nat}
    {q q' : Proxy F} (here : s.proxy? r = some q) (here' : s'.proxy? r = some q')
    (keepOrigin : Bool) (v : Value F) :
    q'.dirty = q.dirty ∧
      (Shown env s (keepOrigin && !q.dirty) q v → Shown env s' (keepOrigin && !q.dirty) q' v) ∧
      (Shown env s' (keepOrigin && !q.dirty) q' v →
        Childless s' v ∨ Shown env s (keepOrigin && !q.dirty) q v) := by
  obtain ⟨before, here₀, either⟩ := grown.proxy_old (lt_of_proxy? here) here'
  obtain rfl := Option.some.inj (here.symm.trans here₀)
  rcases either with rfl | ⟨kind, order, dirty, o, place, at_, cursor, object, isOrder, rfl⟩
  · have same : Shown env s' (keepOrigin && !q'.dirty) q' v =
        Shown env s (keepOrigin && !q'.dirty) q' v := by
      unfold Shown
      rw [sourceKeys_congr grown.docs rfl rfl]
    exact ⟨rfl, same.mpr, fun shown => .inr (same.mp shown)⟩
  · have keys : sourceKeys env s q = place.children.map keyText :=
      sourceKeys_eq wf.library at_ cursor object
    refine ⟨rfl, ?_⟩
    simp only [Shown, kind, order, dirty, keys, Bool.not_true, Bool.and_false, if_true, or_true]
    constructor
    · rintro ⟨k, cached⟩
      have member : k ∈ o.keys := by
        rw [isOrder.keys, mem_firstKeys]
        refine List.count_pos_iff.1 ?_
        rw [cachedOnce] at cached
        split at cached
        · omega
        · cases cached
      have value := isOrder.values k member
      rw [cached] at value
      exact ⟨k, member, value⟩
    · rintro ⟨k, member, entry⟩
      have value := isOrder.values k member
      cases cached : cachedOnce q (place.children.map keyText) k with
      | some c =>
          rw [cached, entry] at value
          obtain rfl := Option.some.inj value
          exact .inr ⟨k, cached⟩
      | none =>
          rw [cached, entry] at value
          obtain ⟨child, -, yields⟩ := value
          exact .inl yields.childless

theorem Grown.meetsHolder (grown : Grown env forest s s') (wf : Wf forest s) {mode : Bool}
    {v : Value F} (below : v.Below s.tables.length) :
    MeetsHolder env s' mode v ↔ MeetsHolder env s mode v := by
  constructor
  · rintro ⟨mode', r, p, path, here, holds⟩
    have step : ∀ a b : Bool × Value F, a.2.Below s.tables.length → Descends env s' a b →
        Childless s' b.2 ∨ b.2.Below s.tables.length ∧ Descends env s a b := by
      rintro _ _ old (@⟨keepOrigin, i, q', w, here', shown⟩)
      obtain ⟨q, before, -⟩ := grown.proxy_old old here'
      obtain ⟨dirty, -, back⟩ := grown.shown wf before here' keepOrigin w
      rw [dirty] at shown ⊢
      rcases back shown with childless | shown
      · exact .inl childless
      · exact .inr ⟨shown.below wf before, .child before shown⟩
    have dead : ∀ a b : Bool × Value F, Childless s' a.2 → ¬ Descends env s' a b :=
      fun _ b childless => childless.dead b
    rcases reflTransGen_dead step dead below path with childless | ⟨old, path'⟩
    · obtain ⟨kind, parent, doc, place, clash⟩ := childless
      have both := (plain?_eq_some.1 here).symm.trans (proxy?_eq_some.1 clash)
      cases both
    · exact ⟨mode', r, p, path', grown.plain_old old here, (grown.holdsProxy wf old).1 holds⟩
  · rintro ⟨mode', r, p, path, here, holds⟩
    have step : ∀ a b : Bool × Value F, a.2.Below s.tables.length → Descends env s a b →
        b.2.Below s.tables.length ∧ Descends env s' a b := by
      rintro _ _ old (@⟨keepOrigin, i, q, w, before, shown⟩)
      refine ⟨shown.below wf before, ?_⟩
      have still : ∃ q', s'.proxy? i = some q' := by
        rcases grown.proxy i q before with same | ⟨-, -, -, o, -, -, -, -, -, same⟩
        · exact ⟨_, same⟩
        · exact ⟨_, same⟩
      obtain ⟨q', here'⟩ := still
      obtain ⟨dirty, forth, -⟩ := grown.shown wf before here' keepOrigin w
      rw [← dirty] at shown forth ⊢
      exact .child here' (forth shown)
    obtain ⟨old, path'⟩ := reflTransGen_on step below path
    exact ⟨mode', r, p, path', grown.plain r p here, (grown.holdsProxy wf old).2 holds⟩

/-! ## One level -/

/-- Materialization of a proxy meets a holder below a child that the proxy shows. -/
theorem meetsHolder_proxy {r : Nat} {q : Proxy F} (here : s.proxy? r = some q) {mode : Bool} :
    MeetsHolder env s mode (.table r) ↔
      ∃ v, Shown env s (mode && !q.dirty) q v ∧ MeetsHolder env s (mode && !q.dirty) v := by
  constructor
  · rintro ⟨mode', t, p, path, plain, holds⟩
    rcases ReflTransGen.cases_head path with same | ⟨next, first, rest⟩
    · obtain ⟨-, same⟩ := Prod.mk.inj same
      obtain rfl := Value.table.inj same
      have both := (plain?_eq_some.1 plain).symm.trans (proxy?_eq_some.1 here)
      cases both
    · obtain @⟨_, _, q', v, here', shown⟩ := first
      obtain rfl := Option.some.inj (here.symm.trans here')
      exact ⟨v, shown, mode', t, p, rest, plain, holds⟩
  · rintro ⟨v, shown, mode', t, p, path, plain, holds⟩
    exact ⟨mode', t, p, .head (.child here shown) path, plain, holds⟩

/-- A plain table is met as it is. -/
theorem meetsHolder_plain {r : Nat} {p : Plain F} (here : s.plain? r = some p) {mode : Bool} :
    MeetsHolder env s mode (.table r) ↔ HoldsProxy s (.table r) := by
  constructor
  · rintro ⟨mode', t, p', path, plain, holds⟩
    rcases ReflTransGen.cases_head path with same | ⟨next, first, -⟩
    · obtain ⟨-, same⟩ := Prod.mk.inj same
      obtain rfl := Value.table.inj same
      exact holds
    · obtain @⟨_, _, q, v, proxy, -⟩ := first
      have both := (plain?_eq_some.1 here).symm.trans (proxy?_eq_some.1 proxy)
      cases both
  · exact fun holds => ⟨mode, r, p, .refl, here, holds⟩

/-- A plain table holds a proxy that its entries hold. -/
theorem holdsProxy_plain {r : Nat} {p : Plain F} (here : s.plain? r = some p) :
    HoldsProxy s (.table r) ↔ ∃ v, Inside s (.table r) v ∧ HoldsProxy s v := by
  constructor
  · rintro ⟨t, q, path, proxy⟩
    rcases ReflTransGen.cases_head path with same | ⟨v, first, rest⟩
    · obtain rfl := Value.table.inj same
      have both := (plain?_eq_some.1 here).symm.trans (proxy?_eq_some.1 proxy)
      cases both
    · exact ⟨v, first, t, q, rest, proxy⟩
  · rintro ⟨v, first, t, q, rest, proxy⟩
    exact ⟨t, q, .head first rest, proxy⟩

/-- What is no table holds none. -/
theorem not_holdsProxy_of_not_table {v : Value F} (noTable : ∀ r, v ≠ .table r) :
    ¬ HoldsProxy s v := by
  rintro ⟨r, q, path, -⟩
  rcases ReflTransGen.cases_head path with same | ⟨w, first, -⟩
  · exact noTable r same
  · cases first with
    | value here _ => exact noTable _ rfl
    | key here _ => exact noTable _ rfl

end Frame

end QJson.Table
