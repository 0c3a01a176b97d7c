import QJson.Table.Raising
import QJson.Table.Naturals
import QJson.Table.Sessions

/-!
# When materialization ends

Materialization calls itself on what a proxy holds, whoever put it there.  It ends when no
proxy that it comes by holds itself, at whatever distance; else there is no stack on which it
returns a value.
-/

namespace QJson.Table

open Rfc8259 Validate Doc Decode Ffi Lua Relation

/-- An error that the wrapper raises, as against one of Lua itself. -/
def LuaError.Reported : LuaError → Prop
  | .runtime _ => False
  | _ => True

section Statements

variable {F : Type} [DecidableEq F] (env : Env F) (s : State F)

/-- The children of a proxy that materialization calls itself on, apart from those that are
decoded afresh.  With `keep_origin` the cache counts for the first of several members too. -/
def Called (keepOrigin : Bool) (q : Proxy F) (v : Value F) : Prop :=
  match q.kind, keepOrigin with
  | .obj, true => ∃ k ∈ sourceKeys env s q, q.childCache.lookup k = some v
  | _, _ => Shown env s false q v

/-- Materialization, with or without `keep_origin`, calls itself on a child. -/
inductive Calls : Bool × Value F → Bool × Value F → Prop where
  | child {keepOrigin : Bool} {r : Nat} {q : Proxy F} {v : Value F} :
      s.proxy? r = some q → Called env s (keepOrigin && !q.dirty) q v →
      Calls (keepOrigin, .table r) (keepOrigin && !q.dirty, v)

/-- No proxy that materialization comes by is below itself. -/
def Acyclic (keepOrigin : Bool) (root : Value F) : Prop :=
  ∀ next, ReflTransGen (Calls env s) (keepOrigin, root) next → ¬ TransGen (Calls env s) next next

/-- On every stack that is large enough materialization returns a value or raises an error of
the wrapper. -/
def Ends (keepOrigin : Bool) (root : Value F) : Prop :=
  ∃ enough, ∀ room ≥ enough, ∀ error s',
    materialize env room keepOrigin (some root) s = (.error error, s') → error.Reported

/-- Materialization of a value passes fewer than so many proxies one inside the other. -/
def Shallow : Nat → Bool → Value F → Prop
  | 0, _, v => ∀ r, v = .table r → s.proxy? r = none
  | n + 1, keepOrigin, v => ∀ r q, v = .table r → s.proxy? r = some q →
      q.be ≤ q.bs + n ∧ ∀ child, Called env s (keepOrigin && !q.dirty) q child →
        Shallow n (keepOrigin && !q.dirty) child

end Statements

/-! ## Spans of children -/

/-- A value inside brackets is shorter than what stands between them. -/
theorem Entries.length_value_le {entries : Entries} {entry : Entry}
    (member : entry ∈ entries.toList) :
    entry.value.render.length ≤ entries.render.length := by
  match entries with
  | .last name before value after =>
      obtain rfl := List.mem_singleton.1 member
      simp only [Entries.render, List.length_append]
      omega
  | .more name before value after rest =>
      simp only [Entries.render, List.length_append, List.length_cons]
      rcases List.mem_cons.1 member with rfl | later
      · simp only
        omega
      · have := length_value_le later
        omega

theorem length_child_lt {place : Place} {child : Child} (member : child ∈ place.children) :
    child.place.node.render.length < place.node.render.length := by
  have entry : child.entry ∈ place.node.children := by
    rw [← place.children_map_entry]
    exact List.mem_map_of_mem member
  cases spelled : place.node with
  | node kind entries =>
      rw [spelled] at entry
      have := Entries.length_value_le entry
      simp only [Child.place, Tree.render, List.length_cons, List.length_append]
      omega
  | _ =>
      rw [spelled] at entry
      cases entry

section Heaps

variable {F : Type} [DecidableEq F] {env : Env F} {forest : Forest} {s s' : State F}
  {mode : Bool} {r : Nat} {q q' : Proxy F} {v : Value F}

/-! ## Children -/

/-- The children that count without `keep_origin` are those that are shown. -/
theorem called_false : Called env s false q v ↔ Shown env s false q v := by
  rw [Called.eq_def]
  split
  · rename_i clash
    cases clash
  · rfl

theorem called_arr (array : q.kind = .arr) :
    Called env s mode q v ↔ ∃ i, q.elems.lookup i = some v := by
  rw [Called.eq_def]
  simp [Shown, array]

/-- The values that a proxy holds. -/
def Proxy.held (q : Proxy F) : List (Value F) :=
  q.elems.entries.map Sigma.snd ++ q.childCache.entries.map Sigma.snd ++
    (q.order.elim [] fun order => order.values.entries.map Sigma.snd)

omit [DecidableEq F] in
theorem mem_of_lookup {κ α : Type} [DecidableEq κ] {map : Map κ α} {k : κ} {v : α}
    (here : map.lookup k = some v) : v ∈ map.entries.map Sigma.snd :=
  List.mem_map_of_mem (f := Sigma.snd) (AList.mem_lookup_iff.1 here)

theorem Called.mem_held (called : Called env s mode q v) : v ∈ q.held := by
  have cached {k : Bytes} (here : q.childCache.lookup k = some v) : v ∈ q.held :=
    List.mem_append_left _ (List.mem_append_right _ (mem_of_lookup here))
  have once {keys : List Bytes} {k : Bytes} (here : cachedOnce q keys k = some v) :
      v ∈ q.held := by
    rw [cachedOnce] at here
    split at here
    · exact cached here
    · cases here
  unfold Called at called
  split at called
  · obtain ⟨k, -, here⟩ := called
    exact cached here
  · unfold Shown at called
    split at called
    · obtain ⟨i, here⟩ := called
      exact List.mem_append_left _ (List.mem_append_left _ (mem_of_lookup here))
    · split at called
      · rename_i order isOrder
        obtain ⟨k, -, here⟩ := called
        rw [Proxy.held, isOrder]
        exact List.mem_append_right _ (mem_of_lookup here)
      · split at called
        · obtain ⟨k, here⟩ := called
          exact once here
        · obtain ⟨k, -, here⟩ := called
          exact cached here

theorem Called.below (wf : Wf forest s) (here : s.proxy? r = some q)
    (called : Called env s mode q v) : v.Below s.tables.length := by
  unfold Called at called
  split at called
  · obtain ⟨place, ok⟩ := wf.proxy here
    obtain ⟨k, -, cached⟩ := called
    exact ok.childCache k v cached
  · exact called.below wf here

/-- A proxy that was not used yet holds nothing. -/
theorem not_called_fresh {kind : Kind} {parent : Option Nat} {d : Nat} {place : Place} :
    ¬ Called env s mode (fresh (F := F) kind parent d place) v := by
  intro called
  have member := called.mem_held
  cases member

/-- What materialization calls itself on stays, apart from values that were decoded afresh. -/
theorem Grown.called (grown : Grown env forest s s') (wf : Wf forest s)
    (here : s.proxy? r = some q) (here' : s'.proxy? r = some q') {place : Place}
    (ok : ProxyOk forest s.tables.length r q place) (keepOrigin : Bool) (v : Value F) :
    q'.dirty = q.dirty ∧
      (Called env s (keepOrigin && !q.dirty) q v → Called env s' (keepOrigin && !q.dirty) q' v) ∧
      (Called env s' (keepOrigin && !q.dirty) q' v →
        (∃ child ∈ place.children, Yields env s' r q.doc child.place (some v)) ∨
          Called env s (keepOrigin && !q.dirty) q v) := by
  obtain ⟨before, here₀, either⟩ := grown.proxy_old (lt_of_proxy? here) here'
  obtain rfl := Option.some.inj (here.symm.trans here₀)
  rcases either with rfl | ⟨kind, order, dirty, o, place', at_, cursor, object, isOrder, rfl⟩
  · have same : Called env s' (keepOrigin && !q'.dirty) q' v =
        Called env s (keepOrigin && !q'.dirty) q' v := by
      unfold Called Shown
      rw [sourceKeys_congr grown.docs rfl rfl]
    exact ⟨rfl, same.mpr, fun called => .inr (same.mp called)⟩
  · obtain rfl := at_.unique ok.at_ (cursor.symm.trans ok.cursor)
    have keys : sourceKeys env s q = place'.children.map keyText :=
      sourceKeys_eq wf.library at_ cursor object
    have forth := (grown.shown wf here here' false v).2.1
    rw [dirty, Bool.not_true, Bool.and_false, called_false, called_false]
    refine ⟨rfl, forth, fun called => ?_⟩
    obtain ⟨k, member, entry⟩ : ∃ k ∈ o.keys, o.values.lookup k = some v := by
      simpa [Shown, kind] using called
    have value := isOrder.values k member
    rw [entry] at value
    cases cached : cachedOnce q (place'.children.map keyText) k with
    | none =>
        rw [cached] at value
        obtain ⟨child, last, yields⟩ := value
        exact .inl ⟨child, (mem_of_lastUnder last).1, yields⟩
    | some c =>
        rw [cached] at value
        obtain rfl := Option.some.inj value
        refine .inr ?_
        simp only [Shown, kind, order, dirty, keys, Bool.false_eq_true, or_true, if_true]
        exact ⟨k, cached⟩

/-! ## Shallow values -/

theorem shallow_of_not_proxy {n : Nat} (none_ : ∀ r, v = .table r → s.proxy? r = none) :
    Shallow env s n mode v := by
  cases n with
  | zero => exact none_
  | succ n =>
      intro r q same here
      rw [none_ r same] at here
      cases here

theorem Shallow.mono {n m : Nat} (shallow : Shallow env s n mode v) (le : n ≤ m) :
    Shallow env s m mode v := by
  induction m generalizing n mode v with
  | zero =>
      obtain rfl := Nat.le_zero.1 le
      exact shallow
  | succ m ih =>
      cases n with
      | zero => exact shallow_of_not_proxy shallow
      | succ n =>
          intro r q same here
          obtain ⟨short, below⟩ := shallow r q same here
          exact ⟨by omega, fun child called => ih (below child called) (by omega)⟩

/-- What was decoded afresh is as shallow as its text is short. -/
theorem Yields.shallow {view d n : Nat} {place : Place}
    (yields : Yields env s view d place (some v)) (short : place.node.render.length < n) :
    Shallow env s n mode v := by
  unfold Yields at yields
  split at yields
  · obtain ⟨r, same, here⟩ := yields
    obtain rfl := Option.some.inj same
    obtain ⟨n, rfl⟩ := Nat.exists_eq_add_one_of_ne_zero (by omega : n ≠ 0)
    intro r' q same here'
    obtain rfl := Value.table.inj same
    obtain rfl := Option.some.inj (here.symm.trans here')
    exact ⟨by simp only [fresh]; omega, fun child called => absurd called not_called_fresh⟩
  · obtain ⟨w, same, leaf⟩ := yields
    obtain rfl := Option.some.inj same
    refine shallow_of_not_proxy fun r table => ?_
    subst table
    unfold IsLeaf at leaf
    split at leaf
    · cases leaf
    · rcases leaf with ⟨-, clash⟩ | ⟨-, clash⟩ | ⟨-, clash⟩ | ⟨-, x, -, clash⟩ <;> cases clash
    · exact leaf.elim

theorem Grown.shallow (grown : Grown env forest s s') (wf : Wf forest s)
    (below : v.Below s.tables.length) {n : Nat} (shallow : Shallow env s n mode v) :
    Shallow env s' n mode v := by
  induction n generalizing mode v with
  | zero =>
      rintro r rfl
      cases here' : s'.proxy? r with
      | none => rfl
      | some q' =>
          obtain ⟨q, here, -⟩ := grown.proxy_old below here'
          have clash := (shallow r rfl).symm.trans here
          cases clash
  | succ n ih =>
      rintro r q' rfl here'
      obtain ⟨q, here, either⟩ := grown.proxy_old below here'
      obtain ⟨place, ok⟩ := wf.proxy here
      obtain ⟨short, children⟩ := shallow r q rfl here
      have span : q'.bs = q.bs ∧ q'.be = q.be := by
        rcases either with rfl | ⟨-, -, -, o, -, -, -, -, -, rfl⟩ <;> exact ⟨rfl, rfl⟩
      refine ⟨by rw [span.1, span.2]; exact short, fun child called => ?_⟩
      obtain ⟨dirty, -, back⟩ := grown.called wf here here' ok mode child
      rw [dirty] at called ⊢
      rcases back called with ⟨node, member, yields⟩ | called
      · have less := length_child_lt member
        have := ok.span
        exact yields.shallow (by omega)
      · exact ih (called.below wf here) (children child called)

/-- Where every walk ends, there is a bound on its length. -/
theorem exists_shallow {next : Bool × Value F}
    (acc : Acc (fun b a => Calls env s a b) next) :
    ∃ n, Shallow env s n next.1 next.2 := by
  induction acc with
  | intro next _ ih =>
    obtain ⟨mode, v⟩ := next
    cases v with
    | table r =>
        cases here : s.proxy? r with
        | none =>
            refine ⟨0, fun t same => ?_⟩
            obtain rfl := Value.table.inj same
            exact here
        | some q =>
            have each : ∀ children : List (Value F), ∃ n, ∀ child ∈ children,
                Called env s (mode && !q.dirty) q child →
                  Shallow env s n (mode && !q.dirty) child := by
              intro children
              induction children with
              | nil => exact ⟨0, fun child none => nomatch none⟩
              | cons child rest later =>
                  obtain ⟨n, bound⟩ := later
                  have first : ∃ m, Called env s (mode && !q.dirty) q child →
                      Shallow env s m (mode && !q.dirty) child := by
                    by_cases called : Called env s (mode && !q.dirty) q child
                    · obtain ⟨m, shallow⟩ := ih _ (.child here called)
                      exact ⟨m, fun _ => shallow⟩
                    · exact ⟨0, fun clash => absurd clash called⟩
                  obtain ⟨m, head⟩ := first
                  refine ⟨max m n, fun other member called => ?_⟩
                  rcases List.mem_cons.1 member with rfl | tail
                  · exact (head called).mono (Nat.le_max_left _ _)
                  · exact (bound other tail called).mono (Nat.le_max_right _ _)
            obtain ⟨n, bound⟩ := each q.held
            refine ⟨max n q.be + 1, fun t q' same here' => ?_⟩
            obtain rfl := Value.table.inj same
            obtain rfl := Option.some.inj (here.symm.trans here')
            refine ⟨by omega, fun child called => ?_⟩
            exact (bound child called.mem_held called).mono (Nat.le_max_left _ _)
    | _ => exact ⟨0, fun r clash => nomatch clash⟩

end Heaps

/-! ## Enough stack -/

theorem LuaError.IsAccess.reported {error : LuaError} (access : error.IsAccess) :
    error.Reported := by
  cases error with
  | runtime text => exact access
  | _ => trivial

section Plain

variable {F : Type} [DecidableEq F] {env : Env F} {forest : Forest} {s : State F} {view n : Nat}
  {q : Proxy F} {place : Place} {recur : Option (Value F) → Act F (Option (Value F))}

/-- A function that raises no error of Lua on shallow values. -/
def Spares (env : Env F) (forest : Forest) (mode : Bool) (n : Nat)
    (recur : Option (Value F) → Act F (Option (Value F))) : Prop :=
  ∀ s v, Wf forest s → Held s.tables.length v →
    (∀ w, v = some w → Shallow env s n mode w) → Action.Throws LuaError.Reported (recur v) s

/-- A value that is shallow if it is there. -/
def ShallowAt (env : Env F) (s : State F) (n : Nat) (mode : Bool) (v : Option (Value F)) : Prop :=
  ∀ w, v = some w → Shallow env s n mode w

theorem shallowAt_luaOr {mode : Bool} {a b : Option (Value F)}
    (left : ShallowAt env s n mode a) (right : ShallowAt env s n mode b) :
    ShallowAt env s n mode (luaOr a b) := by
  rw [luaOr]
  split
  · exact left
  · exact right

theorem Yields.shallowAt {mode : Bool} {d : Nat} {v : Option (Value F)}
    (yields : Yields env s view d place v) (short : place.node.render.length < n) :
    ShallowAt env s n mode v := by
  rintro w rfl
  exact yields.shallow short

theorem spares_child {mode : Bool} {s' : State F} {v : Option (Value F)}
    (settles : Settles env forest mode recur) (spares : Spares env forest mode n recur)
    (wf : Wf forest s) (kept : Kept env forest s s') (held : Held s.tables.length v)
    (shallow : ShallowAt env s n mode v) :
    Action.Throws LuaError.Reported (recur v) s' ∧
      Action.Wp (recur v) s' (fun _ s'' => Kept env forest s s'') fun _ => True := by
  have held' := held.mono kept.grown.length_le
  refine ⟨spares s' v kept.wf held' fun w same => ?_, ?_⟩
  · exact kept.grown.shallow wf (held w same) (shallow w same)
  · exact (settles s' v kept.wf held').mono (fun w s'' settled => kept.trans settled.kept)
      fun _ _ => trivial

variable (settles : Settles env forest false recur) (spares : Spares env forest false n recur)
  (wf : Wf forest s) (here : s.proxy? view = some q)
include settles spares wf here

/-- `materialize_plain` on the entries in the order of `ORDER_KEYS`. -/
theorem throws_materializeOrdered {order : Order F} (ordered : q.order = some order)
    (shallow : ∀ k ∈ order.keys, ShallowAt env s n false (order.values.lookup k)) :
    Action.Throws LuaError.Reported (materializeOrdered recur order) s := by
  obtain ⟨place, ok⟩ := wf.proxy here
  refine Action.throws_foldlM (Kept env forest s) (fun k member out s' kept => ?_) (.refl wf)
  have below := shallow k member
  cases entry : order.values.lookup k with
  | none => exact ⟨Action.throws_raise trivial, trivial⟩
  | some val =>
      rw [entry] at below
      obtain ⟨throws, keeps⟩ := spares_child settles spares wf kept
        (held_some (ok.order order ordered k val entry)) below
      exact ⟨throws.bind fun _ _ _ => Action.throws_pure _, by rwa [Action.wp_bind]⟩

/-- `materialize_plain` on the entries in the order of the source. -/
theorem throws_materializeContents (ok : ProxyOk forest s.tables.length view q place)
    (clean : q.dirty = false) (short : place.node.render.length ≤ n)
    (shallow : ∀ k ∈ place.children.map keyText, ShallowAt env s n false (q.childCache.lookup k))
    {contents : List (Bytes × Option (Value F))}
    (decoded : List.Forall₂ (fun child kv => kv.1 = keyText child ∧
      Yields env s view q.doc child.place kv.2) place.children contents) :
    Action.Throws LuaError.Reported (materializeContents recur view contents) s := by
  refine Action.throws_foldlM (Kept env forest s) (fun kv member out s' kept => ?_) (.refl wf)
  obtain ⟨child, inside, key, yields⟩ := forall₂_right decoded member
  have below := shallowAt_luaOr (shallow kv.1 (key ▸ List.mem_map_of_mem inside))
    (yields.shallowAt (Nat.lt_of_lt_of_le (length_child_lt inside) short))
  obtain ⟨throws, keeps⟩ := spares_child settles spares wf kept
    (held_luaOr (ok.childCache kv.1) yields.held) below
  have read : Action.Wp (cachedChild view kv.1) s'
      (fun cached s'' => cached = q.childCache.lookup kv.1 ∧ s'' = s') fun _ => False := by
    rw [cachedChild, Action.wp_bind, Action.wp_get, Action.wp_pure,
      kept.grown.same here (.inr (.inr clean)), Option.bind_some]
    exact ⟨rfl, rfl⟩
  refine ⟨read.throws.bind_wp read ?_, ?_⟩
  · rintro _ _ ⟨rfl, rfl⟩
    exact throws.bind fun _ _ _ => Action.throws_pure _
  · rw [Action.wp_bind]
    refine read.mono ?_ fun _ => False.elim
    rintro _ _ ⟨rfl, rfl⟩
    rwa [Action.wp_bind]

theorem throws_materializeElements (ok : ProxyOk forest s.tables.length view q place)
    (array : q.kind = .arr) (short : place.node.render.length ≤ n)
    (shallow : ∀ i, ShallowAt env s n false (q.elems.lookup i))
    {contents : List (Option (Value F))}
    (decoded : List.Forall₂ (fun child v => Yields env s view q.doc child.place v)
      place.children contents) :
    Action.Throws LuaError.Reported (materializeElements recur view contents) s := by
  refine Action.throws_foldlM (Kept env forest s) (fun x member out s' kept => ?_) (.refl wf)
  obtain ⟨child, inside, yields⟩ := forall₂_right decoded
    ((List.takeWhile_sublist _).subset (List.fst_mem_of_mem_zipIdx member))
  have below := shallowAt_luaOr (shallow x.2)
    (yields.shallowAt (Nat.lt_of_lt_of_le (length_child_lt inside) short))
  obtain ⟨throws, keeps⟩ := spares_child settles spares wf kept
    (held_luaOr (fun v entry => (ok.elems x.2 v entry).1) yields.held) below
  have read : Action.Wp (rawElem view x.2) s'
      (fun cached s'' => cached = q.elems.lookup x.2 ∧ s'' = s') fun _ => False := by
    rw [rawElem, Action.wp_bind, Action.wp_get, Action.wp_pure,
      kept.grown.same here (.inl array), Option.bind_some]
    exact ⟨rfl, rfl⟩
  refine ⟨read.throws.bind_wp read ?_, ?_⟩
  · rintro _ _ ⟨rfl, rfl⟩
    exact throws.bind fun _ _ _ => Action.throws_pure _
  · rw [Action.wp_bind]
    refine read.mono ?_ fun _ => False.elim
    rintro _ _ ⟨rfl, rfl⟩
    rwa [Action.wp_bind]

omit settles spares wf here in
theorem throws_newPlain {kind : Kind} {out : Map (Key F) (Value F)} :
    Action.Throws LuaError.Reported (newPlain env kind out) s := by
  refine Action.Throws.bind (fun _ _ ran => ?_) fun _ _ _ => Action.throws_pure _
  cases ran

theorem throws_materializePlainProxy (shallow : Shallow env s (n + 1) false (.table view)) :
    Action.Throws LuaError.Reported (materializePlainProxy env recur view q) s := by
  obtain ⟨place, ok⟩ := wf.proxy here
  have held : (Value.table view : Value F).Below s.tables.length := lt_of_proxy? here
  -- What is known of the children where the walk starts.
  have children {s' : State F} {q' : Proxy F} (kept : Kept env forest s s')
      (here' : s'.proxy? view = some q') : q'.be ≤ q'.bs + n ∧
        ∀ child, Called env s' false q' child → Shallow env s' n false child :=
    kept.grown.shallow wf held shallow view q' rfl here'
  rw [materializePlainProxy]
  cases kind : q.kind with
  | arr =>
      refine ((throws_materializeArrayContents wf here kind).mono
        fun _ => LuaError.IsAccess.reported).bind_wp
          (wp_materializeArrayContents wf here ok kind) ?_
      rintro contents s' ⟨opened, decoded⟩
      have here' := opened.opens.proxy? here
      obtain ⟨short, below⟩ := children opened.kept here'
      have span := ok.span
      refine (throws_materializeElements settles spares opened.wf here'
        (ok.mono opened.opens.later.length_le) kind (by omega) (fun i w entry => ?_)
        decoded).bind fun _ _ _ => throws_newPlain
      exact below w (called_arr kind |>.2 ⟨i, entry⟩)
  | obj =>
      have ordering {s' : State F} {q' : Proxy F} {order : Order F} (kept : Kept env forest s s')
          (here' : s'.proxy? view = some q') (kind' : q'.kind = .obj)
          (ordered : q'.order = some order) :
          Action.Throws LuaError.Reported (materializeOrdered recur order) s' := by
        obtain ⟨-, below⟩ := children kept here'
        refine throws_materializeOrdered settles spares kept.wf here' ordered
          fun k member w entry => below w (called_false.2 ?_)
        simp only [Shown, kind', ordered]
        exact ⟨k, member, entry⟩
      by_cases ordered : q.order.isSome ∨ q.dirty
      · simp only [ordered, if_true]
        refine ((throws_ensureObjectOrderState wf here kind).mono
          fun _ => LuaError.IsAccess.reported).bind fun order s' ran => ?_
        refine Action.Throws.bind ?_ fun _ _ _ => throws_newPlain
        cases isOrder : q.order with
        | some order' =>
            rw [ensureObjectOrderState, isOrder] at ran
            cases ran
            exact ordering (.refl wf) here kind isOrder
        | none =>
            have dirty : q.dirty = true := by simpa [isOrder] using ordered
            obtain ⟨s₁, opened, order₁, rfl⟩ :=
              (wp_ensureObjectOrderState wf here ok kind isOrder).returned ran
            have here₁ := opened.opens.proxy? here
            have kept := opened.kept.trans (kept_ordered opened.wf here₁
              (ok.mono opened.opens.later.length_le) kind isOrder dirty order₁)
            have here₂ : (s₁.updateProxy view fun q => { q with order := some order }).proxy? view =
                some { q with order := some order } :=
              proxy?_eq_some.2 ((getElem?_updateProxy _).2 (.inl ⟨q, rfl,
                proxy?_eq_some.1 here₁, rfl⟩))
            exact ordering kept here₂ kind rfl
      · simp only [ordered, if_false]
        have clean : q.dirty = false := by simpa using fun dirty => ordered (.inr dirty)
        have unordered : q.order = none := by simpa using fun some_ => ordered (.inl some_)
        refine ((throws_materializeObjectContents wf here kind).mono
          fun _ => LuaError.IsAccess.reported).bind_wp
            (wp_materializeObjectContents wf here ok kind) ?_
        rintro contents s' ⟨opened, decoded⟩
        have here' := opened.opens.proxy? here
        obtain ⟨short, below⟩ := children opened.kept here'
        have span := ok.span
        have keys : sourceKeys env s' q = place.children.map keyText :=
          sourceKeys_eq opened.wf.library ok.at_ ok.cursor (ok.kind.trans (congrArg some kind))
        refine (throws_materializeContents settles spares opened.wf here'
          (ok.mono opened.opens.later.length_le) clean (by omega) (fun k member w entry => ?_)
          decoded).bind fun _ _ _ => throws_newPlain
        refine below w (called_false.2 ?_)
        simp only [Shown, kind, unordered, clean, Bool.false_eq_true, or_self, if_false, keys]
        exact ⟨k, member, entry⟩

omit settles spares wf here in
/-- `materialize_plain` has a stack that is large enough. -/
theorem spares_materializePlain {room : Nat} (enough : n < room) :
    Spares env forest false n (materializePlain env room) := by
  induction room generalizing n with
  | zero => omega
  | succ room ih =>
      intro s v wf held shallow
      rw [materializePlain]
      refine Action.throws_get.bind fun s' _ ran => ?_
      cases ran
      split
      · rename_i r
        cases here : s.proxy? r with
        | none => exact Action.throws_pure _
        | some q =>
            have below := shallow _ rfl
            cases n with
            | zero =>
                rw [below r rfl] at here
                cases here
            | succ n =>
                exact (throws_materializePlainProxy (settles_materializePlain room)
                  (ih (by omega)) wf here below).bind fun _ _ _ => Action.throws_pure _
      · exact Action.throws_pure _

end Plain

/-! ## Enough stack with provenance -/

section Origins

variable {F : Type} [DecidableEq F] {env : Env F} {forest : Forest} {s : State F} {view n : Nat}
  {q : Proxy F} {place : Place} {recur : Option (Value F) → Act F (Option (Value F))}
  (settles : Settles env forest true recur) (spares : Spares env forest true n recur)
  (wf : Wf forest s) (here : s.proxy? view = some q) (clean : q.dirty = false)
include settles spares wf here clean

omit here clean in
/-- A child of a walk is materialized and recorded. -/
theorem throws_originChild {s' : State F} {v : Option (Value F)} (kept : Kept env forest s s')
    (held : Held s.tables.length v) (shallow : ShallowAt env s n true v) {d : Nat}
    (finish : Option (Value F) → Bytes → State F → Walk F) :
    Action.Throws LuaError.Reported (do
      let v ← recur v
      let source ← hold d
      let at_ ← Action.get
      return finish v source at_) s' := by
  refine (spares_child settles spares wf kept held shallow).1.bind fun w s'' _ => ?_
  refine Action.Throws.bind ?_ fun source s₃ _ => Action.throws_get.bind fun _ _ _ =>
    Action.throws_pure _
  exact Action.throws_get.bind fun _ _ _ => Action.throws_pure _

omit wf in
/-- A child of a walk is decoded, materialized and recorded. -/
theorem throws_originDecoded {s' : State F} {child : Child} (kept : Kept env forest s s')
    (at_ : At forest q.doc child.place) (short : child.place.node.render.length < n)
    {d : Nat} (finish : Option (Value F) → Bytes → State F → Walk F) :
    Action.Throws LuaError.Reported (do
      let v ← decodeCursor env (some view) q.doc child.cursor
      let v ← recur v
      let source ← hold d
      let at_ ← Action.get
      return finish v source at_) s' := by
  have here' := kept.grown.same here (.inr (.inr clean))
  refine ((throws_decodeCursor _ _ _).mono fun _ => LuaError.IsAccess.reported).bind_wp
    (wp_decodeChild kept.wf at_ (lt_of_proxy? here')) fun v s'' decoded => ?_
  exact throws_originChild settles spares decoded.1.wf (.refl decoded.1.wf) decoded.2.held
    (decoded.2.shallowAt short) finish

/-- One entry of the walk of `materialize_object_with_origin`. -/
theorem throws_originEntry (ok : ProxyOk forest s.tables.length view q place)
    (short : place.node.render.length ≤ n)
    (shallow : ∀ k ∈ place.children.map keyText, ShallowAt env s n true (q.childCache.lookup k))
    {s' : State F} {child : Child} (inside : child ∈ place.children)
    (at_ : At forest q.doc child.place) {w : Walk F} (kept : Kept env forest s s') :
    Action.Throws LuaError.Reported
      (originEntry env recur view q w (keyText child) child.cursor) s' := by
  have span : Action.Wp (cursorTokenSpan q.doc child.place.cursor) s'
      (fun _ s'' => Kept env forest s s'') fun _ => False :=
    wp_cursorTokenSpan kept.wf.library at_ fun s'' quiet library =>
      kept.trans (quiet.kept kept.wf library)
  have less := Nat.lt_of_lt_of_le (length_child_lt inside) short
  refine span.throws.bind_wp span fun range s₁ kept₁ => ?_
  have here₁ := kept₁.grown.same here (.inr (.inr clean))
  dsimp only
  split
  · refine Action.Throws.bind (Action.throws_get.bind fun _ _ _ => Action.throws_pure _)
      fun cached s₂ ran => ?_
    have read : cachedChild view (keyText child) s₁ =
        (.ok (q.childCache.lookup (keyText child)), s₁) := by
      change (Except.ok ((s₁.proxy? view).bind fun q => q.childCache.lookup (keyText child)),
        s₁) = _
      rw [here₁, Option.bind_some]
    obtain ⟨found, rfl⟩ := Prod.mk.inj (read.symm.trans ran)
    obtain rfl := Except.ok.inj found
    have below := shallow (keyText child) (List.mem_map_of_mem inside)
    cases cached : q.childCache.lookup (keyText child) with
    | none => exact throws_originDecoded settles spares here clean kept₁ at_ less _
    | some c =>
        rw [cached] at below
        exact throws_originChild settles spares wf kept₁
          (held_some (ok.childCache _ c cached)) below _
  · exact throws_originDecoded settles spares here clean kept₁ at_ less _

/-- One element of the walk of `materialize_array_with_origin`. -/
theorem throws_originElement (ok : ProxyOk forest s.tables.length view q place)
    (short : place.node.render.length ≤ n)
    (shallow : ∀ i, ShallowAt env s n true (q.elems.lookup i))
    {s' : State F} {child : Child} (inside : child ∈ place.children)
    (at_ : At forest q.doc child.place) {w : Walk F} {k : Nat} (kept : Kept env forest s s') :
    Action.Throws LuaError.Reported (originElement env recur view q w k child.cursor) s' := by
  have span : Action.Wp (cursorTokenSpan q.doc child.place.cursor) s'
      (fun _ s'' => Kept env forest s s'') fun _ => False :=
    wp_cursorTokenSpan kept.wf.library at_ fun s'' quiet library =>
      kept.trans (quiet.kept kept.wf library)
  have less := Nat.lt_of_lt_of_le (length_child_lt inside) short
  refine span.throws.bind_wp span fun range s₁ kept₁ => ?_
  have here₁ := kept₁.grown.same here (.inr (.inr clean))
  refine Action.Throws.bind (Action.throws_get.bind fun _ _ _ => Action.throws_pure _)
    fun cached s₂ ran => ?_
  have read : rawElem view (k + 1) s₁ = (.ok (q.elems.lookup (k + 1)), s₁) := by
    change (Except.ok ((s₁.proxy? view).bind fun q => q.elems.lookup (k + 1)), s₁) = _
    rw [here₁, Option.bind_some]
  obtain ⟨found, rfl⟩ := Prod.mk.inj (read.symm.trans ran)
  obtain rfl := Except.ok.inj found
  dsimp only
  split
  · exact throws_originChild settles spares wf kept₁ (fun v entry => (ok.elems _ v entry).1)
      (shallow (k + 1)) _
  · exact throws_originDecoded settles spares here clean kept₁ at_ less _

/-- `materialize_object_with_origin` and `materialize_array_with_origin`. -/
theorem throws_materializeOriginProxy (shallow : Shallow env s (n + 1) true (.table view)) :
    Action.Throws LuaError.Reported (materializeOriginProxy env recur view q) s := by
  obtain ⟨place, ok⟩ := wf.proxy here
  obtain ⟨short, below⟩ := shallow view q rfl here
  rw [clean] at below
  have span := ok.span
  have table (w : Walk F) (s' : State F) :
      Action.Throws LuaError.Reported (newOriginTable env q w) s' := by
    refine Action.Throws.bind (Action.throws_get.bind fun _ _ _ => Action.throws_pure _)
      fun source s₁ _ => ?_
    refine Action.Throws.bind (fun _ _ ran => by cases ran) fun o s₂ _ => ?_
    exact Action.Throws.bind (fun _ _ ran => by cases ran) fun r s₃ _ => Action.throws_pure _
  rw [materializeOriginProxy]
  cases kind : q.kind with
  | obj =>
      have object := ok.kind.trans (congrArg some kind)
      have keys : sourceKeys env s q = place.children.map keyText :=
        sourceKeys_eq wf.library ok.at_ ok.cursor object
      have inv : LoopInv forest fun done (w : Walk F) s' =>
          Building env forest true s (entriesShown q done) w.out s' ∧
            ∀ k, k ∈ w.keys ↔ k ∈ done.map keyText :=
        { library := fun _ _ _ kept => kept.1.kept.wf.library
          quiet := fun _ _ _ _ kept quiet library =>
            ⟨kept.1.keep (quiet.kept kept.1.kept.wf library), kept.2⟩ }
      refine (throws_forEntries ok.at_ ok.cursor object inv (fun k child w s' at_ kept => ⟨?_, ?_⟩)
        ⟨Building.start wf fun k => ?_, fun k => Iff.rfl⟩).bind fun w s' _ => table w s'
      · refine throws_originEntry settles spares wf here clean ok (by omega)
          (fun k member w entry => below w ?_) (List.mem_of_getElem? at_) (ok.child at_)
          kept.1.kept
        rw [Called.eq_def, kind, keys]
        exact ⟨k, member, entry⟩
      · exact (wp_originEntry settles wf here ok clean (ok.child at_) kept.1 kept.2).mono
          (fun _ _ => id) fun _ _ => trivial
      · cases k <;> rfl
  | arr =>
      have inv : LoopInv forest fun done (w : Walk F) s' => Building env forest true s
          (among ((List.range' 1 done.length).map .idx) (byIndex q.elems.lookup)) w.out s' :=
        { library := fun _ _ _ kept => kept.kept.wf.library
          quiet := fun _ _ _ _ kept quiet library =>
            kept.keep (quiet.kept kept.kept.wf library) }
      refine (throws_forElements ok.at_ ok.cursor (ok.kind.trans (congrArg some kind)) inv
        (fun k child w s' at_ kept => ⟨?_, ?_⟩) (Building.start wf among_nil)).bind
          fun w s' _ => table w s'
      · exact throws_originElement settles spares wf here clean ok (by omega)
          (fun i w entry => below w ((called_arr kind).2 ⟨i, entry⟩))
          (List.mem_of_getElem? at_) (ok.child at_) kept.kept
      · have length : (place.children.take k).length = k :=
          List.length_take_of_le (List.getElem?_eq_some_iff.1 at_).1.le
        rw [List.length_append, length]
        rw [length] at kept
        exact (wp_originElement settles wf here ok kind (ok.child at_) kept).mono
          (fun _ _ => id) fun _ _ => trivial

omit settles spares wf here clean in
/-- `materialize_with_origin` has a stack that is large enough. -/
theorem spares_materializeWithOrigin {room : Nat} (enough : n + 1 < room) :
    Spares env forest true n (materializeWithOrigin env room) := by
  induction room generalizing n with
  | zero => omega
  | succ room ih =>
      intro s v wf held shallow
      rw [materializeWithOrigin]
      refine Action.throws_get.bind fun s' _ ran => ?_
      cases ran
      split
      · rename_i r
        cases here : s.proxy? r with
        | none => exact Action.throws_pure _
        | some q =>
            have below := shallow _ rfl
            cases n with
            | zero =>
                rw [below r rfl] at here
                cases here
            | succ n =>
                simp only
                split
                · rename_i dirty
                  refine spares_materializePlain (n := n + 1) (by omega) s _ wf held ?_
                  rintro w same t q' table here'
                  obtain rfl := Option.some.inj same
                  obtain rfl := Value.table.inj table
                  obtain rfl := Option.some.inj (here.symm.trans here')
                  have through := below _ _ rfl here
                  rw [dirty] at through ⊢
                  exact through
                · rename_i clean
                  have clean : q.dirty = false := by simpa using clean
                  exact (throws_materializeOriginProxy (settles_materializeWithOrigin room)
                    (ih (by omega)) wf here clean below).bind fun _ _ _ => Action.throws_pure _
      · exact Action.throws_pure _

end Origins

end QJson.Table
