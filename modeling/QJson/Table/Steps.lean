import QJson.Table.Materialized

/-!
# Reads, writes and loops

Every read, write and round of a loop keeps the heap well formed, whether it returns or
raises an error.
-/

namespace QJson.Table

open Rfc8259 Validate Doc Decode Ffi Lua

/-- A step keeps the heap well formed, at both ends. -/
def Keeps {F α : Type} [DecidableEq F] (forest : Forest) (s : State F) (action : Act F α) :
    Prop :=
  Action.Wp action s (fun _ s' => Wf forest s') (Wf forest)

section Reads

variable {F : Type} [DecidableEq F] {env : Env F} {forest : Forest} {s : State F} {t : Nat}
  {q : Proxy F} {place : Place}

theorem wp_pick (wf : Wf forest s) (at_ : At forest q.doc place) {expected : Option Expected}
    {run : Document → SkipCache → Located (Output F) × SkipCache} {seg : PathSeg}
    (replies : Replies forest q.doc place run
      (answerFrom place.pos (pickNode place seg) fun child => .ok (.node child)))
    {ok : Option (Output F) → State F → Prop} {err : State F → Prop}
    (found : ∀ s' i child, Quiet s s' → Wf forest s' → select place.node seg = .ok i →
      place.children[i]? = some child → ok (some (.cursor child.cursor)) s')
    (absent : ∀ s', Quiet s s' → Wf forest s' → ok none s')
    (failed : ∀ s', Quiet s s' → Wf forest s' → err s') :
    Action.Wp (access q.doc expected run) s ok err := by
  refine wf.library.wp_access at_ replies fun s' quiet library => ?_
  have wf' := wf.quiet quiet library
  rw [pickNode]
  cases meaning : select place.node seg with
  | error code => cases code <;> first | exact absent s' quiet wf' | exact failed s' quiet wf'
  | ok i =>
      simp only
      cases here : place.children[i]? with
      | none => exact absent s' quiet wf'
      | some child => exact found s' i child quiet wf' meaning here

theorem wp_pickIndex (wf : Wf forest s) (at_ : At forest q.doc place)
    {expected : Option Expected} (i : Nat) {ok : Option (Output F) → State F → Prop}
    {err : State F → Prop}
    (found : ∀ s' child, Quiet s s' → Wf forest s' → i ≤ u32Max →
      place.children[i]? = some child → ok (some (.cursor child.cursor)) s')
    (absent : ∀ s', Quiet s s' → Wf forest s' → ok none s')
    (failed : ∀ s', Quiet s s' → Wf forest s' → err s') :
    Action.Wp (access q.doc expected fun document cache =>
      qjsonCursorIndex document cache place.cursor i) s ok err := by
  have replies := @replies_index F forest q.doc place i
  by_cases large : u32Max < i
  · rw [if_pos large] at replies
    exact wf.library.wp_access at_ replies fun s' quiet library =>
      failed s' quiet (wf.quiet quiet library)
  · rw [if_neg large] at replies
    refine wp_pick wf at_ replies (fun s' j child quiet wf' meaning here => ?_) absent failed
    have index : j = i := by
      rw [select] at meaning
      split at meaning
      · split at meaning
        · exact (Except.ok.inj meaning).symm
        · cases meaning
      · cases meaning
    subst index
    exact found s' child quiet wf' (Nat.le_of_not_lt large) here

theorem Wf.cached (wf : Wf forest s) (t : Nat) (key : Bytes) {v : Option (Value F)}
    (held : Held s.tables.length v) :
    Wf forest (s.updateProxy t fun q => { q with childCache := put q.childCache key v }) := by
  refine wf.updateProxy (fun q => ⟨rfl, rfl, rfl, rfl, rfl, rfl⟩) fun q here => ?_
  obtain ⟨place, ok⟩ := wf.proxy here
  exact ⟨place, ok.at_, ok.cursor, ok.kind, ok.span, ok.parent,
    put_all ok.childCache fun w same => held w same, ok.elems, ok.order⟩

theorem Wf.element (wf : Wf forest s) {n : Nat} {v : Option (Value F)}
    (held : Held s.tables.length v)
    (inside : ∀ q, s.proxy? t = some q → ∃ place, ProxyOk forest s.tables.length t q place ∧
      1 ≤ n ∧ n ≤ place.children.length) :
    Wf forest (s.updateProxy t fun q => { q with elems := put q.elems n v }) := by
  refine wf.updateProxy (fun q => ⟨rfl, rfl, rfl, rfl, rfl, rfl⟩) fun q here => ?_
  obtain ⟨place, ok, within⟩ := inside q here
  exact ⟨place, ok.at_, ok.cursor, ok.kind, ok.span, ok.parent, ok.childCache,
    put_all ok.elems fun w same => ⟨held w same, within⟩, ok.order⟩

theorem keeps_readObjectField (wf : Wf forest s) (here : s.proxy? t = some q) {key : Bytes} :
    Keeps forest s (readObjectField env t q key) := by
  obtain ⟨place, ok⟩ := wf.proxy here
  rw [Keeps, readObjectField]
  split
  · exact wf
  · split
    · exact wf
    · rw [Action.wp_bind, ok.cursor]
      refine wp_pick wf ok.at_ (replies_field key) (fun s' i child quiet wf' _ at_ => ?_)
        (fun _ _ wf' => wf') fun _ _ wf' => wf'
      change Action.Wp (decodeCursor env (some t) q.doc child.place.cursor >>= _) s' _ _
      rw [Action.wp_bind]
      have inside : t < s'.tables.length := by
        rw [quiet.tables]
        exact lt_of_proxy? here
      refine (wp_decodeChild wf' (ok.child at_) inside).mono (fun v s'' decoded => ?_)
        fun s'' failed => failed.1.wf
      split
      · exact decoded.1.wf.cached t _ decoded.2.held
      · exact decoded.1.wf

theorem keeps_readArrayIndex (wf : Wf forest s) (here : s.proxy? t = some q) {x : F} :
    Keeps forest s (readArrayIndex env t q x) := by
  obtain ⟨place, ok⟩ := wf.proxy here
  rw [Keeps, readArrayIndex]
  cases offset : env.numbers.offset x with
  | none => exact wf
  | some i =>
      change Action.Wp (access q.doc _ _ >>= _) s _ _
      rw [Action.wp_bind, ok.cursor]
      refine wp_pickIndex wf ok.at_ i (fun s' child quiet wf' small at_ => ?_)
        (fun _ _ wf' => wf') fun _ _ wf' => wf'
      change Action.Wp (decodeCursor env (some t) q.doc child.place.cursor >>= _) s' _ _
      rw [Action.wp_bind]
      have inside : t < s'.tables.length := by
        rw [quiet.tables]
        exact lt_of_proxy? here
      refine (wp_decodeChild wf' (ok.child at_) inside).mono (fun v s'' decoded => ?_)
        fun s'' failed => failed.1.wf
      have key : toKey env (some (.num x)) = some (.idx (i + 1)) := by
        rw [toKey, env.numbers.offset_key x i offset small]
        rfl
      have here' : s''.proxy? t = some q :=
        decoded.1.opens.proxy? ((proxy?_congr quiet.tables t).trans here)
      rw [key]
      cases isTable env v with
      | false => exact decoded.1.wf
      | true =>
          refine decoded.1.wf.element decoded.2.held fun q' same => ?_
          obtain rfl := Option.some.inj (here'.symm.trans same)
          have later : s.tables.length ≤ s''.tables.length := by
            rw [← quiet.tables]
            exact decoded.1.opens.later.length_le
          exact ⟨place, ok.mono later, Nat.succ_pos i, (List.getElem?_eq_some_iff.1 at_).1⟩

theorem keeps_index (wf : Wf forest s) (k : Option (Value F)) :
    Keeps forest s (index env t k) := by
  rw [Keeps, index, Action.wp_bind, Action.wp_get]
  split
  · exact wf
  · exact wf
  · rename_i q here
    split
    · exact wf
    · split
      · exact keeps_readObjectField wf (proxy?_eq_some.2 here)
      · exact keeps_readArrayIndex wf (proxy?_eq_some.2 here)
      · exact wf

theorem keeps_lazyLen (wf : Wf forest s) (here : s.proxy? t = some q) :
    Keeps forest s (lazyLen env q) := by
  obtain ⟨place, ok⟩ := wf.proxy here
  rw [Keeps, lazyLen]
  split
  · exact wf
  · rw [Action.wp_bind, ok.cursor]
    refine wp_getter wf.library ok.at_ .len fun s' quiet library => ?_
    have container : place.node.kind?.isSome := by
      rw [ok.kind]
      rfl
    rw [readNode, if_pos container]
    exact wf.quiet quiet library

end Reads

/-! ## Loops -/

section Loops

variable {F : Type} [DecidableEq F] {env : Env F} {forest : Forest} {s : State F} {t : Nat}
  {q : Proxy F}

theorem Wf.withLoops (wf : Wf forest s) {loops : List Loop}
    (ok : ∀ loop ∈ loops, LoopOk forest s loop) : Wf forest { s with loops } :=
  ⟨wf.library.congr rfl rfl, wf.tables, fun loop member =>
    (ok loop member).later (Later.of_tables rfl)⟩

theorem keeps_newLoop (wf : Wf forest s) {loop : Loop} (ok : LoopOk forest s loop) :
    Keeps forest s (newLoop loop : Act F Nat) := by
  refine wf.withLoops fun other member => ?_
  rcases List.mem_append.1 member with old | new
  · exact wf.loops other old
  · obtain rfl := List.mem_singleton.1 new
    exact ok

theorem Wf.setLoop (wf : Wf forest s) (i : Nat) {loop : Loop} (ok : LoopOk forest s loop) :
    Wf forest { s with loops := s.loops.set i loop } := by
  refine wf.withLoops fun other member => ?_
  rcases List.mem_or_eq_of_mem_set member with old | rfl
  · exact wf.loops other old
  · exact ok

theorem keeps_objectPairs (wf : Wf forest s) (here : s.proxy? t = some q)
    (object : q.kind = .obj) : Keeps forest s (objectPairs t q) := by
  obtain ⟨place, ok⟩ := wf.proxy here
  have isObject := ok.kind.trans (congrArg some object)
  rw [Keeps, objectPairs]
  split
  · exact keeps_newLoop wf ⟨_, here, object⟩
  · rw [newObjectIter, Action.wp_bind, Action.wp_bind, ok.cursor]
    refine wf.library.wp_access ok.at_ (replies_iterInit isObject) fun s' quiet library => ?_
    refine keeps_newLoop (wf.quiet quiet library) ⟨q, place, 0, ?_, object, ok.at_, isObject, rfl⟩
    exact (proxy?_congr quiet.tables t).trans here

theorem keeps_arrayIpairs (wf : Wf forest s) (here : s.proxy? t = some q)
    (array : q.kind = .arr) : Keeps forest s (arrayIpairs t : Act F Nat) := by
  refine keeps_newLoop wf ⟨lt_of_proxy? here, fun other same => ?_⟩
  obtain rfl := Option.some.inj (here.symm.trans same)
  exact array

theorem keeps_lazyObjectIter (wf : Wf forest s) {loop : Nat} {it : Iter} {seen : List Bytes}
    (here : s.proxy? t = some q) (ok : LoopOk forest s (.entries t it seen)) :
    Keeps forest s (lazyObjectIter env loop t q it seen) := by
  obtain ⟨q', place, k, same, object, at_, isObject, rfl⟩ := ok
  obtain rfl := Option.some.inj (here.symm.trans same)
  rw [Keeps, lazyObjectIter, Action.wp_bind]
  refine wf.library.wp_access at_ (replies_iterNext (host_validator env) isObject k)
    fun s' quiet library => ?_
  have wf' := wf.quiet quiet library
  have here' := (proxy?_congr quiet.tables t).trans here
  cases child? : place.children[k]? with
  | none => exact wf'
  | some child =>
      have okLoop : LoopOk forest s' (.entries t (iterPlace place (k + 1))
          (keyText child :: seen)) := ⟨q, place, k + 1, here', object, at_, isObject, rfl⟩
      have wf'' := wf'.setLoop loop okLoop
      change Action.Wp (setLoop loop (.entries t (iterPlace place (k + 1))
        (keyText child :: seen)) >>= _) s' _ _
      rw [Action.wp_bind, setLoop, Action.wp_modify]
      split
      · rw [Action.wp_bind, setCachedChild, Action.wp_modify, Action.wp_bind]
        have cleared := wf''.cached t (keyText child) held_none
        exact (wp_decodeChild cleared (at_.child child?) (by
          rw [length_updateProxy]
          exact lt_of_proxy? here')).mono (fun _ _ decoded => decoded.1.wf)
            fun _ failed => failed.1.wf
      · rw [Action.wp_bind, cachedChild, Action.wp_bind, Action.wp_get, Action.wp_pure]
        split
        · exact wf''
        · rw [Action.wp_bind]
          refine (wp_decodeChild wf'' (at_.child child?) (lt_of_proxy? here')).mono
            (fun v s₂ decoded => ?_) fun _ failed => failed.1.wf
          split
          · exact decoded.1.wf.cached t _ decoded.2.held
          · exact decoded.1.wf

theorem keeps_lazyArrayIter (wf : Wf forest s) {loop i : Nat}
    (ok : LoopOk forest s (.elements t i)) :
    Keeps forest s (lazyArrayIter env loop t i) := by
  rw [Keeps, lazyArrayIter, Action.wp_bind, Action.wp_get]
  cases here : s.proxy? t with
  | none => exact wf
  | some q =>
      obtain ⟨place, okProxy⟩ := wf.proxy here
      change Action.Wp (access q.doc _ _ >>= _) s _ _
      rw [Action.wp_bind, okProxy.cursor]
      refine wp_pickIndex wf okProxy.at_ i (fun s' child quiet wf' _ at_ => ?_)
        (fun _ _ wf' => wf') fun _ _ wf' => wf'
      have here' := (proxy?_congr quiet.tables t).trans here
      have okLoop : LoopOk forest s' (.elements t (i + 1)) :=
        ok.later (Later.of_tables quiet.tables)
      have wf'' := wf'.setLoop loop okLoop
      change Action.Wp (setLoop loop (.elements t (i + 1)) >>= _) s' _ _
      rw [Action.wp_bind, setLoop, Action.wp_modify, Action.wp_bind]
      exact (wp_decodeChild wf'' (okProxy.child at_) (lt_of_proxy? here')).mono
        (fun _ _ decoded => decoded.1.wf) fun _ failed => failed.1.wf

end Loops

/-! ## Writes -/

section Writes

variable {F : Type} [DecidableEq F] {env : Env F} {forest : Forest} {s : State F} {t : Nat}
  {q : Proxy F} {k v : Option (Value F)}

theorem Wf.dirty (wf : Wf forest s) (r : Nat) :
    Wf forest (s.updateProxy r fun q => { q with dirty := true }) := by
  refine wf.updateProxy (fun q => ⟨rfl, rfl, rfl, rfl, rfl, rfl⟩) fun q here => ?_
  obtain ⟨place, ok⟩ := wf.proxy here
  exact ⟨place, ok.at_, ok.cursor, ok.kind, ok.span, ok.parent, ok.childCache, ok.elems, ok.order⟩

/-- The views that are marked dirty stay what they are. -/
theorem wf_markDirty (fuel r : Nat) (wf : Wf forest s) :
    Wf forest (s.markDirty fuel r) ∧ (s.markDirty fuel r).tables.length = s.tables.length ∧
      (s.markDirty fuel r).docs = s.docs ∧
      ∀ i q, s.proxy? i = some q → (s.markDirty fuel r).proxy? i = some q ∨
        (s.markDirty fuel r).proxy? i = some { q with dirty := true } := by
  induction fuel generalizing s r with
  | zero => exact ⟨wf, rfl, rfl, fun _ _ => .inl⟩
  | succ fuel ih =>
      rw [State.markDirty]
      split
      · exact ⟨wf, rfl, rfl, fun _ _ => .inl⟩
      · rename_i q here
        have marked (i : Nat) (q : Proxy F) (old : s.proxy? i = some q) :
            (s.updateProxy r fun q => { q with dirty := true }).proxy? i = some q ∨
              (s.updateProxy r fun q => { q with dirty := true }).proxy? i =
                some { q with dirty := true } := by
          by_cases at_ : r = i
          · exact .inr (proxy?_eq_some.2 ((getElem?_updateProxy _).2 (.inl ⟨q, at_,
              proxy?_eq_some.1 old, rfl⟩)))
          · exact .inl (proxy?_eq_some.2 ((getElem?_updateProxy _).2 (.inr
              ⟨proxy?_eq_some.1 old, fun same => absurd same at_⟩)))
        split
        · exact ⟨wf.dirty r, length_updateProxy _, rfl, marked⟩
        · rename_i parent _
          obtain ⟨wf', length, docs, proxies⟩ := ih parent (wf.dirty r)
          refine ⟨wf', length.trans (length_updateProxy _), docs, fun i q old => ?_⟩
          rcases marked i q old with same | dirty
          · exact proxies i q same
          · rcases proxies i _ dirty with same | same
            · exact .inr same
            · exact .inr same

omit [DecidableEq F] in
theorem assign_values (order : Order F) (key : Bytes) (v : Option (Value F)) :
    (order.assign key v).values = put order.values key v := by
  rw [Order.assign.eq_def]
  split <;> rfl

omit [DecidableEq F] in
theorem assign_held {n : Nat} {order : Order F} {key : Bytes}
    (old : ∀ k w, order.values.lookup k = some w → w.Below n) (new : Held n v) :
    ∀ k w, (order.assign key v).values.lookup k = some w → w.Below n := by
  rw [assign_values]
  exact put_all old fun w is => new w is

/-- Nothing newer than a view is marked dirty with it. -/
theorem proxy?_markDirty_of_lt (wf : Wf forest s) (fuel : Nat) {r i : Nat} (newer : r < i) :
    (s.markDirty fuel r).proxy? i = s.proxy? i := by
  induction fuel generalizing s r with
  | zero => rfl
  | succ fuel ih =>
      rw [State.markDirty]
      cases here : s.proxy? r with
      | none => rfl
      | some q =>
          have marked : (s.updateProxy r fun q => { q with dirty := true }).proxy? i =
              s.proxy? i := by
            ext q'
            simp only [proxy?_eq_some, getElem?_updateProxy]
            constructor
            · rintro (⟨_, same, -⟩ | ⟨old, -⟩)
              · omega
              · exact old
            · exact fun old => .inr ⟨old, fun same => by omega⟩
          simp only
          split
          · exact marked
          · rename_i parent isParent
            obtain ⟨place, ok⟩ := wf.proxy here
            have older := ok.parent parent isParent
            exact (ih (wf.dirty r) (by omega)).trans marked

theorem keeps_objectNewindex (wf : Wf forest s) (here : s.proxy? t = some q)
    (object : q.kind = .obj) (held : Held s.tables.length v) :
    Keeps forest s (objectNewindex env t q k v) := by
  obtain ⟨place, ok⟩ := wf.proxy here
  -- The write behind the order state.
  have write {s' : State F} {order : Order F} (key : Bytes) (wf' : Wf forest s')
      (le : s.tables.length ≤ s'.tables.length)
      (values : ∀ k w, order.values.lookup k = some w → w.Below s'.tables.length) :
      Wf forest ((s'.markDirty s'.tables.length t).updateProxy t fun q =>
        { q with order := some (order.assign key v) }) := by
    obtain ⟨wf'', length, -, -⟩ := wf_markDirty s'.tables.length t wf'
    refine wf_ordered wf'' fun k w same => ?_
    rw [length]
    exact assign_held values (held.mono le) k w same
  rw [Keeps, objectNewindex.eq_def]
  split
  · rename_i key
    rw [Action.wp_bind]
    cases ordered : q.order with
    | some order =>
        rw [ensureObjectOrderState, ordered]
        exact write key wf (Nat.le_refl _) (ok.order order ordered)
    | none =>
        refine (wp_ensureObjectOrderState wf here ok object ordered).mono ?_
          fun s' failed => failed.1.wf
        rintro order _ ⟨s₁, opened, isOrder, rfl⟩
        have le := opened.opens.later.length_le
        have held₁ : ∀ k, Held s₁.tables.length (order.values.lookup k) :=
          isOrder.held fun k w cached => (ok.childCache k w cached).mono le
        refine write key (wf_ordered opened.wf held₁) ?_ fun k w same => ?_
        · rw [length_updateProxy]
          exact le
        · rw [length_updateProxy]
          exact held₁ k w same
  · exact wf

theorem below_of_toKey {n : Nat} {key : Key F} (held : Held n k) (isKey : toKey env k = some key) :
    key.Below n := by
  unfold toKey at isKey
  split at isKey
  · cases isKey
  · obtain rfl := Option.some.inj isKey
    trivial
  · obtain ⟨num, -, rfl⟩ := Option.map_eq_some_iff.1 isKey
    cases num <;> trivial
  · obtain rfl := Option.some.inj isKey
    exact held _ rfl

theorem keeps_rawset (wf : Wf forest s) (heldKey : Held s.tables.length k)
    (held : Held s.tables.length v) : Keeps forest s (rawset env t k v) := by
  rw [Keeps, rawset]
  cases isKey : toKey env k with
  | none => exact wf
  | some key =>
      exact wf.updatePlain fun p _ ok =>
        put_all ok fun w same => ⟨below_of_toKey heldKey isKey, held w same⟩

/-- The elements of a promoted array are held. -/
theorem promoted_held {n : Nat} {elems : Map Nat (Value F)} {contents : List (Option (Value F))}
    (cached : ∀ i w, elems.lookup i = some w → w.Below n) (decoded : ∀ v ∈ contents, Held n v) :
    PlainOk n ⟨promoted elems contents, true, some .arr, none⟩ := by
  have put_ok {map : Map (Key F) (Value F)} {i : Nat} {v : Option (Value F)}
      (old : PlainOk n ⟨map, true, some .arr, none⟩) (held : Held n v) :
      PlainOk n ⟨put map (.idx i) v, true, some .arr, none⟩ :=
    put_all old fun w same => ⟨trivial, held w same⟩
  have raw (entries : List (Sigma fun _ : Nat => Value F))
      (below : ∀ e ∈ entries, e.2.Below n) :
      PlainOk n ⟨entries.foldr (fun e map => map.insert (.idx e.1) e.2) ∅, true, some .arr,
        none⟩ := by
    induction entries with
    | nil => exact fun k w none => by cases none
    | cons e rest ih =>
        exact put_ok (v := some e.2) (ih fun e' member => below e' (List.mem_cons_of_mem e member))
          (held_some (below e List.mem_cons_self))
  have walk (list : List (Option (Value F) × Nat)) (held : ∀ x ∈ list, Held n x.1)
      (map : Map (Key F) (Value F)) (old : PlainOk n ⟨map, true, some .arr, none⟩) :
      PlainOk n ⟨list.foldl (fun map x => put map (.idx x.2) (luaOr (elems.lookup x.2) x.1)) map,
        true, some .arr, none⟩ := by
    induction list generalizing map with
    | nil => exact old
    | cons x rest ih =>
        refine ih (fun y member => held y (List.mem_cons_of_mem x member)) _ (put_ok old ?_)
        exact held_luaOr (cached x.2) (held x List.mem_cons_self)
  refine walk _ (fun x member => ?_) _ (raw _ fun e member => ?_)
  · exact decoded x.1 ((List.takeWhile_sublist _).subset (List.fst_mem_of_mem_zipIdx member))
  · exact cached e.1 e.2 (AList.mem_lookup_iff.2 member)

omit [DecidableEq F] in
theorem later_promoted (here : s.proxy? t = some q) (array : q.kind = .arr) (p : Plain F) :
    Later s { s with tables := s.tables.set t (.plain p) } := by
  have inside := lt_of_proxy? here
  intro r old at_
  by_cases same : t = r
  · subst same
    obtain rfl := Option.some.inj ((proxy?_eq_some.1 here).symm.trans at_)
    exact ⟨.plain p, by simp [inside], array⟩
  · exact ⟨old, by simp [same, at_], Follows.refl old⟩

/-- An array becomes plain. -/
theorem Wf.promoted (wf : Wf forest s) (here : s.proxy? t = some q) (array : q.kind = .arr)
    {p : Plain F} (ok : PlainOk s.tables.length p) :
    Wf forest { s with tables := s.tables.set t (.plain p) } := by
  have inside := lt_of_proxy? here
  have later := later_promoted here array p
  refine wf.later (wf.library.congr rfl rfl) later rfl fun r table at_ => ?_
  simp only [List.length_set]
  by_cases same : t = r
  · subst same
    simp only [List.getElem?_set_self inside, Option.some.injEq] at at_
    exact at_ ▸ ok
  · rw [List.getElem?_set, if_neg same] at at_
    exact wf.tables r table at_

omit [DecidableEq F] in
/-- The loop over the elements does not look at the dirty flag. -/
theorem eachElement_dirty {α : Type} (q : Proxy F) (body : α → Nat → Cursor → Act F α)
    (fuel i : Nat) (acc : α) :
    eachElement { q with dirty := true } body fuel i acc = eachElement q body fuel i acc := by
  induction fuel generalizing i acc with
  | zero => rfl
  | succ fuel ih =>
      rw [eachElement, eachElement]
      simp only [ih]

theorem keeps_arrayNewindex (wf : Wf forest s) (here : s.proxy? t = some q)
    (array : q.kind = .arr) (heldKey : Held s.tables.length k) (held : Held s.tables.length v) :
    Keeps forest s (arrayNewindex env t q k v) := by
  obtain ⟨wf₁, length, -, proxies⟩ := wf_markDirty s.tables.length t wf
  have marked : ∃ q₁, (s.markDirty s.tables.length t).proxy? t = some q₁ ∧ q₁.kind = .arr ∧
      q₁.elems = q.elems ∧
        materializeArrayContents env t q₁ = materializeArrayContents env t q := by
    rcases proxies t q here with same | same
    · exact ⟨_, same, array, rfl, rfl⟩
    · refine ⟨_, same, array, rfl, ?_⟩
      simp only [materializeArrayContents, forElements, eachElement_dirty]
  obtain ⟨q₁, here₁, array₁, elems, contents⟩ := marked
  obtain ⟨place, ok⟩ := wf₁.proxy here₁
  rw [Keeps, arrayNewindex, Action.wp_bind, Action.wp_modify, Action.wp_bind, ← contents, ← elems]
  refine (wp_materializeArrayContents wf₁ here₁ ok array₁).mono (fun contents s₂ walked => ?_)
    fun _ failed => failed.1.wf
  obtain ⟨opened, decoded⟩ := walked
  have le := opened.opens.later.length_le
  have plain : PlainOk s₂.tables.length
      ⟨promoted q₁.elems contents, true, some .arr, none⟩ := by
    refine promoted_held (fun i w same => (ok.elems i w same).1.mono le) fun v member => ?_
    obtain ⟨child, -, yields⟩ := forall₂_right decoded member
    exact yields.held
  have wf₃ := opened.wf.promoted (opened.opens.proxy? here₁) array₁ plain
  have kept : s.tables.length ≤ (s₂.tables.set t (.plain
      ⟨promoted q₁.elems contents, true, some .arr, none⟩)).length := by
    rw [List.length_set, ← length]
    exact le
  rw [Action.wp_bind, Action.wp_modify]
  exact keeps_rawset wf₃ (heldKey.mono kept) (held.mono kept)

theorem keeps_newindex (wf : Wf forest s) (heldKey : Held s.tables.length k)
    (held : Held s.tables.length v) : Keeps forest s (newindex env t k v) := by
  rw [Keeps, newindex, Action.wp_bind, Action.wp_get]
  split
  · exact wf
  · exact keeps_rawset wf heldKey held
  · rename_i q at_
    have here := proxy?_eq_some.2 at_
    split
    · rename_i n array _
      split
      · rename_i cached
        refine wf.element held fun q' same => ?_
        obtain rfl := Option.some.inj (here.symm.trans same)
        obtain ⟨place, ok⟩ := wf.proxy here
        obtain ⟨w, entry⟩ := Option.isSome_iff_exists.1 (AList.lookup_isSome.2 cached)
        exact ⟨place, ok, (ok.elems n w entry).2⟩
      · exact keeps_arrayNewindex wf here array heldKey held
    · rename_i array _
      exact keeps_arrayNewindex wf here array heldKey held
    · rename_i object
      exact keeps_objectNewindex wf here object held

end Writes

end QJson.Table
