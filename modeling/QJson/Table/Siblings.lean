import QJson.Table.Fields
import QJson.Table.Naturals
import QJson.Table.Sessions

/-!
# Writing one key and reading another

The first write to an object replaces reads through the cursor by the order state, so every
other key is answered from there.  A field keeps its value exactly when both find it alike.
-/

namespace QJson.Table

open Rfc8259 Validate Doc Decode Ffi Lua

section Statements

variable {F : Type} [DecidableEq F] (env : Env F) (s s' : State F)

/-- Reading a field gives the same value, or the same error, in both states. -/
def Undisturbed (t : Nat) (key : Bytes) : Prop :=
  SameResult s.tables.length (index env t (some (.str key)) s) (index env t (some (.str key)) s')

/-- There is an order state already, or it will find the field like a read does now. -/
def Agreed (q : Proxy F) (children : List Child) (key : Bytes) : Prop :=
  q.order.isSome ∨ Alike env (q.source children key) (q.orderSource children key)

end Statements

/-! ## The order state -/

section Order

variable {F : Type} [DecidableEq F] {env : Env F} {forest : Forest} {s : State F}
  {view n : Nat} {q : Proxy F} {place : Place} {children : List Child} {o : Order F}

/-- What was decoded for the order state is newer than `n` tables. -/
def FreshValues (n : Nat) (q : Proxy F) (children : List Child) (o : Order F) : Prop :=
  ∀ k r, cachedOnce q (children.map keyText) k = none →
    o.values.lookup k = some (.table r) → n ≤ r

theorem wp_orderEntry_fresh (wf : Wf forest s) (here : s.proxy? view = some q) {child : Child}
    (at_ : At forest q.doc child.place) (order : OrderOf env s view q children o)
    (newer : n ≤ s.tables.length) (fresh : FreshValues n q children o) :
    Action.Wp (orderEntry env view q.doc o (keyText child) child.cursor) s
      (fun o' _ => FreshValues n q (children ++ [child]) o') fun _ => True := by
  -- An entry that decodes its value, and one that takes the one from the cache.
  have put_ {keys : List Bytes} {v : Option (Value F)}
      (good : cachedOnce q ((children ++ [child]).map keyText) (keyText child) = none →
        ∀ r, v = some (.table r) → n ≤ r) :
      FreshValues n q (children ++ [child]) ⟨keys, put o.values (keyText child) v⟩ := by
    intro k r once value
    by_cases same : keyText child = k
    · subst same
      rw [lookup_put, if_pos rfl] at value
      exact good once r value
    · rw [cachedOnce_concat same] at once
      rw [lookup_put, if_neg (Ne.symm same)] at value
      exact fresh k r once value
  have decodes {keys : List Bytes} :
      Action.Wp (decodeCursor env (some view) q.doc child.cursor) s
        (fun v _ => FreshValues n q (children ++ [child])
          ⟨keys, put o.values (keyText child) v⟩) fun _ => True :=
    (outcome_decodeChild wf at_ (lt_of_proxy? here)).wp.mono (fun v s' decoded =>
      put_ fun _ r same => Nat.le_trans newer (decoded.2.2 r same)) fun _ => id
  rw [orderEntry]
  split
  · rw [Action.wp_bind]
    exact decodes
  · rename_i first
    rw [order.keys, mem_firstKeys] at first
    rw [Action.wp_bind, cachedChild, Action.wp_bind, Action.wp_get, Action.wp_pure, here,
      Option.bind_some]
    cases cached : q.childCache.lookup (keyText child) with
    | none =>
        rw [Action.wp_bind]
        exact decodes
    | some c =>
        refine put_ fun once => ?_
        rw [cachedOnce_first first, cached] at once
        cases once

theorem ensureObjectOrderState_of_order (ordered : q.order = some o) :
    ensureObjectOrderState env view q s = (.ok o, s) := by
  rw [ensureObjectOrderState, ordered]
  rfl

/-- `ensure_object_order_state` on an object without order state: every key has the value of
its source. -/
theorem wp_orderState (wf : Wf forest s) (here : s.proxy? view = some q)
    (ok : ProxyOk forest s.tables.length view q place) (object : q.kind = .obj)
    (unordered : q.order = none) :
    Action.Wp (ensureObjectOrderState env view q) s
      (fun o s' => Wf forest s' ∧ s'.proxy? view = some { q with order := some o } ∧
        ∀ key, Found env s' view q.doc s.tables.length (q.orderSource place.children key)
          (o.values.lookup key))
      (Opened forest s) := by
  have inv : LoopInv forest fun done (o : Order F) s' => Opened forest s s' ∧
      OrderOf env s' view q done o ∧ FreshValues s.tables.length q done o :=
    { library := fun _ _ _ kept => kept.1.wf.library
      quiet := fun _ _ _ _ kept quiet library => ⟨kept.1.quiet quiet library,
        kept.2.1.imp fun _ _ yields => Yields.opens yields quiet.opens, kept.2.2⟩ }
  have empty : OrderOf env s view q [] (⟨[], ∅⟩ : Order F) :=
    ⟨rfl, (fun _ none => by cases none), fun _ _ => rfl⟩
  rw [ensureObjectOrderState, unordered, Action.wp_bind]
  refine (wp_forEntries ok.at_ ok.cursor (ok.kind.trans (congrArg some object)) inv ?_
    ⟨Opened.refl wf, empty, fun k r _ none => by cases none⟩).mono (fun o s₁ kept => ?_) fun _ => id
  · rintro k child o s' at_ ⟨opened, order, fresh⟩
    have here' := opened.opens.proxy? here
    exact ((wp_orderEntry opened.wf here' (ok.child at_) order).and
      (wp_orderEntry_fresh opened.wf here' (ok.child at_) order opened.opens.later.length_le
        fresh)).mono (fun o' s'' both => ⟨opened.trans both.1.1, both.1.2, both.2⟩)
      fun _ both => opened.trans both.1.1
  · obtain ⟨opened, order, fresh⟩ := kept
    have here₁ := opened.opens.proxy? here
    have le := opened.opens.later.length_le
    have held := order.held fun k v cached => (ok.childCache k v cached).mono le
    refine ⟨wf_ordered opened.wf held, proxy?_eq_some.2 ((getElem?_updateProxy _).2
      (.inl ⟨q, rfl, proxy?_eq_some.1 here₁, rfl⟩)), fun key => ?_⟩
    rw [Proxy.orderSource]
    by_cases member : key ∈ place.children.map keyText
    · have value := order.values key (by rw [order.keys]; exact mem_firstKeys.2 member)
      cases cached : cachedOnce q (place.children.map keyText) key with
      | some c =>
          rw [cached] at value
          exact value
      | none =>
          rw [cached] at value
          obtain ⟨child, last, yields⟩ := value
          rw [last]
          exact ⟨yields.update opened.wf _, fun r same => fresh key r cached same⟩
    · have uncached : cachedOnce q (place.children.map keyText) key = none := by
        rw [cachedOnce, List.count_eq_zero.2 member]
        rfl
      have nowhere : lastUnder place.children key = none := by
        cases last : lastUnder place.children key with
        | none => rfl
        | some child =>
            obtain ⟨inside, rfl⟩ := mem_of_lastUnder last
            exact absurd (List.mem_map_of_mem inside) member
      rw [uncached, nowhere]
      exact order.absent key (by rw [order.keys]; exact mt mem_firstKeys.1 member)

end Order

/-! ## Writes -/

section Writes

variable {F : Type} [DecidableEq F] {env : Env F} {forest : Forest} {s : State F} {t n : Nat}
  {q : Proxy F} {place : Place} {j k : Bytes} {v : Option (Value F)}

/-- The state behind the write of a key, with the order state in front of it. -/
def State.written (s : State F) (t : Nat) (order : Order F) (k : Bytes) (v : Option (Value F)) :
    State F :=
  (s.markDirty s.tables.length t).updateProxy t fun q =>
    { q with order := some (order.assign k v) }

theorem newindex_field (here : s.proxy? t = some q) (object : q.kind = .obj) :
    newindex env t (some (.str k)) v s =
      (ensureObjectOrderState env t q >>= fun order =>
        Action.modify fun s => s.written t order k v) s := by
  rw [newindex, Action.get_bind, proxy?_eq_some.1 here]
  simp only [object]
  rfl

theorem proxy?_written (wf : Wf forest s) (here : s.proxy? t = some q) (order : Order F) :
    ∃ q', (s.written t order k v).proxy? t = some q' ∧ q'.kind = q.kind ∧
      q'.order = some (order.assign k v) := by
  obtain ⟨-, -, -, proxies⟩ := wf_markDirty s.tables.length t wf
  rcases proxies t q here with same | same
  · exact ⟨_, proxy?_eq_some.2 ((getElem?_updateProxy _).2 (.inl ⟨_, rfl,
      proxy?_eq_some.1 same, rfl⟩)), rfl, rfl⟩
  · exact ⟨_, proxy?_eq_some.2 ((getElem?_updateProxy _).2 (.inl ⟨_, rfl,
      proxy?_eq_some.1 same, rfl⟩)), rfl, rfl⟩

theorem index_written (wf : Wf forest s) (here : s.proxy? t = some q) (object : q.kind = .obj)
    (order : Order F) (apart : j ≠ k) (other : j ∉ rawFields) :
    index env t (some (.str j)) (s.written t order k v) =
      (.ok (order.values.lookup j), s.written t order k v) := by
  obtain ⟨q', here', kind, ordered⟩ := proxy?_written (k := k) (v := v) wf here order
  rw [index_field here' (kind.trans object) other, readObjectField, ordered]
  refine Prod.ext (congrArg Except.ok ?_) rfl
  rw [assign_values, lookup_put, if_neg apart]

theorem Found.written {a : Option (Source F)} {w : Option (Value F)} {d : Nat}
    (found : Found env s t d n a w) (wf : Wf forest s) (order : Order F) :
    Found env (s.written t order k v) t d n a w := by
  match a with
  | none => exact found
  | some (.held x) => exact found
  | some (.decoded child) =>
      refine ⟨?_, found.2⟩
      have yields := found.1
      unfold Yields at yields ⊢
      split at yields
      · obtain ⟨r, same, here⟩ := yields
        obtain ⟨place, ok⟩ := wf.proxy here
        have newer : t < r := ok.parent t rfl
        refine ⟨r, same, proxy?_eq_some.2 ((getElem?_updateProxy _).2 (.inr ⟨?_, fun same =>
          absurd same (Nat.ne_of_lt newer)⟩))⟩
        exact proxy?_eq_some.1 ((proxy?_markDirty_of_lt wf _ newer).trans here)
      · exact yields

theorem Found.older {m : Nat} {a : Option (Source F)} {w : Option (Value F)} {d : Nat}
    (found : Found env s t d n a w) (less : m ≤ n) : Found env s t d m a w := by
  match a with
  | none | some (.held _) => exact found
  | some (.decoded _) => exact ⟨found.1, fun r same => Nat.le_trans less (found.2 r same)⟩

theorem Alike.refl (a : Option (Source F)) : Alike env a a := by
  match a with
  | none => exact trivial
  | some (.held _) => exact rfl
  | some (.decoded _) => exact .inl rfl

theorem Missed.unique {a : Option (Source F)} {error error' : LuaError}
    (missed : Missed env a error) (missed' : Missed env a error') : error = error' := by
  match a with
  | none | some (.held _) => exact missed.elim
  | some (.decoded _) => exact Fails.unique missed missed'

/-- A member that cannot be read is not alike one that was found. -/
theorem Missed.not_alike {a b : Option (Source F)} {error : LuaError} {w : Option (Value F)}
    {d : Nat} (missed : Missed env a error) (found : Found env s t d n b w) :
    ¬ Alike env a b := by
  match a with
  | none | some (.held _) => exact missed.elim
  | some (.decoded child) =>
      have unreadable := Fails.unreadable missed
      match b with
      | none => exact id
      | some (.held v) => exact fun leaf => unreadable.not_isLeaf leaf
      | some (.decoded other) =>
          rintro (same | ⟨v, leaf, -⟩)
          · rcases found.cases with ⟨v, leaf, -⟩ | ⟨kind, r, isKind, -⟩
            · exact unreadable.not_isLeaf (same ▸ leaf)
            · obtain ⟨token, node, -⟩ := unreadable
              rw [← same, node] at isKind
              cases isKind
          · exact unreadable.not_isLeaf leaf

omit [DecidableEq F] in
/-- An old value is the same in later states. -/
theorem sameValue_held_refl {s' : State F} {w : Option (Value F)} (held : Held n w) :
    SameValue n s s' w w := by
  match w with
  | some (.table r) => exact .inl ⟨held _ rfl, rfl⟩
  | none | some .null | some (.bool _) | some (.num _) | some (.str _) | some (.int64 _)
  | some (.foreign _) => exact rfl

/-- The write of a key that succeeds keeps another field exactly when it is agreed on. -/
theorem undisturbed_iff (wf : Wf forest s) (here : s.proxy? t = some q)
    (object : q.kind = .obj) (ok : ProxyOk forest s.tables.length t q place)
    (apart : j ≠ k) (other : j ∉ rawFields)
    (returned : (newindex env t (some (.str k)) v s).1 = .ok ()) :
    Undisturbed env s (newindex env t (some (.str k)) v s).2 t j ↔
      Agreed env q place.children j := by
  rw [newindex_field here object] at returned ⊢
  rw [Undisturbed, index_field here object other]
  cases ordered : q.order with
  | some order =>
      have reads : readObjectField env t q j s = (.ok (order.values.lookup j), s) := by
        rw [readObjectField, ordered]
        rfl
      rw [Action.bind_of_ok (ensureObjectOrderState_of_order ordered), reads]
      change SameResult _ _ (index env t (some (.str j)) (s.written t order k v)) ↔ _
      rw [index_written wf here object order apart other]
      refine iff_of_true (sameValue_held_refl ?_) (.inl (by rw [ordered]; rfl))
      exact fun w same => ok.order order ordered j w same
  | none =>
      have opens : Action.Wp (ensureObjectOrderState env t q) s _ _ :=
        wp_orderState wf here ok object ordered
      unfold Action.Wp at opens
      rcases ran : ensureObjectOrderState env t q s with ⟨result, s'⟩
      rw [ran] at opens
      cases result with
      | error error =>
          rw [Action.bind_of_error ran] at returned
          cases returned
      | ok order =>
          obtain ⟨wf', here', finds⟩ := opens
          have found' := (finds j).written (k := k) (v := v) wf' order
          rw [Action.bind_of_ok ran, Agreed, ordered]
          change SameResult _ _ (index env t (some (.str j)) (s'.written t order k v)) ↔ _
          rw [index_written wf' here' object order apart other]
          have agreed : (none : Option (Order F)).isSome = true ∨ Alike env
              (q.source place.children j) (q.orderSource place.children j) ↔ Alike env
              (q.source place.children j) (q.orderSource place.children j) := by
            simp only [Option.isSome_none, Bool.false_eq_true, false_or]
          rw [agreed]
          rcases (outcome_readObjectField wf here ok object ordered j).cases with
            ⟨w, s₁, read, found⟩ | ⟨error, s₁, read, missed⟩
          · rw [read]
            exact sameValue_iff (source_ok ok j) (orderSource_ok ok j) found found'
          · rw [read]
            exact iff_of_false id (missed.not_alike found')

/-- The write of a key that fails keeps every field. -/
theorem undisturbed_of_error (wf : Wf forest s) (here : s.proxy? t = some q)
    (object : q.kind = .obj) (other : j ∉ rawFields) {error : LuaError}
    (raised : (newindex env t (some (.str k)) v s).1 = .error error) :
    Undisturbed env s (newindex env t (some (.str k)) v s).2 t j := by
  obtain ⟨place, ok⟩ := wf.proxy here
  rw [newindex_field here object] at raised ⊢
  cases ordered : q.order with
  | some order =>
      rw [Action.bind_of_ok (ensureObjectOrderState_of_order ordered)] at raised
      cases raised
  | none =>
      have opens : Action.Wp (ensureObjectOrderState env t q) s _ _ :=
        wp_orderState wf here ok object ordered
      unfold Action.Wp at opens
      rcases ran : ensureObjectOrderState env t q s with ⟨result, s'⟩
      rw [ran] at opens
      cases result with
      | ok order =>
          rw [Action.bind_of_ok ran] at raised
          cases raised
      | error error =>
          have le := opens.opens.later.length_le
          have here' := opens.opens.proxy? here
          rw [Action.bind_of_error ran, Undisturbed, index_field here object other,
            index_field here' object other]
          rcases (outcome_readObjectField wf here ok object ordered j).cases with
            ⟨w, s₁, read, found⟩ | ⟨error, s₁, read, missed⟩
          all_goals
            rcases (outcome_readObjectField opens.wf here' (ok.mono le) object ordered j).cases
              with ⟨w', s₂, read', found'⟩ | ⟨error', s₂, read', missed'⟩ <;> rw [read, read']
          · exact (sameValue_iff (source_ok ok j) (source_ok ok j) found (found'.older le)).2
              (.refl _)
          · exact absurd (Alike.refl _) (missed'.not_alike found)
          · exact absurd (Alike.refl _) (missed.not_alike found')
          · exact missed.unique missed'

end Writes

/-! ## Whole sessions -/

/-- In every state of a session, the write of a key keeps another field of the object exactly
when it is agreed on; when the write fails, it keeps every field. -/
theorem write_keeps_iff {F : Type} [DecidableEq F] (env : Env F) {s : State F}
    (session : Session env (fun s op => op.Proper s) s) :
    ∃ forest, Wf forest s ∧ ∀ (t : Nat) (q : Proxy F) (place : Place),
      s.proxy? t = some q → q.kind = .obj → ProxyOk forest s.tables.length t q place →
      ∀ (j k : Bytes) (v : Option (Value F)), j ≠ k → j ∉ rawFields →
        (Op.newindex t (some (.str k)) v).Proper s →
        ((newindex env t (some (.str k)) v s).1 = .ok () →
          (Undisturbed env s (newindex env t (some (.str k)) v s).2 t j ↔
            Agreed env q place.children j)) ∧
        ∀ error, (newindex env t (some (.str k)) v s).1 = .error error →
          Undisturbed env s (newindex env t (some (.str k)) v s).2 t j := by
  obtain ⟨forest, wf⟩ := session.wf fun _ _ proper => proper
  refine ⟨forest, wf, fun t q place here object ok j k v apart other _ => ⟨?_, ?_⟩⟩
  · exact undisturbed_iff wf here object ok apart other
  · exact fun error => undisturbed_of_error wf here object other

/-- `{"a":1,"a":2,"b":0}` -/
def twiceText : Bytes :=
  [0x7B, 0x22, 0x61, 0x22, 0x3A, 0x31, 0x2C, 0x22, 0x61, 0x22, 0x3A, 0x32, 0x2C, 0x22, 0x62,
    0x22, 0x3A, 0x30, 0x7D]

/-- `t = decode(text)`. -/
def twiceState : State Nat :=
  ((Op.decode twiceText).run natEnv (State.start Nat)).2

theorem twiceState_session : Session natEnv (fun s op => op.Proper s) twiceState :=
  .step .start (by decide : twiceText.length ≤ luaMaxString)

/-- Reading each field in front of a write of the other one and behind it. -/
theorem twiceState_facts : (twiceState.proxy? 0).map Proxy.kind = some .obj ∧
    [0x61] ∉ rawFields ∧ [0x62] ∉ rawFields ∧
    (newindex natEnv 0 (some (.str [0x62])) (some (.num 5)) twiceState).1 = .ok () ∧
    (newindex natEnv 0 (some (.str [0x61])) (some (.num 5)) twiceState).1 = .ok () ∧
    (index natEnv 0 (some (.str [0x61])) twiceState).1 = .ok (some (.num 1)) ∧
    (index natEnv 0 (some (.str [0x61]))
      (newindex natEnv 0 (some (.str [0x62])) (some (.num 5)) twiceState).2).1 =
      .ok (some (.num 2)) ∧
    (index natEnv 0 (some (.str [0x62])) twiceState).1 = .ok (some (.num 0)) ∧
    (index natEnv 0 (some (.str [0x62]))
      (newindex natEnv 0 (some (.str [0x61])) (some (.num 5)) twiceState).2).1 =
      .ok (some (.num 0)) := by
  decide +kernel

theorem ran_of_ok {α : Type} {action : Act Nat α} {s : State Nat} {x : α}
    (returned : (action s).1 = .ok x) : action s = (.ok x, (action s).2) :=
  Prod.ext returned rfl

theorem twiceState_proper {k : Bytes} (other : k ∉ rawFields) :
    (Op.newindex 0 (some (.str k)) (some (.num 5))).Proper twiceState := by
  refine ⟨held_some trivial, held_some trivial, ?_⟩
  rintro - ⟨name, member, same⟩
  obtain rfl := Value.str.inj (Option.some.inj same)
  exact other member

/-- The write `t.b = 5` replaces what is read as `t.a`, and `t.a = 5` keeps `t.b`. -/
theorem write_keeps_iff_twice : ∃ q, ∃ place : Place, twiceState.proxy? 0 = some q ∧
    q.cur = place.cursor ∧ ¬ Agreed natEnv q place.children [0x61] ∧
    Agreed natEnv q place.children [0x62] := by
  obtain ⟨object, other, other', returned, returned', before, behind, kept, kept'⟩ :=
    twiceState_facts
  obtain ⟨q, here, kind⟩ := Option.map_eq_some_iff.1 object
  obtain ⟨forest, wf, keeps⟩ := write_keeps_iff natEnv twiceState_session
  obtain ⟨place, ok⟩ := wf.proxy here
  have first := (keeps 0 q place here kind ok [0x61] [0x62] (some (.num 5)) (by decide) other
    (twiceState_proper other')).1 returned
  have second := (keeps 0 q place here kind ok [0x62] [0x61] (some (.num 5)) (by decide) other'
    (twiceState_proper other)).1 returned'
  refine ⟨q, place, here, ok.cursor, fun agreed => ?_, second.1 ?_⟩
  · have same := first.2 agreed
    rw [Undisturbed, ran_of_ok before, ran_of_ok behind] at same
    exact absurd (Value.num.inj (Option.some.inj same)) (by decide)
  · rw [Undisturbed, ran_of_ok kept, ran_of_ok kept']
    rfl

/-- Behind `t.b = 5`, `t.a` is the last member of the name and no longer the first. -/
theorem not_forall_undisturbed :
    ¬ ∀ (s : State Nat) (t : Nat) (q : Proxy Nat) (j k : Bytes) (v : Option (Value Nat)),
      Session natEnv (fun s op => op.Proper s) s → s.proxy? t = some q → q.kind = .obj →
      j ≠ k → j ∉ rawFields → (Op.newindex t (some (.str k)) v).Proper s →
      (newindex natEnv t (some (.str k)) v s).1 = .ok () →
      Undisturbed natEnv s (newindex natEnv t (some (.str k)) v s).2 t j := by
  intro claim
  obtain ⟨object, other, other', returned, -, before, behind, -⟩ := twiceState_facts
  obtain ⟨q, here, kind⟩ := Option.map_eq_some_iff.1 object
  have same := claim twiceState 0 q [0x61] [0x62] (some (.num 5)) twiceState_session here kind
    (by decide) other (twiceState_proper other') returned
  rw [Undisturbed, ran_of_ok before, ran_of_ok behind] at same
  exact absurd (Value.num.inj (Option.some.inj same)) (by decide)

end QJson.Table
