import QJson.Table.Opening

/-!
# The order state of an object

`ensure_object_order_state` keeps the first place of every key and its last value; a cached
child stands for its key as long as the key occurs once.
-/

namespace QJson.Table

open Rfc8259 Validate Doc Decode Ffi Lua

/-! ## Keys and their children -/

/-- The keys in the order in which they occur first. -/
def firstKeys (keys : List Bytes) : List Bytes :=
  keys.foldl (fun seen k => if k ∈ seen then seen else seen ++ [k]) []

/-- The last child under a key. -/
def lastUnder (children : List Child) (k : Bytes) : Option Child :=
  (children.filter fun child => keyText child = k).getLast?

theorem firstKeys_concat (keys : List Bytes) (k : Bytes) :
    firstKeys (keys ++ [k]) =
      if k ∈ firstKeys keys then firstKeys keys else firstKeys keys ++ [k] := by
  rw [firstKeys, List.foldl_append]
  rfl

theorem mem_firstKeys {keys : List Bytes} {k : Bytes} : k ∈ firstKeys keys ↔ k ∈ keys := by
  induction keys using List.reverseRecOn with
  | nil => rfl
  | append_singleton keys last ih =>
      rw [firstKeys_concat, List.mem_append, List.mem_singleton]
      split
      · rename_i seen
        refine ih.trans ⟨.inl, fun either => ?_⟩
        rcases either with old | rfl
        · exact old
        · exact ih.1 seen
      · rw [List.mem_append, List.mem_singleton, ih]

theorem lastUnder_concat (children : List Child) (child : Child) (k : Bytes) :
    lastUnder (children ++ [child]) k =
      if keyText child = k then some child else lastUnder children k := by
  rw [lastUnder, List.filter_append]
  split
  · rename_i same
    simp [same]
  · rename_i other
    simp [other, lastUnder]

theorem mem_of_lastUnder {children : List Child} {k : Bytes} {child : Child}
    (last : lastUnder children k = some child) : child ∈ children ∧ keyText child = k := by
  have member := List.mem_of_getLast? last
  simpa using member

theorem exists_lastUnder {children : List Child} {k : Bytes}
    (member : k ∈ children.map keyText) : ∃ child, lastUnder children k = some child := by
  obtain ⟨child, here, rfl⟩ := List.mem_map.1 member
  rw [lastUnder]
  cases last : (children.filter fun other => keyText other = keyText child).getLast? with
  | some child' => exact ⟨child', rfl⟩
  | none =>
      rw [List.getLast?_eq_none_iff] at last
      have kept : child ∈ children.filter fun other => keyText other = keyText child := by
        simp [here]
      rw [last] at kept
      cases kept

/-! ## The state -/

/-- A child that is cached and whose key occurs once. -/
def cachedOnce {F : Type} (q : Proxy F) (keys : List Bytes) (k : Bytes) : Option (Value F) :=
  if keys.count k = 1 then q.childCache.lookup k else none

/-- The order state of an object with the given children. -/
structure OrderOf {F : Type} [DecidableEq F] (env : Env F) (s : State F) (view : Nat)
    (q : Proxy F) (children : List Child) (o : Order F) : Prop where
  keys : o.keys = firstKeys (children.map keyText)
  values : ∀ k ∈ o.keys, match cachedOnce q (children.map keyText) k with
    | some cached => o.values.lookup k = some cached
    | none => ∃ child, lastUnder children k = some child ∧
        Yields env s view q.doc child.place (o.values.lookup k)
  absent : ∀ k, k ∉ o.keys → o.values.lookup k = none

section Order

variable {F : Type} [DecidableEq F] {env : Env F} {forest : Forest} {s s' : State F}
  {view : Nat} {q : Proxy F} {place : Place} {children : List Child} {o : Order F}

theorem OrderOf.imp (order : OrderOf env s view q children o)
    (later : ∀ place v, Yields env s view q.doc place v → Yields env s' view q.doc place v) :
    OrderOf env s' view q children o := by
  refine ⟨order.keys, fun k member => ?_, order.absent⟩
  have value := order.values k member
  cases cached : cachedOnce q (children.map keyText) k with
  | some c =>
      rw [cached] at value
      exact value
  | none =>
      rw [cached] at value
      obtain ⟨child, last, yields⟩ := value
      exact ⟨child, last, later _ _ yields⟩

/-- The values of the order state are held. -/
theorem OrderOf.held (order : OrderOf env s view q children o)
    (cached : ∀ k v, q.childCache.lookup k = some v → v.Below s.tables.length) (k : Bytes) :
    Held s.tables.length (o.values.lookup k) := by
  by_cases member : k ∈ o.keys
  · have value := order.values k member
    split at value
    · rename_i c once
      rw [value]
      rw [cachedOnce] at once
      split at once
      · exact held_some (cached k c once)
      · cases once
    · obtain ⟨child, -, yields⟩ := value
      exact yields.held
  · rw [order.absent k member]
    exact held_none

omit [DecidableEq F] in
theorem cachedOnce_concat {child : Child} {k : Bytes} (apart : keyText child ≠ k) :
    cachedOnce q ((children ++ [child]).map keyText) k = cachedOnce q (children.map keyText) k := by
  have count : ((children ++ [child]).map keyText).count k = (children.map keyText).count k := by
    rw [List.map_append, List.count_append, List.map_singleton, List.count_singleton]
    simp [apart]
  rw [cachedOnce, count, cachedOnce]

omit [DecidableEq F] in
theorem cachedOnce_first {child : Child} (first : keyText child ∉ children.map keyText) :
    cachedOnce q ((children ++ [child]).map keyText) (keyText child) =
      q.childCache.lookup (keyText child) := by
  rw [cachedOnce, if_pos]
  rw [List.map_append, List.map_singleton, List.count_append, List.count_singleton_self,
    List.count_eq_zero.2 first]

/-- Another key leaves the value of a key alone. -/
theorem OrderOf.other (order : OrderOf env s view q children o) {child : Child} {k : Bytes}
    (member : k ∈ o.keys) (apart : keyText child ≠ k) {v : Option (Value F)} :
    match cachedOnce q ((children ++ [child]).map keyText) k with
    | some cached => (put o.values (keyText child) v).lookup k = some cached
    | none => ∃ child', lastUnder (children ++ [child]) k = some child' ∧
        Yields env s view q.doc child'.place ((put o.values (keyText child) v).lookup k) := by
  have value := order.values k member
  rw [cachedOnce_concat apart, lookup_put, if_neg (Ne.symm apart), lastUnder_concat, if_neg apart]
  exact value

theorem wp_orderEntry (wf : Wf forest s) (here : s.proxy? view = some q) {child : Child}
    (at_ : At forest q.doc child.place) (order : OrderOf env s view q children o) :
    Action.Wp (orderEntry env view q.doc o (keyText child) child.cursor) s
      (fun o' s' => Opened forest s s' ∧ OrderOf env s' view q (children ++ [child]) o')
      fun s' => Opened forest s s' ∧ Unreadable env child.place.node := by
  have names : (children ++ [child]).map keyText = children.map keyText ++ [keyText child] := by
    rw [List.map_append, List.map_singleton]
  have seen : keyText child ∈ o.keys ↔ keyText child ∈ children.map keyText := by
    rw [order.keys, mem_firstKeys]
  -- What the entry decodes is the last child under its key.
  have decodes {keys : List Bytes} (same : keys = firstKeys ((children ++ [child]).map keyText))
      (fresh : cachedOnce q ((children ++ [child]).map keyText) (keyText child) = none)
      {v : Option (Value F)} {s' : State F} (opened : Opened forest s s')
      (yields : Yields env s' view q.doc child.place v) :
      OrderOf env s' view q (children ++ [child]) ⟨keys, put o.values (keyText child) v⟩ := by
    have order' := order.imp fun _ _ yields => Yields.opens yields opened.opens
    refine ⟨same, fun k member => ?_, fun k absent => ?_⟩
    · by_cases at_ : keyText child = k
      · subst at_
        rw [fresh]
        refine ⟨child, by rw [lastUnder_concat, if_pos rfl], ?_⟩
        rw [lookup_put, if_pos rfl]
        exact yields
      · refine order'.other ?_ at_
        rw [same, mem_firstKeys, names, List.mem_append, List.mem_singleton] at member
        rw [order.keys, mem_firstKeys]
        exact member.resolve_right (Ne.symm at_)
    · rw [same, mem_firstKeys, names, List.mem_append, List.mem_singleton, not_or] at absent
      rw [lookup_put, if_neg absent.2]
      exact order.absent k (by rw [order.keys, mem_firstKeys]; exact absent.1)
  rw [orderEntry]
  split
  · rename_i member
    have again := seen.1 member
    rw [Action.wp_bind]
    refine (wp_decodeChild wf at_ (lt_of_proxy? here)).mono (fun v s' decoded => ?_) fun _ => id
    refine ⟨decoded.1, decodes ?_ ?_ decoded.1 decoded.2⟩
    · rw [names, firstKeys_concat, if_pos (mem_firstKeys.2 again), order.keys]
    · have twice : ((children ++ [child]).map keyText).count (keyText child) ≠ 1 := by
        rw [names, List.count_append, List.count_singleton_self]
        have := List.count_pos_iff.2 again
        omega
      rw [cachedOnce, if_neg twice]
  · rename_i new
    have first := mt seen.2 new
    have once := @cachedOnce_first F q children child first
    have keys : o.keys ++ [keyText child] = firstKeys ((children ++ [child]).map keyText) := by
      rw [names, firstKeys_concat, if_neg (mt mem_firstKeys.1 first), order.keys]
    rw [Action.wp_bind, cachedChild, Action.wp_bind, Action.wp_get, Action.wp_pure, here,
      Option.bind_some]
    cases cached : q.childCache.lookup (keyText child) with
    | none =>
        rw [Action.wp_bind]
        refine (wp_decodeChild wf at_ (lt_of_proxy? here)).mono (fun v s' decoded => ?_)
          fun _ => id
        exact ⟨decoded.1, decodes keys (by rw [once, cached]) decoded.1
          decoded.2⟩
    | some c =>
        refine ⟨Opened.refl wf, keys, fun k member => ?_, fun k absent => ?_⟩
        · by_cases at_ : keyText child = k
          · subst at_
            rw [once, cached]
            simp only [lookup_put, if_true]
          · refine order.other ?_ at_
            rcases List.mem_append.1 member with old | last
            · exact old
            · exact absurd (List.mem_singleton.1 last).symm at_
        · have apart : k ∉ o.keys ∧ k ≠ keyText child := by
            simpa [List.mem_append, not_or] using absent
          rw [lookup_put, if_neg apart.2]
          exact order.absent k apart.1

/-- `ensure_object_order_state` on an object without order state: it opens children and
then sets the order state of the view. -/
theorem wp_ensureObjectOrderState (wf : Wf forest s) (here : s.proxy? view = some q)
    (ok : ProxyOk forest s.tables.length view q place) (object : q.kind = .obj)
    (unordered : q.order = none) :
    Action.Wp (ensureObjectOrderState env view q) s
      (fun o s' => ∃ s₁, Opened forest s s₁ ∧ OrderOf env s₁ view q place.children o ∧
        s' = s₁.updateProxy view fun q => { q with order := some o })
      fun s' => Opened forest s s' ∧ ∃ child ∈ place.children, Unreadable env child.place.node := by
  have inv : LoopInv forest fun done (o : Order F) s' =>
      Opened forest s s' ∧ OrderOf env s' view q done o :=
    { library := fun _ _ _ kept => kept.1.wf.library
      quiet := fun _ _ _ _ kept quiet library => ⟨kept.1.quiet quiet library,
        kept.2.imp fun _ _ yields => Yields.opens yields quiet.opens⟩ }
  have empty : OrderOf env s view q [] (⟨[], ∅⟩ : Order F) :=
    ⟨rfl, fun _ none => (nomatch none), fun _ _ => rfl⟩
  rw [ensureObjectOrderState, unordered, Action.wp_bind]
  refine (wp_forEntries ok.at_ ok.cursor (ok.kind.trans (congrArg some object)) inv ?_
    ⟨Opened.refl wf, empty⟩).mono (fun o s₁ kept => ?_) fun _ => id
  · intro k child o s' at_ kept
    exact (wp_orderEntry kept.1.wf (kept.1.opens.proxy? here) (ok.child at_) kept.2).mono
      (fun o' s'' entry => ⟨kept.1.trans entry.1, entry.2⟩) fun _ failed =>
        ⟨kept.1.trans failed.1, child, List.mem_of_getElem? at_, failed.2⟩
  · exact ⟨s₁, kept.1, kept.2, rfl⟩

theorem wf_ordered (wf : Wf forest s)
    (held : ∀ k, Held s.tables.length (o.values.lookup k)) :
    Wf forest (s.updateProxy view fun q => { q with order := some o }) := by
  refine wf.updateProxy (fun q => ⟨rfl, rfl, rfl, rfl, rfl, rfl⟩) fun q here => ?_
  obtain ⟨place, ok⟩ := wf.proxy here
  refine ⟨place, ok.at_, ok.cursor, ok.kind, ok.span, ok.parent, ok.childCache, ok.elems, ?_⟩
  intro o' same k v at_
  obtain rfl := Option.some.inj same
  exact held k v at_

/-- An unused child is not the view. -/
theorem Yields.update {v : Option (Value F)} {d : Nat} (wf : Wf forest s)
    (yields : Yields env s view d place v) (change : Proxy F → Proxy F) :
    Yields env (s.updateProxy view change) view d place v := by
  unfold Yields at yields ⊢
  cases kind : place.node.kind? with
  | none =>
      rw [kind] at yields
      exact yields
  | some kind' =>
      rw [kind] at yields
      obtain ⟨r, same, at_⟩ := yields
      obtain ⟨place', ok⟩ := wf.proxy at_
      have older := ok.parent view rfl
      refine ⟨r, same, proxy?_eq_some.2 ((getElem?_updateProxy _).2 (.inr
        ⟨proxy?_eq_some.1 at_, fun clash => ?_⟩))⟩
      omega

end Order

end QJson.Table
