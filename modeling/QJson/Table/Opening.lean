import QJson.Table.Heap

/-!
# Opening children

Decoding the children of a proxy adds unused proxies to the heap and changes no table that
was there.  What the walks of the wrapper return is said child by child.
-/

namespace QJson.Table

open Rfc8259 Validate Doc Decode Ffi Lua

/-! ## Unused proxies -/

/-- A proxy that was not used yet. -/
def Unused {F : Type} (table : LuaTable F) : Prop :=
  ∃ kind parent doc place, table = .proxy (fresh kind parent doc place)

/-- Unused proxies were added, and nothing else changed that can be seen. -/
def Opens {F : Type} (s s' : State F) : Prop :=
  ∃ added : List (LuaTable F), (∀ table ∈ added, Unused table) ∧ Adds added s s'

/-- A child as decoding returns it: a leaf, or an unused proxy below the view. -/
def Yields {F : Type} [DecidableEq F] (env : Env F) (s : State F) (view d : Nat)
    (place : Place) (v : Option (Value F)) : Prop :=
  match place.node.kind? with
  | some kind => ∃ r, v = some (.table r) ∧
      s.proxy? r = some (fresh kind (some view) d place)
  | none => ∃ w, v = some w ∧ IsLeaf env place.node w

section Opening

variable {F : Type} {s s' s'' : State F}

theorem Quiet.opens (quiet : Quiet s s') : Opens s s' :=
  ⟨[], fun _ none => (nomatch none), quiet.adds⟩

theorem Opens.refl (s : State F) : Opens s s := (Quiet.refl s).opens

theorem Opens.trans (first : Opens s s') (second : Opens s' s'') : Opens s s'' := by
  obtain ⟨added, unused, adds⟩ := first
  obtain ⟨added', unused', adds'⟩ := second
  refine ⟨added ++ added', fun table member => ?_, ?_⟩
  · rcases List.mem_append.1 member with old | new
    · exact unused table old
    · exact unused' table new
  · refine ⟨adds'.docs.trans adds.docs, ?_, adds'.origins.trans adds.origins,
      adds'.loops.trans adds.loops, adds'.settings.trans adds.settings⟩
    rw [adds'.tables]
    simp only [adds.tables, List.append_assoc]

theorem Opens.docs (opens : Opens s s') : s'.docs = s.docs := by
  obtain ⟨added, -, adds⟩ := opens
  exact adds.docs

theorem Opens.loops (opens : Opens s s') : s'.loops = s.loops := by
  obtain ⟨added, -, adds⟩ := opens
  exact adds.loops

theorem Opens.origins (opens : Opens s s') : s'.origins = s.origins := by
  obtain ⟨added, -, adds⟩ := opens
  exact adds.origins

theorem Opens.getElem? (opens : Opens s s') {r : Nat} {table : LuaTable F}
    (here : s.tables[r]? = some table) : s'.tables[r]? = some table := by
  obtain ⟨added, -, adds⟩ := opens
  rw [adds.tables]
  exact (List.getElem?_append_left (List.getElem?_eq_some_iff.1 here).1).trans here

theorem Opens.proxy? (opens : Opens s s') {r : Nat} {q : Proxy F}
    (here : s.proxy? r = some q) : s'.proxy? r = some q :=
  proxy?_eq_some.2 (opens.getElem? (proxy?_eq_some.1 here))

theorem Opens.plain? (opens : Opens s s') {r : Nat} {p : Plain F}
    (here : s.plain? r = some p) : s'.plain? r = some p :=
  plain?_eq_some.2 (opens.getElem? (plain?_eq_some.1 here))

/-- A table that was not there is unused. -/
theorem Opens.unused (opens : Opens s s') {r : Nat} {table : LuaTable F}
    (new : s.tables.length ≤ r) (here : s'.tables[r]? = some table) : Unused table := by
  obtain ⟨added, unused, adds⟩ := opens
  rw [adds.tables] at here
  change (s.tables ++ added)[r]? = some table at here
  rw [List.getElem?_append_right new] at here
  exact unused table (List.mem_of_getElem? here)

theorem Opens.later (opens : Opens s s') : Later s s' :=
  fun _ table here => ⟨table, opens.getElem? here, Follows.refl table⟩

variable [DecidableEq F] {env : Env F} {forest : Forest} {view d : Nat} {place : Place}

theorem Yields.opens {v : Option (Value F)} (yields : Yields env s view d place v)
    (opens : Opens s s') : Yields env s' view d place v := by
  unfold Yields at yields ⊢
  cases kind : place.node.kind? with
  | none =>
      rw [kind] at yields
      exact yields
  | some kind' =>
      rw [kind] at yields
      obtain ⟨r, same, here⟩ := yields
      exact ⟨r, same, opens.proxy? here⟩

theorem Yields.held {v : Option (Value F)} (yields : Yields env s view d place v) :
    Held s.tables.length v := by
  unfold Yields at yields
  cases kind : place.node.kind? with
  | none =>
      rw [kind] at yields
      obtain ⟨w, rfl, leaf⟩ := yields
      exact held_some (below_of_leaf leaf)
  | some kind' =>
      rw [kind] at yields
      obtain ⟨r, rfl, here⟩ := yields
      exact held_some (lt_of_proxy? here)

theorem Yields.isSome {v : Option (Value F)} (yields : Yields env s view d place v) :
    ∃ w, v = some w := by
  unfold Yields at yields
  cases kind : place.node.kind? with
  | none =>
      rw [kind] at yields
      obtain ⟨w, same, -⟩ := yields
      exact ⟨w, same⟩
  | some kind' =>
      rw [kind] at yields
      obtain ⟨r, same, -⟩ := yields
      exact ⟨_, same⟩

/-- What walks over children keep: the heap is well formed, and they only open. -/
structure Opened (forest : Forest) (s s' : State F) : Prop where
  wf : Wf forest s'
  opens : Opens s s'

theorem Opened.refl (wf : Wf forest s) : Opened forest s s := ⟨wf, Opens.refl s⟩

theorem Opened.quiet (opened : Opened forest s s') (quiet : Quiet s' s'')
    (library : Library forest s'') : Opened forest s s'' :=
  ⟨opened.wf.quiet quiet library, opened.opens.trans quiet.opens⟩

theorem Opened.trans (first : Opened forest s s') (second : Opened forest s' s'') :
    Opened forest s s'' :=
  ⟨second.wf, first.opens.trans second.opens⟩

theorem wp_decodeChild (wf : Wf forest s) (at_ : At forest d place)
    (inside : view < s.tables.length) :
    Action.Wp (decodeCursor env (some view) d place.cursor) s
      (fun v s' => Opened forest s s' ∧ Yields env s' view d place v)
      fun s' => Opened forest s s' ∧ Unreadable env place.node := by
  refine (wp_decodeCursor wf.library at_ (some view)).mono (fun v s' decoded => ?_)
    fun s' failed => ⟨⟨wf.quiet failed.quiet failed.library, failed.quiet.opens⟩,
      failed.unreadable⟩
  have returns := decoded.returns
  unfold Yields
  cases kind : place.node.kind? with
  | none =>
      rw [kind] at returns
      exact ⟨⟨wf.quiet returns.1 decoded.library, returns.1.opens⟩, returns.2⟩
  | some kind' =>
      rw [kind] at returns
      obtain ⟨rfl, adds⟩ := returns
      have older : ∀ p, some view = some p → p < s.tables.length := by
        intro p same
        obtain rfl := Option.some.inj same
        exact inside
      have ok : TableOk forest (s.tables.length + 1) s.tables.length
          (.proxy (fresh (F := F) kind' (some view) d place)) :=
        ⟨place, fresh_ok at_ kind older⟩
      refine ⟨⟨wf.added ok adds decoded.library, _, fun table member => ?_, adds⟩, _, rfl, ?_⟩
      · exact ⟨kind', some view, d, place, List.mem_singleton.1 member⟩
      · rw [proxy?_eq_some, getElem?_added adds.tables, if_pos rfl]

end Opening

/-! ## The contents of a proxy -/

section Contents

variable {F : Type} [DecidableEq F] {env : Env F} {forest : Forest} {s : State F} {view : Nat}
  {q : Proxy F} {place : Place}

omit [DecidableEq F] in
/-- The loops of the walks are over children that stand in the document. -/
theorem ProxyOk.child {n r k : Nat} {child : Child} (ok : ProxyOk forest n r q place)
    (here : place.children[k]? = some child) : At forest q.doc child.place :=
  ok.at_.child here

theorem wp_materializeObjectContents (wf : Wf forest s) (here : s.proxy? view = some q)
    (ok : ProxyOk forest s.tables.length view q place) (object : q.kind = .obj) :
    Action.Wp (materializeObjectContents env view q) s
      (fun contents s' => Opened forest s s' ∧ List.Forall₂ (fun child kv =>
        kv.1 = keyText child ∧ Yields env s' view q.doc child.place kv.2) place.children
          contents)
      fun s' => Opened forest s s' ∧
        ∃ child ∈ place.children, Unreadable env child.place.node := by
  have inv : LoopInv forest fun done (out : List (Bytes × Option (Value F))) s' =>
      Opened forest s s' ∧ List.Forall₂ (fun child kv =>
        kv.1 = keyText child ∧ Yields env s' view q.doc child.place kv.2) done out :=
    { library := fun _ _ _ kept => kept.1.wf.library
      quiet := fun _ _ _ _ kept quiet library => ⟨kept.1.quiet quiet library,
        kept.2.imp fun _ _ each => ⟨each.1, each.2.opens quiet.opens⟩⟩ }
  refine wp_forEntries ok.at_ ok.cursor (ok.kind.trans (congrArg some object)) inv ?_
    ⟨Opened.refl wf, .nil⟩
  intro k child out s' at_ kept
  rw [Action.wp_bind]
  refine (wp_decodeChild kept.1.wf (ok.child at_)
    (lt_of_proxy? (kept.1.opens.proxy? here))).mono (fun v s'' decoded => ?_)
    fun s'' failed => ⟨kept.1.trans failed.1, child, List.mem_of_getElem? at_, failed.2⟩
  refine ⟨kept.1.trans decoded.1, List.rel_append (kept.2.imp fun _ _ each =>
    ⟨each.1, each.2.opens decoded.1.opens⟩) (.cons ⟨rfl, decoded.2⟩ .nil)⟩

theorem wp_materializeArrayContents (wf : Wf forest s) (here : s.proxy? view = some q)
    (ok : ProxyOk forest s.tables.length view q place) (array : q.kind = .arr) :
    Action.Wp (materializeArrayContents env view q) s
      (fun contents s' => Opened forest s s' ∧ List.Forall₂ (fun child v =>
        Yields env s' view q.doc child.place v) place.children contents)
      fun s' => Opened forest s s' ∧
        ∃ child ∈ place.children, Unreadable env child.place.node := by
  have inv : LoopInv forest fun done (out : List (Option (Value F))) s' =>
      Opened forest s s' ∧ List.Forall₂ (fun child v =>
        Yields env s' view q.doc child.place v) done out :=
    { library := fun _ _ _ kept => kept.1.wf.library
      quiet := fun _ _ _ _ kept quiet library => ⟨kept.1.quiet quiet library,
        kept.2.imp fun _ _ each => each.opens quiet.opens⟩ }
  refine wp_forElements ok.at_ ok.cursor (ok.kind.trans (congrArg some array)) inv ?_
    ⟨Opened.refl wf, .nil⟩
  intro k child out s' at_ kept
  rw [Action.wp_bind]
  refine (wp_decodeChild kept.1.wf (ok.child at_)
    (lt_of_proxy? (kept.1.opens.proxy? here))).mono (fun v s'' decoded => ?_)
    fun s'' failed => ⟨kept.1.trans failed.1, child, List.mem_of_getElem? at_, failed.2⟩
  refine ⟨kept.1.trans decoded.1, List.rel_append (kept.2.imp fun _ _ each =>
    each.opens decoded.1.opens) (.cons decoded.2 .nil)⟩

end Contents

end QJson.Table
