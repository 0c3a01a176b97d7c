import Mathlib.Data.Finite.Prod
import Mathlib.Data.Set.Finite.Range
import QJson.Table.Descents

/-!
# When materialization returns

Where materialization returns a value, every walk that it made has come to an end.  So it
returns none where a proxy that it comes by holds itself.
-/

namespace QJson.Table

open Rfc8259 Validate Doc Decode Ffi Lua Relation

/-! ## Walks that came to an end -/

section Returned

variable {F : Type} [DecidableEq F] {env : Env F} {forest : Forest} {s s' : State F}
  {mode : Bool} {n view : Nat} {q : Proxy F} {place : Place}
  {recur : Option (Value F) → Act F (Option (Value F))}

/-- Every walk that materialization of a value makes ends. -/
def Grounded (env : Env F) (s : State F) (mode : Bool) (v : Option (Value F)) : Prop :=
  ∀ w, v = some w → Acc (fun b a => Calls env s a b) (mode, w)

/-- A function that returns on grounded values alone. -/
def Grounds (env : Env F) (forest : Forest) (mode : Bool)
    (recur : Option (Value F) → Act F (Option (Value F))) : Prop :=
  ∀ s v, Wf forest s → Held s.tables.length v →
    Action.Wp (recur v) s (fun _ _ => Grounded env s mode v) fun _ => True

/-- A heap that grew has the walks that it had. -/
theorem Grown.grounded (grown : Grown env forest s s') (wf : Wf forest s)
    {v : Option (Value F)} (held : Held s.tables.length v) (grounded : Grounded env s' mode v) :
    Grounded env s mode v := by
  rintro w rfl
  have below := held w rfl
  have acc := grounded w rfl
  clear held grounded
  generalize at_ : (mode, w) = next at acc
  induction acc generalizing mode w with
  | intro next _ ih =>
    subst at_
    refine .intro _ ?_
    rintro _ (@⟨_, r, q, v, here, called⟩)
    have still : ∃ q', s'.proxy? r = some q' := by
      rcases grown.proxy r q here with same | ⟨-, -, -, o, -, -, -, -, -, same⟩
      · exact ⟨_, same⟩
      · exact ⟨_, same⟩
    obtain ⟨q', here'⟩ := still
    obtain ⟨place, ok⟩ := wf.proxy here
    obtain ⟨dirty, forth, -⟩ := grown.called wf here here' ok mode v
    have step : Calls env s' (mode, .table r) (mode && !q.dirty, v) := by
      rw [← dirty] at called forth ⊢
      exact .child here' (forth called)
    exact ih _ step _ (called.below wf here) rfl

/-- A value without children is grounded. -/
theorem grounded_of_not_table {v : Option (Value F)} (none_ : ∀ r, v ≠ some (.table r)) :
    Grounded env s mode v := by
  rintro w rfl
  refine .intro _ ?_
  rintro _ (@⟨_, r, q, v, here, called⟩)
  exact absurd rfl (none_ r)

theorem grounds_child (settles : Settles env forest mode recur)
    (grounds : Grounds env forest mode recur) (wf : Wf forest s) (kept : Kept env forest s s')
    {v : Option (Value F)} (held : Held s.tables.length v) :
    Action.Wp (recur v) s' (fun _ s'' => Kept env forest s s'' ∧ Grounded env s mode v)
      fun _ => True := by
  have held' := held.mono kept.grown.length_le
  have keeps : Action.Wp (recur v) s' (fun _ s'' => Kept env forest s s'') fun _ => True :=
    (settles s' v kept.wf held').mono (fun _ _ settled => kept.trans settled.kept)
      fun _ _ => trivial
  exact (keeps.and (grounds s' v kept.wf held')).mono
    (fun _ _ both => ⟨both.1, kept.grown.grounded wf held both.2⟩) fun _ _ => trivial

/-- What is looked up first is grounded where the value that counts is. -/
theorem grounded_of_luaOr {a b : Option (Value F)} (grounded : Grounded env s mode (luaOr a b)) :
    Grounded env s mode a := by
  rw [luaOr] at grounded
  split at grounded
  · exact grounded
  · rename_i falsy
    refine grounded_of_not_table fun r same => falsy ?_
    rw [same]
    rfl

/-- A proxy is grounded when its children are. -/
theorem grounded_proxy (here : s.proxy? view = some q)
    (children : ∀ v, Called env s (mode && !q.dirty) q v →
      Grounded env s (mode && !q.dirty) (some v)) :
    Grounded env s mode (some (.table view)) := by
  intro w same
  obtain rfl := Option.some.inj same
  refine .intro _ ?_
  rintro _ (@⟨_, r, q', v, here', called⟩)
  obtain rfl := Option.some.inj (here.symm.trans here')
  exact children v called v rfl

end Returned

/-! ## Without provenance -/

section Plain

variable {F : Type} [DecidableEq F] {env : Env F} {forest : Forest} {s : State F} {view : Nat}
  {q : Proxy F} {place : Place} {recur : Option (Value F) → Act F (Option (Value F))}
  (settles : Settles env forest false recur) (grounds : Grounds env forest false recur)
  (wf : Wf forest s) (here : s.proxy? view = some q)
include settles grounds wf here

theorem grounds_materializeOrdered {order : Order F} (ordered : q.order = some order) :
    Action.Wp (materializeOrdered recur order) s (fun _ _ => ∀ k ∈ order.keys,
      Grounded env s false (order.values.lookup k)) fun _ => True := by
  obtain ⟨place, ok⟩ := wf.proxy here
  refine (Action.wp_foldlM (fun done _ s' => Kept env forest s s' ∧
    ∀ k ∈ done, Grounded env s false (order.values.lookup k)) ?_
    ⟨.refl wf, nofun⟩).mono (fun _ _ => And.right) fun _ => id
  rintro done k out s' - ⟨kept, grounded⟩
  cases entry : order.values.lookup k with
  | none => trivial
  | some val =>
      change Action.Wp (recur (some val) >>= fun w => pure (put out (.str k) w)) s' _ _
      rw [Action.wp_bind]
      refine (grounds_child settles grounds wf kept
        (held_some (ok.order order ordered k val entry))).mono ?_ fun _ => id
      rintro w s'' ⟨kept', last⟩
      refine ⟨kept', fun k' member => ?_⟩
      rcases List.mem_append.1 member with old | new
      · exact grounded k' old
      · obtain rfl := List.mem_singleton.1 new
        rw [entry]
        exact last

theorem grounds_materializeContents (ok : ProxyOk forest s.tables.length view q place)
    (clean : q.dirty = false) {contents : List (Bytes × Option (Value F))}
    (decoded : List.Forall₂ (fun child kv => kv.1 = keyText child ∧
      Yields env s view q.doc child.place kv.2) place.children contents) :
    Action.Wp (materializeContents recur view contents) s (fun _ _ => ∀ kv ∈ contents,
      Grounded env s false (q.childCache.lookup kv.1)) fun _ => True := by
  refine (Action.wp_foldlM (fun done _ s' => Kept env forest s s' ∧
    ∀ kv ∈ done, Grounded env s false (q.childCache.lookup kv.1)) ?_
    ⟨.refl wf, nofun⟩).mono (fun _ _ => And.right) fun _ => id
  rintro done kv out s' member ⟨kept, grounded⟩
  obtain ⟨child, -, -, yields⟩ := forall₂_right decoded member
  rw [cachedChild, Action.wp_bind, Action.wp_bind, Action.wp_get, Action.wp_pure,
    kept.grown.same here (.inr (.inr clean)), Option.bind_some, Action.wp_bind]
  refine (grounds_child settles grounds wf kept
    (held_luaOr (ok.childCache kv.1) yields.held)).mono ?_ fun _ => id
  rintro w s'' ⟨kept', last⟩
  refine ⟨kept', fun other member => ?_⟩
  rcases List.mem_append.1 member with old | new
  · exact grounded other old
  · obtain rfl := List.mem_singleton.1 new
    exact grounded_of_luaOr last

theorem grounds_materializeElements (ok : ProxyOk forest s.tables.length view q place)
    (array : q.kind = .arr) {contents : List (Option (Value F))}
    (decoded : List.Forall₂ (fun child v => Yields env s view q.doc child.place v)
      place.children contents) :
    Action.Wp (materializeElements recur view contents) s (fun _ _ => ∀ i,
      Grounded env s false (q.elems.lookup i)) fun _ => True := by
  have all : contents.takeWhile Option.isSome = contents := by
    refine List.takeWhile_eq_self_iff.2 fun v member => ?_
    obtain ⟨child, -, yields⟩ := forall₂_right decoded member
    obtain ⟨w, rfl⟩ := yields.isSome
    rfl
  rw [materializeElements, all]
  refine (Action.wp_foldlM (fun done _ s' => Kept env forest s s' ∧
    ∀ x ∈ done, Grounded env s false (q.elems.lookup x.2)) ?_
    ⟨.refl wf, fun x none => by cases none⟩).mono (fun _ _ kept i w entry => ?_) fun _ => id
  · rintro done x out s' member ⟨kept, grounded⟩
    obtain ⟨child, -, yields⟩ := forall₂_right decoded (List.fst_mem_of_mem_zipIdx member)
    rw [rawElem, Action.wp_bind, Action.wp_bind, Action.wp_get, Action.wp_pure,
      kept.grown.same here (.inl array), Option.bind_some, Action.wp_bind]
    refine (grounds_child settles grounds wf kept
      (held_luaOr (fun v entry => (ok.elems x.2 v entry).1) yields.held)).mono ?_ fun _ => id
    rintro w s'' ⟨kept', last⟩
    refine ⟨kept', fun other member => ?_⟩
    rcases List.mem_append.1 member with old | new
    · exact grounded other old
    · obtain rfl := List.mem_singleton.1 new
      exact grounded_of_luaOr last
  · -- An element that is held is one of the source.
    obtain ⟨-, low, high⟩ := ok.elems i w entry
    have inside : i - 1 < contents.length := by
      rw [← decoded.length_eq]
      omega
    have member : (contents[i - 1], i) ∈ contents.zipIdx 1 := by
      refine List.mem_iff_getElem.2 ⟨i - 1, by rw [List.length_zipIdx]; exact inside, ?_⟩
      rw [List.getElem_zipIdx]
      exact Prod.ext rfl (by simp only; omega)
    exact kept.2 _ member w entry

theorem grounds_materializePlainProxy :
    Action.Wp (materializePlainProxy env recur view q) s
      (fun _ _ => Grounded env s false (some (.table view))) fun _ => True := by
  obtain ⟨place, ok⟩ := wf.proxy here
  have held : Held s.tables.length (some (.table view : Value F)) := held_some (lt_of_proxy? here)
  -- The walk starts where the heap has grown, and a table is made behind it.
  have behind {s' : State F} {q' : Proxy F} {kind : Kind} {action : Act F (Map (Key F) (Value F))}
      {post : Prop} (kept : Kept env forest s s') (here' : s'.proxy? view = some q')
      (walk : Action.Wp action s' (fun _ _ => post) fun _ => True)
      (children : post → ∀ v, Called env s' false q' v → Grounded env s' false (some v)) :
      Action.Wp (action >>= newPlain env kind) s'
        (fun _ _ => Grounded env s false (some (.table view))) fun _ => True := by
    rw [Action.wp_bind]
    refine walk.mono (fun out s'' all => ?_) fun _ => id
    exact kept.grown.grounded wf held (grounded_proxy here' (children all))
  rw [materializePlainProxy]
  cases kind : q.kind with
  | arr =>
      change Action.Wp (materializeArrayContents env view q >>= _) s _ _
      rw [Action.wp_bind]
      refine (wp_materializeArrayContents wf here ok kind).mono (fun contents s' walked => ?_)
        fun _ _ => trivial
      obtain ⟨opened, decoded⟩ := walked
      have here' := opened.opens.proxy? here
      refine behind opened.kept here' (grounds_materializeElements settles grounds opened.wf
        here' (ok.mono opened.opens.later.length_le) kind decoded) fun all v called => ?_
      obtain ⟨i, entry⟩ := (called_arr kind).1 called
      rw [← entry]
      exact all i
  | obj =>
      have ordering {s' : State F} {q' : Proxy F} {order : Order F} (kept : Kept env forest s s')
          (here' : s'.proxy? view = some q') (kind' : q'.kind = .obj)
          (ordered : q'.order = some order) :
          Action.Wp (materializeOrdered recur order >>= newPlain env .obj) s'
            (fun _ _ => Grounded env s false (some (.table view))) fun _ => True := by
        refine behind kept here' (grounds_materializeOrdered settles grounds kept.wf here'
          ordered) fun all v called => ?_
        obtain ⟨k, member, entry⟩ : ∃ k ∈ order.keys, order.values.lookup k = some v := by
          simpa [Shown, kind', ordered] using called_false.1 called
        rw [← entry]
        exact all k member
      by_cases ordered : q.order.isSome ∨ q.dirty
      · simp only [ordered, if_true]
        rw [Action.wp_bind]
        cases isOrder : q.order with
        | some order =>
            rw [ensureObjectOrderState, isOrder]
            exact ordering (.refl wf) here kind isOrder
        | none =>
            have dirty : q.dirty = true := by simpa [isOrder] using ordered
            refine (wp_ensureObjectOrderState wf here ok kind isOrder).mono ?_ fun _ _ => trivial
            rintro o _ ⟨s₁, opened, order, rfl⟩
            have here₁ := opened.opens.proxy? here
            have kept := opened.kept.trans (kept_ordered opened.wf here₁
              (ok.mono opened.opens.later.length_le) kind isOrder dirty order)
            have here₂ : (s₁.updateProxy view fun q => { q with order := some o }).proxy? view =
                some { q with order := some o } :=
              proxy?_eq_some.2 ((getElem?_updateProxy _).2 (.inl ⟨q, rfl,
                proxy?_eq_some.1 here₁, rfl⟩))
            exact ordering kept here₂ kind rfl
      · simp only [ordered, if_false]
        rw [Action.wp_bind]
        refine (wp_materializeObjectContents wf here ok kind).mono (fun contents s' walked => ?_)
          fun _ _ => trivial
        obtain ⟨opened, decoded⟩ := walked
        have here' := opened.opens.proxy? here
        have clean : q.dirty = false := by simpa using fun dirty => ordered (.inr dirty)
        have unordered : q.order = none := by simpa using fun some_ => ordered (.inl some_)
        have keys : sourceKeys env s' q = contents.map Prod.fst := by
          rw [sourceKeys_eq opened.wf.library ok.at_ ok.cursor (ok.kind.trans (congrArg some kind)),
            ← List.forall₂_eq_eq_eq, List.forall₂_map_left_iff, List.forall₂_map_right_iff]
          exact decoded.imp fun _ _ each => each.1.symm
        refine behind opened.kept here' (grounds_materializeContents settles grounds opened.wf
          here' (ok.mono opened.opens.later.length_le) clean decoded) fun all v called => ?_
        obtain ⟨k, member, entry⟩ : ∃ k ∈ contents.map Prod.fst,
            q.childCache.lookup k = some v := by
          simpa [Shown, kind, unordered, clean, keys] using called_false.1 called
        obtain ⟨kv, inside, rfl⟩ := List.mem_map.1 member
        rw [← entry]
        exact all kv inside

omit settles grounds wf here in
theorem grounds_materializePlain (room : Nat) :
    Grounds env forest false (materializePlain env room) := by
  induction room with
  | zero => exact fun s v wf _ => trivial
  | succ room ih =>
      intro s v wf held
      rw [materializePlain, Action.wp_bind, Action.wp_get]
      split
      · rename_i r
        cases here : s.proxy? r with
        | none =>
            rintro w same
            obtain rfl := Option.some.inj same
            refine .intro _ ?_
            rintro _ (@⟨_, r, q, v, here', called⟩)
            rw [here] at here'
            cases here'
        | some q =>
            change Action.Wp (materializePlainProxy env (materializePlain env room) r q >>= _) s _ _
            rw [Action.wp_bind]
            exact (grounds_materializePlainProxy (settles_materializePlain room) ih wf here).mono
              (fun _ _ => id) fun _ => id
      · rename_i noTable
        exact grounded_of_not_table noTable

end Plain

/-! ## With provenance -/

section Origins

variable {F : Type} [DecidableEq F] {env : Env F} {forest : Forest} {s : State F} {view : Nat}
  {q : Proxy F} {place : Place} {recur : Option (Value F) → Act F (Option (Value F))}
  (settles : Settles env forest true recur) (grounds : Grounds env forest true recur)
  (wf : Wf forest s)
include settles grounds wf

theorem grounds_originChild {s' : State F} {v : Option (Value F)} (kept : Kept env forest s s')
    (held : Held s.tables.length v) {d : Nat}
    (finish : Option (Value F) → Bytes → State F → Walk F) :
    Action.Wp (do
        let v ← recur v
        let source ← hold d
        let at_ ← Action.get
        return finish v source at_) s'
      (fun w s'' => (Kept env forest s s'' ∧ Grounded env s true v) ∧
        ∃ v source at_, w = finish v source at_) fun _ => True := by
  rw [Action.wp_bind]
  exact (grounds_child settles grounds wf kept held).mono
    (fun v s'' grounded => ⟨grounded, v, _, s'', rfl⟩) fun _ => id

variable (here : s.proxy? view = some q) (clean : q.dirty = false)
include here clean

theorem grounds_originEntry (ok : ProxyOk forest s.tables.length view q place)
    {s' : State F} {done : List Child} {child : Child} (at_ : At forest q.doc child.place)
    {w : Walk F} (kept : Kept env forest s s')
    (keys : ∀ k, k ∈ w.keys ↔ k ∈ done.map keyText)
    (grounded : ∀ k ∈ w.keys, Grounded env s true (q.childCache.lookup k)) :
    Action.Wp (originEntry env recur view q w (keyText child) child.cursor) s'
      (fun w' s'' => Kept env forest s s'' ∧
        (∀ k, k ∈ w'.keys ↔ k ∈ (done ++ [child]).map keyText) ∧
        ∀ k ∈ w'.keys, Grounded env s true (q.childCache.lookup k)) fun _ => True := by
  have names (k : Bytes) : k ∈ (done ++ [child]).map keyText ↔
      k ∈ done.map keyText ∨ k = keyText child := by
    rw [List.map_append, List.mem_append, List.map_singleton, List.mem_singleton]
  -- Behind the child, one more key was met.
  have finished {w' : Walk F} {v : Option (Value F)} {record : Option (Record F)}
      (same : w' = w.member (keyText child) v record) {s'' : State F}
      (kept' : Kept env forest s s'')
      (last : Grounded env s true (q.childCache.lookup (keyText child))) :
      Kept env forest s s'' ∧ (∀ k, k ∈ w'.keys ↔ k ∈ (done ++ [child]).map keyText) ∧
        ∀ k ∈ w'.keys, Grounded env s true (q.childCache.lookup k) := by
    subst same
    refine ⟨kept', fun k => by rw [w.mem_member_keys, names, keys], fun k member => ?_⟩
    rcases (w.mem_member_keys _ _ _ k).1 member with old | rfl
    · exact grounded k old
    · exact last
  rw [originEntry, Action.wp_bind]
  refine wp_cursorTokenSpan kept.wf.library at_ fun s₁ quiet library => ?_
  have kept₁ := kept.trans (quiet.kept kept.wf library)
  have here₁ := kept₁.grown.same here (.inr (.inr clean))
  have decodes (last : Grounded env s true (q.childCache.lookup (keyText child))) :
      Action.Wp (do
          let v ← decodeCursor env (some view) q.doc child.cursor
          let v ← recur v
          let source ← hold q.doc
          let at_ ← Action.get
          return w.member (keyText child) v (originChildRecord at_ v source child.place.pos
            (child.place.pos + child.place.node.render.length))) s₁
        (fun w' s'' => Kept env forest s s'' ∧
          (∀ k, k ∈ w'.keys ↔ k ∈ (done ++ [child]).map keyText) ∧
          ∀ k ∈ w'.keys, Grounded env s true (q.childCache.lookup k)) fun _ => True := by
    rw [Action.wp_bind]
    refine (wp_decodeChild kept₁.wf at_ (lt_of_proxy? here₁)).mono (fun v s₂ decoded => ?_)
      fun _ _ => trivial
    refine (grounds_originChild settles grounds decoded.1.wf (.refl decoded.1.wf)
      decoded.2.held _).mono ?_ fun _ => id
    rintro w' s'' ⟨⟨kept₂, -⟩, v, source, at_, same⟩
    exact finished same (kept₁.trans (decoded.1.kept.trans kept₂)) last
  by_cases first : keyText child ∉ w.keys
  · simp only [Walk.member, first, not_false_eq_true, if_true] at decodes finished ⊢
    rw [cachedChild, Action.wp_bind, Action.wp_bind, Action.wp_get, Action.wp_pure, here₁,
      Option.bind_some]
    cases cached : q.childCache.lookup (keyText child) with
    | none =>
        apply decodes
        rw [cached]
        exact grounded_of_not_table fun r none => by cases none
    | some c =>
        refine (grounds_originChild settles grounds wf kept₁
          (held_some (ok.childCache _ c cached)) _).mono ?_ fun _ => id
        rintro w' s'' ⟨⟨kept₂, last⟩, v, source, at_, same⟩
        exact finished same kept₂ (by rw [cached]; exact last)
  · simp only [Walk.member, first, if_false] at decodes ⊢
    exact decodes (grounded _ (not_not.1 first))

theorem grounds_originElement (ok : ProxyOk forest s.tables.length view q place)
    {s' : State F} {k : Nat} {child : Child} (at_ : At forest q.doc child.place)
    {w : Walk F} (kept : Kept env forest s s') :
    Action.Wp (originElement env recur view q w k child.cursor) s'
      (fun _ s'' => Kept env forest s s'' ∧ Grounded env s true (q.elems.lookup (k + 1)))
      fun _ => True := by
  rw [originElement, Action.wp_bind]
  refine wp_cursorTokenSpan kept.wf.library at_ fun s₁ quiet library => ?_
  have kept₁ := kept.trans (quiet.kept kept.wf library)
  have here₁ := kept₁.grown.same here (.inr (.inr clean))
  rw [rawElem, Action.wp_bind, Action.wp_bind, Action.wp_get, Action.wp_pure, here₁,
    Option.bind_some]
  dsimp only
  split
  · exact (grounds_originChild settles grounds wf kept₁
      (fun v entry => (ok.elems _ v entry).1) _).mono (fun _ _ => And.left) fun _ => id
  · rename_i falsy
    have last : Grounded env s true (q.elems.lookup (k + 1)) := by
      refine grounded_of_not_table fun r same => falsy ?_
      rw [same]
      rfl
    rw [Action.wp_bind]
    refine (wp_decodeChild kept₁.wf at_ (lt_of_proxy? here₁)).mono (fun v s₂ decoded => ?_)
      fun _ _ => trivial
    refine (grounds_originChild settles grounds decoded.1.wf (.refl decoded.1.wf)
      decoded.2.held _).mono ?_ fun _ => id
    rintro w' s'' ⟨⟨kept₂, -⟩, -⟩
    exact ⟨kept₁.trans (decoded.1.kept.trans kept₂), last⟩

/-- `materialize_object_with_origin` and `materialize_array_with_origin`. -/
theorem grounds_materializeOriginProxy :
    Action.Wp (materializeOriginProxy env recur view q) s
      (fun _ _ => Grounded env s true (some (.table view))) fun _ => True := by
  obtain ⟨place, ok⟩ := wf.proxy here
  have behind {post : Prop} {walk : Act F (Walk F)}
      (ran : Action.Wp walk s (fun _ _ => post) fun _ => True)
      (children : post → ∀ v, Called env s true q v → Grounded env s true (some v)) :
      Action.Wp (walk >>= newOriginTable env q) s
        (fun _ _ => Grounded env s true (some (.table view))) fun _ => True := by
    rw [Action.wp_bind]
    refine ran.mono (fun w s' all => ?_) fun _ => id
    have root : Grounded env s true (some (.table view)) := by
      refine grounded_proxy here ?_
      rw [clean]
      exact children all
    exact root
  rw [materializeOriginProxy]
  cases kind : q.kind with
  | obj =>
      have object := ok.kind.trans (congrArg some kind)
      have keys : sourceKeys env s q = place.children.map keyText :=
        sourceKeys_eq wf.library ok.at_ ok.cursor object
      have inv : LoopInv forest fun done (w : Walk F) s' => Kept env forest s s' ∧
          (∀ k, k ∈ w.keys ↔ k ∈ done.map keyText) ∧
          ∀ k ∈ w.keys, Grounded env s true (q.childCache.lookup k) :=
        { library := fun _ _ _ kept => kept.1.wf.library
          quiet := fun _ _ _ _ kept quiet library =>
            ⟨kept.1.trans (quiet.kept kept.1.wf library), kept.2⟩ }
      have walk : Action.Wp (forEntries env q (originEntry env recur view q) Walk.start) s
          (fun _ _ => ∀ k ∈ place.children.map keyText,
            Grounded env s true (q.childCache.lookup k)) fun _ => True := by
        refine (wp_forEntries ok.at_ ok.cursor object inv (fun k child w s' at_ kept => ?_)
          ⟨.refl wf, fun k => Iff.rfl, fun k none => absurd none List.not_mem_nil⟩).mono
          (fun w s' kept k member => kept.2.2 k ((kept.2.1 k).2 member)) fun _ => id
        exact grounds_originEntry settles grounds wf here clean ok (ok.child at_) kept.1 kept.2.1
          kept.2.2
      refine behind walk fun all v called => ?_
      rw [Called.eq_def, kind, keys] at called
      obtain ⟨k, member, entry⟩ := called
      rw [← entry]
      exact all k member
  | arr =>
      have inv : LoopInv forest fun done (_ : Walk F) s' => Kept env forest s s' ∧
          ∀ i, 1 ≤ i → i ≤ done.length → Grounded env s true (q.elems.lookup i) :=
        { library := fun _ _ _ kept => kept.1.wf.library
          quiet := fun _ _ _ _ kept quiet library =>
            ⟨kept.1.trans (quiet.kept kept.1.wf library), kept.2⟩ }
      refine behind ((wp_forElements ok.at_ ok.cursor (ok.kind.trans (congrArg some kind)) inv ?_
        ⟨.refl wf, fun i low high => ?_⟩).mono (fun w s' kept => kept.2) fun _ => id)
        fun all v called => ?_
      · intro k child w s' at_ kept
        have length : (place.children.take k).length = k :=
          List.length_take_of_le (List.getElem?_eq_some_iff.1 at_).1.le
        rw [List.length_append, length, List.length_singleton]
        rw [length] at kept
        refine (grounds_originElement settles grounds wf here clean ok (ok.child at_) kept.1).mono
          (fun w' s'' grounded => ⟨grounded.1, fun i low high => ?_⟩) fun _ => id
        rcases Nat.lt_or_ge k i with new | old
        · obtain rfl : i = k + 1 := by omega
          exact grounded.2
        · exact kept.2 i low old
      · exact absurd (Nat.le_trans low high) (by decide)
      · obtain ⟨i, entry⟩ := (called_arr kind).1 called
        obtain ⟨-, low, high⟩ := ok.elems i v entry
        rw [← entry]
        exact all i low high

omit settles grounds wf here clean in
theorem grounds_materializeWithOrigin (room : Nat) :
    Grounds env forest true (materializeWithOrigin env room) := by
  induction room with
  | zero => exact fun s v wf _ => trivial
  | succ room ih =>
      intro s v wf held
      rw [materializeWithOrigin, Action.wp_bind, Action.wp_get]
      split
      · rename_i r
        cases here : s.proxy? r with
        | none =>
            rintro w same
            obtain rfl := Option.some.inj same
            refine .intro _ ?_
            rintro _ (@⟨_, r, q, v, here', called⟩)
            rw [here] at here'
            cases here'
        | some q =>
            simp only
            split
            · rename_i dirty
              refine (grounds_materializePlain room s _ wf held).mono (fun w s' grounded => ?_)
                fun _ => id
              refine grounded_proxy here fun v called => ?_
              rw [dirty] at called ⊢
              intro x same
              obtain rfl := Option.some.inj same
              refine (grounded _ rfl).inv (.child here ?_)
              exact called
            · rename_i dirty
              have clean : q.dirty = false := by simpa using dirty
              rw [Action.wp_bind]
              exact (grounds_materializeOriginProxy (settles_materializeWithOrigin room) ih wf here
                clean).mono (fun _ _ => id) fun _ => id
      · rename_i noTable
        exact grounded_of_not_table noTable

end Origins

/-! ## Materialization -/

section Materialize

variable {F : Type} [DecidableEq F] {env : Env F} {forest : Forest} {s : State F}

/-- Only proxies that are there have children. -/
theorem acc_of_acyclic_calls {keepOrigin : Bool} {root : Value F}
    (acyclic : Acyclic env s keepOrigin root) :
    Acc (fun b a => Calls env s a b) (keepOrigin, root) := by
  have finite : (Set.range fun x : Bool × Fin s.tables.length =>
      ((x.1, .table x.2.1) : Bool × Value F)).Finite := Set.finite_range _
  refine acc_of_acyclic finite ?_ acyclic
  rintro _ _ (@⟨mode, r, q, v, here, -⟩)
  exact ⟨(mode, ⟨r, lt_of_proxy? here⟩), rfl⟩

theorem ends_of_acyclic (wf : Wf forest s) {keepOrigin : Bool} {root : Value F}
    (held : root.Below s.tables.length) (acyclic : Acyclic env s keepOrigin root) :
    Ends env s keepOrigin root := by
  obtain ⟨n, shallow⟩ := exists_shallow (acc_of_acyclic_calls acyclic)
  have below : ShallowAt env s n keepOrigin (some root) := by
    rintro w same
    obtain rfl := Option.some.inj same
    exact shallow
  refine ⟨n + 2, fun room enough => ?_⟩
  cases keepOrigin with
  | true => exact spares_materializeWithOrigin (by omega) s _ wf (held_some held) below
  | false => exact spares_materializePlain (by omega) s _ wf (held_some held) below

theorem acyclic_of_returned (wf : Wf forest s) {keepOrigin : Bool} {root : Value F}
    (held : root.Below s.tables.length) {room : Nat} {w : Option (Value F)} {s' : State F}
    (returned : materialize env room keepOrigin (some root) s = (.ok w, s')) :
    Acyclic env s keepOrigin root := by
  have grounds : Grounds env forest keepOrigin (materialize env room keepOrigin) := by
    cases keepOrigin with
    | true => exact grounds_materializeWithOrigin room
    | false => exact grounds_materializePlain room
  have grounded := (grounds s (some root) wf (held_some held)).returned returned
  exact fun next path => acyclic_of_acc (grounded root rfl) path

end Materialize

/-- In every state of a session, materialization comes to an end when no proxy that it comes
by is below itself, and otherwise returns nothing on any stack. -/
theorem materialize_ends {F : Type} [DecidableEq F] (env : Env F) {s : State F}
    (session : Session env (fun s op => op.Proper s) s) (keepOrigin : Bool) {root : Value F}
    (held : root.Below s.tables.length) :
    (Acyclic env s keepOrigin root → Ends env s keepOrigin root) ∧
      (¬ Acyclic env s keepOrigin root → ∀ room w s',
        materialize env room keepOrigin (some root) s ≠ (.ok w, s')) := by
  obtain ⟨forest, wf⟩ := session.wf fun _ _ proper => proper
  exact ⟨ends_of_acyclic wf held, fun cyclic room w s' returned =>
    cyclic (acyclic_of_returned wf held returned)⟩

/-! ## An array that is held twice -/

/-- Where proxies hold later tables only, none is below itself. -/
theorem acyclic_of_ascending {F : Type} [DecidableEq F] {env : Env F} {s : State F}
    (ascending : ∀ r q, s.proxy? r = some q → ∀ t, Value.table t ∈ q.held → r < t)
    (keepOrigin : Bool) (root : Value F) : Acyclic env s keepOrigin root := by
  have later {a b : Bool × Value F} (path : TransGen (Calls env s) a b) :
      ∀ r t, a.2 = .table r → b.2 = .table t → r < t := by
    induction path with
    | single step =>
        obtain @⟨mode, r, q, v, here, called⟩ := step
        rintro r' t same rfl
        obtain rfl := Value.table.inj same
        exact ascending r q here t called.mem_held
    | tail _ step ih =>
        obtain @⟨mode, r, q, v, here, called⟩ := step
        rintro r' t same rfl
        exact (ih r' r same rfl).trans (ascending r q here t called.mem_held)
  intro next _ cycle
  obtain ⟨other, first, -⟩ := TransGen.head'_iff.1 cycle
  obtain @⟨mode, r, q, v, -, -⟩ := first
  exact Nat.lt_irrefl r (later cycle r r rfl rfl)

/-- `t = decode('{"a":{"b":[1]}}')` -/
def readDeepState : State Nat :=
  ((Op.decode [0x7B, 0x22, 0x61, 0x22, 0x3A, 0x7B, 0x22, 0x62, 0x22, 0x3A, 0x5B, 0x31, 0x5D,
    0x7D, 0x7D]).run natEnv (State.start Nat)).2

/-- `a = t.a; b = a.b` -/
def openedState : State Nat :=
  ((Op.index 1 (some (.str [0x62]))).run natEnv
    ((Op.index 0 (some (.str [0x61]))).run natEnv readDeepState).2).2

/-- `t.x = b` -/
def sharedState : State Nat :=
  ((Op.newindex 0 (some (.str [0x78])) (some (.table 2))).run natEnv openedState).2

theorem sharedState_facts : openedState.tables.length = 3 ∧ sharedState.tables.length = 3 ∧
    (sharedState.proxy? 0).map Proxy.held = some [.table 1, .table 2, .table 1] ∧
    (sharedState.proxy? 1).map Proxy.held = some [.table 2] ∧
    (sharedState.proxy? 2).map Proxy.held = some [] := by
  decide +kernel

theorem sharedState_session : Session natEnv (fun s op => op.Proper s) sharedState := by
  have read : Session natEnv (fun s op => op.Proper s) readDeepState :=
    .step .start (by decide : List.length _ ≤ luaMaxString)
  have opened : Session natEnv (fun s op => op.Proper s) openedState :=
    .step (.step read trivial) trivial
  have length := sharedState_facts.1
  refine .step opened ⟨held_some trivial, held_some (by omega : 2 < openedState.tables.length), ?_⟩
  rintro - ⟨name, member, same⟩
  obtain rfl := Value.str.inj (Option.some.inj same)
  exact absurd member (by decide +kernel)

/-- With and without `keep_origin`. -/
theorem materialize_ends_shared :
    Ends natEnv sharedState false (.table 0) ∧ Ends natEnv sharedState true (.table 0) := by
  obtain ⟨-, length, first, second, third⟩ := sharedState_facts
  have held : (Value.table 0 : Value Nat).Below sharedState.tables.length :=
    (by omega : 0 < sharedState.tables.length)
  have acyclic (keepOrigin : Bool) : Acyclic natEnv sharedState keepOrigin (.table 0) := by
    refine acyclic_of_ascending (fun r q here t member => ?_) keepOrigin _
    have inside := lt_of_proxy? here
    obtain rfl | rfl | rfl : r = 0 ∨ r = 1 ∨ r = 2 := by omega
    · rw [here] at first
      rw [Option.some.inj first] at member
      simp only [List.mem_cons, Value.table.injEq, List.not_mem_nil, or_false] at member
      omega
    · rw [here] at second
      rw [Option.some.inj second] at member
      simp only [List.mem_cons, Value.table.injEq, List.not_mem_nil, or_false] at member
      omega
    · rw [here] at third
      rw [Option.some.inj third] at member
      cases member
  exact ⟨(materialize_ends natEnv sharedState_session false held).1 (acyclic false),
    (materialize_ends natEnv sharedState_session true held).1 (acyclic true)⟩

/-! ## An object that holds itself -/

/-- `t = decode("{}")` -/
def emptyState : State Nat := ((Op.decode [0x7B, 0x7D]).run natEnv (State.start Nat)).2

/-- `t.a = t` -/
def selfState : State Nat :=
  ((Op.newindex 0 (some (.str [0x61])) (some (.table 0))).run natEnv emptyState).2

theorem emptyState_session : Session natEnv (fun s op => op.Proper s) emptyState :=
  .step .start (by decide : [0x7B, 0x7D].length ≤ luaMaxString)

theorem selfState_facts : emptyState.tables.length = 1 ∧ 0 < selfState.tables.length ∧
    (selfState.proxy? 0).map (fun q => (q.kind, q.dirty, q.order.map Order.keys)) =
      some (.obj, true, some [[0x61]]) ∧
    (((selfState.proxy? 0).bind Proxy.order).bind fun order => order.values.lookup [0x61]) =
      some (.table 0) ∧
    [0x61] ∉ rawFields := by
  decide +kernel

theorem selfState_session : Session natEnv (fun s op => op.Proper s) selfState := by
  obtain ⟨length, -, -, -, other⟩ := selfState_facts
  refine .step emptyState_session ⟨held_some trivial, ?_, ?_⟩
  · exact held_some (by omega : 0 < emptyState.tables.length)
  · rintro - ⟨name, member, same⟩
    obtain rfl := Value.str.inj (Option.some.inj same)
    exact other member

theorem selfState_held : (Value.table 0 : Value Nat).Below selfState.tables.length :=
  selfState_facts.2.1

/-- A dirty object whose first value is the object itself needs more than every stack. -/
theorem overflow_of_self {F : Type} [DecidableEq F] {env : Env F} {s : State F} {r : Nat}
    {q : Proxy F} (here : s.proxy? r = some q) (object : q.kind = .obj) (dirty : q.dirty = true)
    {order : Order F} (ordered : q.order = some order) {k : Bytes} {rest : List Bytes}
    (keys : order.keys = k :: rest) (value : order.values.lookup k = some (.table r))
    (keepOrigin : Bool) (room : Nat) :
    materialize env room keepOrigin (some (.table r)) s = (.error stackOverflow, s) := by
  have plain (room : Nat) :
      materializePlain env room (some (.table r)) s = (.error stackOverflow, s) := by
    induction room with
    | zero => rfl
    | succ room ih =>
        have walk : materializeOrdered (materializePlain env room) order s =
            (.error stackOverflow, s) := by
          rw [materializeOrdered, keys, List.foldlM_cons, value]
          exact Action.bind_of_error (Action.bind_of_error ih)
        have proxy : materializePlainProxy env (materializePlain env room) r q s =
            (.error stackOverflow, s) := by
          rw [materializePlainProxy, object]
          simp only [dirty, or_true, if_true, ensureObjectOrderState, ordered]
          exact (Action.bind_of_ok rfl).trans (Action.bind_of_error walk)
        rw [materializePlain, Action.get_bind]
        simp only [here]
        exact Action.bind_of_error proxy
  cases keepOrigin with
  | false => exact plain room
  | true =>
      cases room with
      | zero => rfl
      | succ room =>
          change materializeWithOrigin env (room + 1) (some (.table r)) s = _
          rw [materializeWithOrigin, Action.get_bind]
          simp only [here, dirty, if_true]
          exact plain room

/-- Behind `t.a = t`, materialization of `t` never ends. -/
theorem not_forall_ends :
    ¬ ∀ (s : State Nat) (keepOrigin : Bool) (root : Value Nat),
      Session natEnv (fun s op => op.Proper s) s → root.Below s.tables.length →
      Ends natEnv s keepOrigin root := by
  intro claim
  obtain ⟨-, -, shape, entry, -⟩ := selfState_facts
  obtain ⟨q, here, same⟩ := Option.map_eq_some_iff.1 shape
  obtain ⟨object, same⟩ := Prod.mk.inj same
  obtain ⟨dirty, same⟩ := Prod.mk.inj same
  obtain ⟨order, ordered, keys⟩ := Option.map_eq_some_iff.1 same
  rw [here, Option.bind_some, ordered, Option.bind_some] at entry
  obtain ⟨enough, ends⟩ := claim selfState false (.table 0) selfState_session selfState_held
  exact ends enough (Nat.le_refl _) _ _ (overflow_of_self here object dirty ordered keys entry _ _)

end QJson.Table
