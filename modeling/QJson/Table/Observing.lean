import QJson.Table.Encoded
import QJson.Table.Glanced

/-!
# What observing leaves of an encoding

In every session, whatever is read, iterated, measured, materialized, decoded or encoded
between two encodings of a value, the second returns the text of the first.
-/

namespace QJson.Table

open Relation Rfc8259 Validate Doc Decode Ffi Lua

/-! ## Steps of steps -/

section Rules

variable {F α β : Type} [DecidableEq F] {env : Env F} {harmless : Prop} {forest : Forest}
  {s s' : State F} {action : Act F α}

theorem Glances.bind {next : α → Act F β} (first : Glances env harmless forest s action)
    (rest : ∀ v s', Ready forest s' → Glances env harmless forest s' (next v)) :
    Glances env harmless forest s (action >>= next) := by
  rw [Glances, Action.wp_bind]
  refine Action.Wp.mono first (fun v s' glanced => ?_) fun _ => id
  exact Action.Wp.mono (rest v s' glanced.ready) (fun _ _ => glanced.trans) fun _ => glanced.trans

theorem Glanced.wp (first : Glanced env harmless forest s forest s')
    (second : Glances env harmless forest s' action) :
    Action.Wp action s' (fun _ s'' => Glanced env harmless forest s forest s'')
      (Glanced env harmless forest s forest) :=
  Action.Wp.mono second (fun _ _ => first.trans) fun _ => first.trans

theorem glances_pure (ready : Ready forest s) (v : α) :
    Glances env harmless forest s (pure v : Act F α) := Glanced.refl ready

end Rules

/-! ## Reads -/

section Reads

variable {F : Type} [DecidableEq F] {env : Env F} {forest : Forest} {s : State F} {t : Nat}
  {q : Proxy F} {place : Place}

theorem glances_decodeChild {harmless : Prop} {d : Nat} (ready : Ready forest s)
    (at_ : At forest d place) (inside : t < s.tables.length) :
    Action.Wp (decodeCursor env (some t) d place.cursor) s
      (fun v s' => Glanced env harmless forest s forest s' ∧ Opened forest s s' ∧
        Yields env s' t d place v)
      (Glanced env harmless forest s forest) :=
  (wp_decodeChild ready.wf at_ inside).mono
    (fun _ _ decoded => ⟨ready.opened decoded.1, decoded⟩) fun _ failed => ready.opened failed.1

theorem glanced_cached {harmless : Prop} {key : Bytes} {v : Option (Value F)} {child : Child}
    (ready : Ready forest s) (here : s.proxy? t = some q) (at_ : At forest q.doc place)
    (cursor : q.cur = place.cursor) (missing : q.childCache.lookup key = none)
    (member : child ∈ place.children) (yields : Yields env s t q.doc child.place v)
    (named : harmless → q.dirty = true → q.order = none → keyText child = key) :
    Glanced env harmless forest s forest
      (s.updateProxy t fun q => { q with childCache := put q.childCache key v }) := by
  apply ready.glanced (ready.wf.cached t key yields.held)
  · exact later_updateProxy fun q => ⟨rfl, rfl, rfl, rfl, rfl, rfl⟩
  · rfl
  · intro may
    apply carrying_cached ready.wf
    intro q' place' here' dirty unordered at_' cursor' once
    obtain rfl := Option.some.inj (here.symm.trans here')
    obtain rfl := at_.unique at_' (cursor.symm.trans cursor')
    exact ⟨missing, child, lastUnder_of_count once member (named may dirty unordered), yields⟩

theorem glances_readObjectField (ready : Ready forest s) (here : s.proxy? t = some q)
    (object : q.kind = .obj) (key : Bytes) :
    Glances env (q.dirty = true → q.order = none → 0x5C ∉ key) forest s
      (readObjectField env t q key) := by
  obtain ⟨place, ok⟩ := ready.wf.proxy here
  have isObject := ok.kind.trans (congrArg some object)
  rw [readObjectField]
  split
  · exact glances_pure ready _
  split
  · exact glances_pure ready _
  rename_i missing
  rw [Glances, Action.wp_bind, ok.cursor]
  have replies := @replies_field F forest q.doc place key
  rw [pickNode_key isObject] at replies
  cases first : firstSpelled place.children key with
  | none =>
      rw [first] at replies
      apply ready.wf.library.wp_access ok.at_ replies
      intro s₁ quiet library
      exact ready.quiet quiet library
  | some child =>
      rw [first] at replies
      apply ready.wf.library.wp_access ok.at_ replies
      intro s₁ quiet library
      have looked : Glanced env (q.dirty = true → q.order = none → 0x5C ∉ key) forest s forest s₁ :=
        ready.quiet quiet library
      have here₁ := (proxy?_congr quiet.tables t).trans here
      have member := mem_of_firstSpelled first
      obtain ⟨i, inside⟩ := List.getElem?_of_mem member
      change Action.Wp (decodeCursor env (some t) q.doc child.place.cursor >>= _) s₁ _ _
      rw [Action.wp_bind]
      apply (glances_decodeChild looked.ready (ok.child inside) (lt_of_proxy? here₁)).mono
      · rintro v s₂ ⟨glanced, opened, yields⟩
        have before := looked.trans glanced
        split
        · apply before.trans
          apply glanced_cached glanced.ready (opened.opens.proxy? here₁) ok.at_ ok.cursor missing
            member yields
          intro plain dirty unordered
          exact keyText_of_firstSpelled first (plain dirty unordered)
        · exact before
      · exact fun _ failed => looked.trans failed

theorem glances_readArrayIndex {harmless : Prop} (ready : Ready forest s)
    (here : s.proxy? t = some q) {x : F}
    (missing : (toKey env (some (.num x))).bind (rawget env t q) = none) :
    Glances env harmless forest s (readArrayIndex env t q x) := by
  obtain ⟨place, ok⟩ := ready.wf.proxy here
  rw [Glances, readArrayIndex]
  cases offset : env.numbers.offset x with
  | none => exact Glanced.refl ready
  | some i =>
      change Action.Wp (access q.doc _ _ >>= _) s _ _
      rw [Action.wp_bind, ok.cursor]
      refine wp_pickIndex ready.wf ok.at_ i (fun s₁ child quiet wf₁ small at_ => ?_)
        (fun s₁ quiet wf₁ => ready.quiet quiet wf₁.library)
        fun s₁ quiet wf₁ => ready.quiet quiet wf₁.library
      have looked : Glanced env harmless forest s forest s₁ := ready.quiet quiet wf₁.library
      have here₁ := (proxy?_congr quiet.tables t).trans here
      change Action.Wp (decodeCursor env (some t) q.doc child.place.cursor >>= _) s₁ _ _
      rw [Action.wp_bind]
      apply (glances_decodeChild looked.ready (ok.child at_) (lt_of_proxy? here₁)).mono
      · rintro v s₂ ⟨glanced, opened, yields⟩
        have before := looked.trans glanced
        have here₂ := opened.opens.proxy? here₁
        have key : toKey env (some (.num x)) = some (.idx (i + 1)) := by
          rw [toKey, env.numbers.offset_key x i offset small]
          rfl
        rw [key] at missing ⊢
        cases isTable env v with
        | false => exact before
        | true =>
            apply before.trans
            obtain ⟨place₂, ok₂⟩ := glanced.ready.wf.proxy here₂
            apply glanced.ready.glanced
            · apply glanced.ready.wf.element yields.held
              intro q' same
              obtain rfl := Option.some.inj (here₂.symm.trans same)
              obtain rfl := ok.at_.unique ok₂.at_ (ok.cursor.symm.trans ok₂.cursor)
              exact ⟨place, ok₂, Nat.succ_pos i, (List.getElem?_eq_some_iff.1 at_).1⟩
            · exact later_updateProxy fun q => ⟨rfl, rfl, rfl, rfl, rfl, rfl⟩
            · rfl
            · intro _
              apply carrying_element glanced.ready.wf
              intro q' place' here' at_' cursor'
              obtain rfl := Option.some.inj (here₂.symm.trans here')
              obtain rfl := ok.at_.unique at_' (ok.cursor.symm.trans cursor')
              exact ⟨missing, child, at_, yields⟩
      · exact fun _ failed => looked.trans failed

/-- A read that leaves every value spelled as before: no key with a backslash is read on a
written object that has no order state. -/
def IsPlainRead (s : State F) (t : Nat) (k : Option (Value F)) : Prop :=
  ∀ q key, s.proxy? t = some q → q.dirty = true → q.order = none → k = some (.str key) →
    0x5C ∉ key

theorem glances_index (ready : Ready forest s) (k : Option (Value F)) :
    Glances env (IsPlainRead s t k) forest s (index env t k) := by
  rw [Glances, index, Action.wp_bind, Action.wp_get]
  split
  · exact Glanced.refl ready
  · exact Glanced.refl ready
  · rename_i q at_
    have here := proxy?_eq_some.2 at_
    split
    · exact Glanced.refl ready
    · rename_i missing
      split
      · rename_i key object
        have may (plain : IsPlainRead s t (some (.str key))) (dirty : q.dirty = true)
            (unordered : q.order = none) : 0x5C ∉ key := plain q key here dirty unordered rfl
        exact Action.Wp.mono (glances_readObjectField ready here object key)
          (fun _ _ glanced => glanced.imp may) fun _ glanced => glanced.imp may
      · exact glances_readArrayIndex ready here missing
      · exact Glanced.refl ready

theorem glances_lazyLen {harmless : Prop} (ready : Ready forest s)
    (here : s.proxy? t = some q) : Glances env harmless forest s (lazyLen env q) := by
  obtain ⟨place, ok⟩ := ready.wf.proxy here
  rw [Glances, lazyLen]
  split
  · exact Glanced.refl ready
  · rw [Action.wp_bind, ok.cursor]
    apply wp_getter ready.wf.library ok.at_ .len
    intro s₁ quiet library
    have container : place.node.kind?.isSome := by
      rw [ok.kind]
      rfl
    rw [readNode, if_pos container]
    exact ready.quiet quiet library

end Reads

/-! ## Loops -/

section Loops

variable {F : Type} [DecidableEq F] {env : Env F} {harmless : Prop} {forest : Forest}
  {s : State F} {t : Nat} {q : Proxy F}

theorem glances_objectPairs (ready : Ready forest s) (here : s.proxy? t = some q)
    (object : q.kind = .obj) : Glances env harmless forest s (objectPairs t q) := by
  obtain ⟨place, ok⟩ := ready.wf.proxy here
  have isObject := ok.kind.trans (congrArg some object)
  rw [objectPairs]
  split
  · exact glances_newLoop ready ⟨q, here, object⟩ trivial
  · rw [Glances, newObjectIter, Action.wp_bind, Action.wp_bind, ok.cursor]
    apply ready.wf.library.wp_access ok.at_ (replies_iterInit isObject)
    intro s₁ quiet library
    have looked : Glanced env harmless forest s forest s₁ := ready.quiet quiet library
    have here₁ := (proxy?_congr quiet.tables t).trans here
    have okLoop : LoopOk forest s₁ (.entries t (iterPlace place 0) []) :=
      ⟨q, place, 0, here₁, object, ok.at_, isObject, rfl⟩
    have trails : Trails forest s₁ (.entries t (iterPlace place 0) []) :=
      ⟨q, place, 0, here₁, object, ok.at_, ok.cursor, rfl,
        fun key inside => absurd inside List.not_mem_nil⟩
    exact looked.wp (glances_newLoop looked.ready okLoop trails)

theorem glances_arrayIpairs (ready : Ready forest s) (here : s.proxy? t = some q)
    (array : q.kind = .arr) : Glances env harmless forest s (arrayIpairs t : Act F Nat) := by
  apply glances_newLoop ready
  · refine ⟨lt_of_proxy? here, fun other same => ?_⟩
    obtain rfl := Option.some.inj (here.symm.trans same)
    exact array
  · trivial

theorem glances_lazyObjectIter (ready : Ready forest s) {loop : Nat} {it : Iter}
    {seen : List Bytes} (here : s.proxy? t = some q)
    (trails : Trails forest s (.entries t it seen)) :
    Glances env harmless forest s (lazyObjectIter env loop t q it seen) := by
  obtain ⟨q', place, k, same, object, at_, cursor, rfl, behind⟩ := trails
  obtain rfl := Option.some.inj (here.symm.trans same)
  obtain ⟨place', ok⟩ := ready.wf.proxy here
  obtain rfl := at_.unique ok.at_ (cursor.symm.trans ok.cursor)
  have isObject := ok.kind.trans (congrArg some object)
  rw [Glances, lazyObjectIter, Action.wp_bind]
  apply ready.wf.library.wp_access at_ (replies_iterNext (host_validator env) isObject k)
  intro s₁ quiet library
  have looked : Glanced env harmless forest s forest s₁ := ready.quiet quiet library
  have here₁ := (proxy?_congr quiet.tables t).trans here
  cases child? : place.children[k]? with
  | none => exact looked
  | some child =>
      have member := List.mem_of_getElem? child?
      change Action.Wp (setLoop loop (.entries t (iterPlace place (k + 1))
        (keyText child :: seen)) >>= _) s₁ _ _
      rw [Action.wp_bind, setLoop, Action.wp_modify]
      -- The loop moves on.
      have moved := @Ready.setLoop F _ env harmless forest s₁
        (.entries t (iterPlace place (k + 1)) (keyText child :: seen)) looked.ready loop
        ⟨q, place, k + 1, here₁, object, at_, isObject, rfl⟩ (by
          refine ⟨q, place, k + 1, here₁, object, at_, cursor, rfl, fun key inside => ?_⟩
          rw [List.take_add_one, child?, Option.toList_some, List.map_append]
          rcases List.mem_cons.1 inside with rfl | old
          · exact List.mem_append_right _ List.mem_cons_self
          · exact List.mem_append_left _ (behind key old))
      have before := looked.trans moved
      split
      · -- The entry of a key that occurs again is cleared.
        rename_i again
        rw [Action.wp_bind, setCachedChild, Action.wp_modify, Action.wp_bind]
        have cleared := before.trans (moved.ready.glanced
          (moved.ready.wf.cached t (keyText child) held_none)
          (later_updateProxy fun q => ⟨rfl, rfl, rfl, rfl, rfl, rfl⟩) rfl fun _ =>
            carrying_cached moved.ready.wf (by
              intro q' place' here' _ _ at_' cursor' once
              obtain rfl := Option.some.inj (here₁.symm.trans here')
              obtain rfl := at_.unique at_' (cursor.symm.trans cursor')
              obtain ⟨j, other, same, single⟩ := exists_single once
              obtain rfl := single.only k child child? same.symm
              exact absurd (same ▸ behind _ again) single.not_mem_take))
        apply (glances_decodeChild cleared.ready (at_.child child?) (by
          rw [length_updateProxy]
          exact lt_of_proxy? here₁)).mono
        · exact fun _ _ done => cleared.trans done.1
        · exact fun _ failed => cleared.trans failed
      · rw [Action.wp_bind, cachedChild, Action.wp_bind, Action.wp_get, Action.wp_pure]
        split
        · exact before
        · rename_i missing
          change (s₁.proxy? t).bind _ = none at missing
          rw [here₁, Option.bind_some] at missing
          rw [Action.wp_bind]
          apply (glances_decodeChild moved.ready (at_.child child?) (lt_of_proxy? here₁)).mono
          · rintro v s₂ ⟨glanced, opened, yields⟩
            split
            · exact (before.trans glanced).trans (glanced_cached glanced.ready
                (opened.opens.proxy? here₁) at_ cursor missing member yields fun _ _ _ => rfl)
            · exact before.trans glanced
          · exact fun _ failed => before.trans failed

theorem glances_lazyArrayIter (ready : Ready forest s) {loop i : Nat}
    (ok : LoopOk forest s (.elements t i)) :
    Glances env harmless forest s (lazyArrayIter env loop t i) := by
  rw [Glances, lazyArrayIter, Action.wp_bind, Action.wp_get]
  cases here : s.proxy? t with
  | none => exact Glanced.refl ready
  | some q =>
      obtain ⟨place, okProxy⟩ := ready.wf.proxy here
      change Action.Wp (access q.doc _ _ >>= _) s _ _
      rw [Action.wp_bind, okProxy.cursor]
      refine wp_pickIndex ready.wf okProxy.at_ i (fun s₁ child quiet wf₁ _ at_ => ?_)
        (fun s₁ quiet wf₁ => ready.quiet quiet wf₁.library)
        fun s₁ quiet wf₁ => ready.quiet quiet wf₁.library
      have looked : Glanced env harmless forest s forest s₁ := ready.quiet quiet wf₁.library
      have here₁ := (proxy?_congr quiet.tables t).trans here
      have okLoop : LoopOk forest s₁ (.elements t (i + 1)) :=
        ok.later (Later.of_tables quiet.tables)
      have moved := @Ready.setLoop F _ env harmless forest s₁ _ looked.ready loop okLoop trivial
      change Action.Wp (setLoop loop (.elements t (i + 1)) >>= _) s₁ _ _
      rw [Action.wp_bind, setLoop, Action.wp_modify, Action.wp_bind]
      apply (glances_decodeChild moved.ready (okProxy.child at_) (lt_of_proxy? here₁)).mono
      · exact fun _ _ done => looked.trans (moved.trans done.1)
      · exact fun _ failed => looked.trans (moved.trans failed)

theorem glances_nextRound (ready : Ready forest s) (loop : Nat) :
    Glances env harmless forest s (nextRound env loop) := by
  rw [Glances, nextRound, Action.wp_bind, Action.wp_get]
  cases at_ : s.loops[loop]? with
  | none => exact Glanced.refl ready
  | some state =>
      have member := List.mem_of_getElem? at_
      have ok := ready.wf.loops state member
      have trails := ready.trails state member
      cases state with
      | ordered view i =>
          have okLoop : LoopOk forest s (.ordered view (i + 1)) := ok
          have moved := @Ready.setLoop F _ env harmless forest s _ ready loop okLoop trivial
          change Action.Wp (setLoop loop (.ordered view (i + 1)) >>= _) s _ _
          rw [Action.wp_bind, setLoop, Action.wp_modify]
          split
          · exact moved
          · split
            · exact moved
            · exact moved
      | entries view it seen =>
          simp only
          split
          · exact Glanced.refl ready
          · rename_i q here
            apply (glances_lazyObjectIter ready here trails).bind
            intro entry s₁ ready₁
            cases entry <;> exact Glanced.refl ready₁
      | elements view i =>
          simp only
          apply (glances_lazyArrayIter ready ok).bind
          intro element s₁ ready₁
          cases element <;> exact Glanced.refl ready₁

end Loops

/-! ## Assignments -/

section Assignments

variable {F : Type} [DecidableEq F] {env : Env F} {forest : Forest} {s s' s'' : State F}
  {t : Nat} {q : Proxy F} {k v : Option (Value F)}

/-- The tables stay what they stand for, and the loops do not move. -/
structure Onward (s s' : State F) : Prop where
  later : Later s s'
  loops : s'.loops = s.loops

omit [DecidableEq F] in
theorem Onward.refl (s : State F) : Onward s s := ⟨Later.of_tables rfl, rfl⟩

omit [DecidableEq F] in
theorem Onward.trans (first : Onward s s') (second : Onward s' s'') : Onward s s'' :=
  ⟨first.later.trans second.later, second.loops.trans first.loops⟩

omit [DecidableEq F] in
theorem Opens.onward (opens : Opens s s') : Onward s s' := ⟨opens.later, opens.loops⟩

omit [DecidableEq F] in
theorem onward_updateProxy {change : Proxy F → Proxy F}
    (same : ∀ q, Follows (.proxy q) (.proxy (change q))) : Onward s (s.updateProxy t change) :=
  ⟨later_updateProxy same, rfl⟩

omit [DecidableEq F] in
theorem onward_markDirty (fuel r : Nat) (s : State F) : Onward s (s.markDirty fuel r) := by
  induction fuel generalizing r s with
  | zero => exact .refl s
  | succ fuel ih =>
      rw [State.markDirty]
      split
      · exact .refl s
      · have marked : Onward s (s.updateProxy r fun q => { q with dirty := true }) :=
          onward_updateProxy fun q => ⟨rfl, rfl, rfl, rfl, rfl, rfl⟩
        split
        · exact marked
        · exact marked.trans (ih _ _)

theorem onward_rawset (s : State F) :
    Action.Wp (rawset env t k v) s (fun _ s' => Onward s s') (Onward s) := by
  rw [rawset]
  split
  · exact Onward.refl s
  · exact ⟨later_updatePlain _, rfl⟩

theorem onward_arrayNewindex (wf : Wf forest s) (here : s.proxy? t = some q)
    (array : q.kind = .arr) :
    Action.Wp (arrayNewindex env t q k v) s (fun _ s' => Onward s s') (Onward s) := by
  obtain ⟨wf₁, -, -, proxies⟩ := wf_markDirty s.tables.length t wf
  have marked := onward_markDirty s.tables.length t s
  obtain ⟨q₁, here₁, array₁, contents⟩ :
      ∃ q₁, (s.markDirty s.tables.length t).proxy? t = some q₁ ∧ q₁.kind = .arr ∧
        materializeArrayContents env t q₁ = materializeArrayContents env t q := by
    rcases proxies t q here with same | same
    · exact ⟨_, same, array, rfl⟩
    · refine ⟨_, same, array, ?_⟩
      simp only [materializeArrayContents, forElements, eachElement_dirty]
  obtain ⟨place, ok⟩ := wf₁.proxy here₁
  rw [arrayNewindex, Action.wp_bind, Action.wp_modify, Action.wp_bind, ← contents]
  apply (wp_materializeArrayContents wf₁ here₁ ok array₁).mono
  · rintro contents s₂ ⟨opened, -⟩
    have before := marked.trans opened.opens.onward
    have promotes (p : Plain F) :
        Onward s { s₂ with tables := s₂.tables.set t (.plain p) } :=
      before.trans ⟨later_promoted (opened.opens.proxy? here₁) array₁ p, rfl⟩
    rw [Action.wp_bind, Action.wp_modify]
    exact (onward_rawset _).mono (fun _ _ => (promotes _).trans) fun _ => (promotes _).trans
  · rintro s₂ ⟨opened, -⟩
    exact marked.trans opened.opens.onward

theorem onward_objectNewindex (wf : Wf forest s) (here : s.proxy? t = some q)
    (object : q.kind = .obj) :
    Action.Wp (objectNewindex env t q k v) s (fun _ s' => Onward s s') (Onward s) := by
  obtain ⟨place, ok⟩ := wf.proxy here
  have write (s' : State F) (order : Order F) (key : Bytes) :
      Onward s' ((s'.markDirty s'.tables.length t).updateProxy t fun q =>
        { q with order := some (order.assign key v) }) :=
    (onward_markDirty _ t s').trans (onward_updateProxy fun q => ⟨rfl, rfl, rfl, rfl, rfl, rfl⟩)
  rw [objectNewindex.eq_def]
  split
  · rename_i key
    rw [Action.wp_bind]
    cases ordered : q.order with
    | some order =>
        rw [ensureObjectOrderState, ordered]
        exact write s order key
    | none =>
        apply (wp_ensureObjectOrderState wf here ok object ordered).mono
        · rintro order _ ⟨s₁, opened, -, rfl⟩
          have built : Onward s₁ (s₁.updateProxy t fun q => { q with order := some order }) :=
            onward_updateProxy fun q => ⟨rfl, rfl, rfl, rfl, rfl, rfl⟩
          exact (opened.opens.onward.trans built).trans (write _ order key)
        · exact fun s₁ failed => failed.1.opens.onward
  · exact Onward.refl s

theorem onward_newindex (wf : Wf forest s) :
    Action.Wp (newindex env t k v) s (fun _ s' => Onward s s') (Onward s) := by
  rw [newindex, Action.wp_bind, Action.wp_get]
  split
  · exact Onward.refl s
  · exact onward_rawset s
  · rename_i q at_
    have here := proxy?_eq_some.2 at_
    split
    · rename_i array _
      split
      · exact onward_updateProxy fun q => ⟨rfl, rfl, rfl, rfl, rfl, rfl⟩
      · exact onward_arrayNewindex wf here array
    · rename_i array _
      exact onward_arrayNewindex wf here array
    · rename_i object
      exact onward_objectNewindex wf here object

end Assignments

/-! ## Every step -/

section Planting

variable {F : Type} [DecidableEq F] {env : Env F} {forest : Forest} {s s' : State F}
  {tree : Tree × Nat}

omit [DecidableEq F] in
theorem Trails.planted {loop : Loop} (trails : Trails forest s loop)
    (tables : s'.tables = s.tables) : Trails (forest ++ [tree]) s' loop := by
  cases loop with
  | entries view it seen =>
      obtain ⟨q, place, k, here, object, at_, cursor, iter, behind⟩ := trails
      exact ⟨q, place, k, (proxy?_congr tables view).trans here, object, at_.planted, cursor, iter,
        behind⟩
  | ordered view i => trivial
  | elements view i => trivial

theorem carrying_planted (wf : Wf forest s) (tables : s'.tables = s.tables)
    (origins : s'.origins = s.origins) (settings : s'.settings = s.settings) :
    Carrying env forest s (forest ++ [tree]) s' := by
  have frames : Frames forest s (forest ++ [tree]) s' :=
    { settings := settings
      origins := origins
      at_ := fun _ _ at_ => at_.planted
      plain := fun r p here => (plain?_congr tables r).trans here
      proxy := fun r q here =>
        ⟨q, (proxy?_congr tables r).trans here, rfl, rfl, rfl, rfl, fun _ => id⟩ }
  apply frames.carrying wf
  · intro r q place here dirty object unordered at_ cursor
    exact ⟨_, .members ((proxy?_congr tables r).trans here) dirty object unordered at_.planted
      cursor, .refl _⟩
  · intro r q q' place here here' _ _ _ _ i
    obtain rfl := Option.some.inj (((proxy?_congr tables r).trans here).symm.trans here')
    exact replaces_refl _

theorem Decoded.opened {d : Nat} {place : Place} {parent : Option Nat} {v : Option (Value F)}
    (decoded : Decoded env forest parent d place s v s') (wf : Wf forest s)
    (at_ : At forest d place) (older : ∀ p, parent = some p → p < s.tables.length) :
    Opened forest s s' := by
  have wf' := decoded.wf wf at_ older
  have returns := decoded.returns
  cases kind : place.node.kind? with
  | none =>
      rw [kind] at returns
      exact ⟨wf', returns.1.opens⟩
  | some kind' =>
      rw [kind] at returns
      refine ⟨wf', _, fun table member => ?_, returns.2⟩
      exact ⟨kind', parent, d, place, List.mem_singleton.1 member⟩

theorem glanced_decode {harmless : Prop} (ready : Ready forest s) {text : Bytes}
    (short : text.length ≤ luaMaxString) :
    ∃ forest', Glanced env harmless forest s forest' (decode env text s).2 := by
  cases parsed : parseWithOptionsDetailed (dispatch env.scanner env.strings) text
      Options.default with
  | error fault =>
      have same : Action.Wp (decode env text) s (fun _ s' => s' = s) (· = s) :=
        (wp_decode_error parsed).mono (fun _ _ none_ => none_.elim) fun _ => id
      rw [same.state]
      exact ⟨forest, .refl ready⟩
  | ok document =>
      obtain ⟨tree, start, -, stands⟩ := exists_stands short parsed
      have wf' : Wf (forest ++ [(tree, start)]) { s with
          docs := s.docs ++ [document], cells := s.cells ++ [⟨SkipCache.new, noOffset⟩] } :=
        ready.wf.planted stands rfl rfl rfl rfl
      have at_ := ready.wf.library.at_planted tree start
      have carrying : Carrying env forest s (forest ++ [(tree, start)]) { s with
          docs := s.docs ++ [document], cells := s.cells ++ [⟨SkipCache.new, noOffset⟩] } :=
        carrying_planted ready.wf rfl rfl rfl
      have planted : Glanced env harmless forest s (forest ++ [(tree, start)]) { s with
          docs := s.docs ++ [document], cells := s.cells ++ [⟨SkipCache.new, noOffset⟩] } :=
        ⟨⟨wf', fun loop member => (ready.trails loop member).planted rfl⟩, Later.of_tables rfl,
          fun _ _ _ spells => carrying.spells spells (.same _)⟩
      have decodes : Action.Wp (decode env text) s
          (fun _ s' => Glanced env harmless forest s (forest ++ [(tree, start)]) s')
          (Glanced env harmless forest s (forest ++ [(tree, start)])) :=
        (wp_decode ready.wf.library parsed stands).mono
          (fun _ _ decoded =>
            planted.trans (planted.ready.opened (decoded.opened wf' at_ nofun)))
          fun _ failed => planted.trans (planted.ready.quiet failed.quiet failed.library)
      exact ⟨_, decodes.state⟩

end Planting

section Steps

variable {F : Type} [DecidableEq F] {env : Env F} {forest : Forest} {s : State F}

instance : Keeping (Alongside s) where
  aside alike docs _ origins loops settings :=
    ⟨docs.trans alike.docs, origins.trans alike.origins, loops.trans alike.loops,
      settings.trans alike.settings⟩
  newTable alike _ docs _ origins loops settings :=
    ⟨docs.trans alike.docs, origins.trans alike.origins, loops.trans alike.loops,
      settings.trans alike.settings⟩
  updateProxy alike _ := ⟨alike.docs, alike.origins, alike.loops, alike.settings⟩

/-- The loops are those of a state. -/
def KeepsLoops (s s' : State F) : Prop := s'.loops = s.loops

instance : Growing (KeepsLoops s) where
  aside kept _ _ _ loops _ := loops.trans kept
  newTable kept _ _ _ _ loops _ := loops.trans kept
  updateProxy kept _ := kept
  record kept _ _ _ loops _ := loops.trans kept

theorem Ready.glances {harmless : Prop} {α : Type} {action : Act F α} (ready : Ready forest s)
    (grows : Action.Wp action s (fun _ s' => Kept env forest s s') (Kept env forest s))
    (preserves : Action.Preserves (Alongside s) action) :
    Glances env harmless forest s action := by
  have alongside := preserves s ⟨rfl, rfl, rfl, rfl⟩
  have glanced {s' : State F} (both : Kept env forest s s' ∧ Alongside s s') :
      Glanced env harmless forest s forest s' :=
    ready.grown both.1 both.2.loops both.2.settings both.2.origins
  exact (grows.and alongside).mono (fun _ _ => glanced) fun _ => glanced

/-- The steps that observe: nothing is assigned or set, no provenance is recorded, and reads
are plain. -/
def Op.IsObserving (s : State F) : Op F → Prop
  | .index t k => IsPlainRead s t k
  | .materialize _ keepOrigin _ => keepOrigin = false
  | .newindex _ _ _ | .encodeNumberPrecision _ | .encodeSparseArray _ _ _ => False
  | _ => True

section Ready

variable {harmless : Prop}

/-- A step that is not promised to be harmless keeps the heap ready. -/
theorem Ready.unpromised {s' : State F} (ready : Ready forest s) (not : ¬ harmless)
    (wf : Wf forest s') (later : Later s s') (loops : s'.loops = s.loops) :
    Glanced env harmless forest s forest s' :=
  ⟨ready.later wf later loops, later, fun may => absurd may not⟩

theorem Ready.configured (ready : Ready forest s) (not : ¬ harmless) (settings : Settings) :
    Glanced env harmless forest s forest { s with settings } := by
  have wf := ready.wf
  have later : Later s { s with settings } := Later.of_tables rfl
  exact ready.unpromised not (wf.later (wf.library.congr rfl rfl) later rfl wf.tables) later rfl

theorem Glances.answer {α : Type} {action : Act F α} {reply : α → Reply F}
    (glances : Glances env harmless forest s action) :
    Glances env harmless forest s (action >>= fun v => pure (reply v)) := by
  apply glances.bind
  intro v s' ready
  exact glances_pure ready (reply v)

theorem glances_newTable (ready : Ready forest s) (emptyArray : Bool) :
    Glances env harmless forest s ((Op.newTable emptyArray).run env) := by
  have empty : TableOk forest (s.tables.length + 1) s.tables.length
      (.plain (⟨∅, emptyArray, none, none⟩ : Plain F)) := fun k v none_ => by cases none_
  have adds : Adds [.plain (⟨∅, emptyArray, none, none⟩ : Plain F)] s
      { s with tables := s.tables ++ [.plain ⟨∅, emptyArray, none, none⟩] } :=
    ⟨rfl, rfl, rfl, rfl, rfl⟩
  have wf := ready.wf.added empty adds (ready.wf.library.congr rfl rfl)
  exact ready.grown ⟨wf, grown_added adds⟩ rfl rfl rfl

theorem glances_newindex (ready : Ready forest s) (not : ¬ harmless) {t : Nat}
    {k v : Option (Value F)} (key : Held s.tables.length k) (value : Held s.tables.length v) :
    Glances env harmless forest s (newindex env t k v) := by
  have kept : Action.Wp (newindex env t k v) s
      (fun _ s' => Wf forest s' ∧ Onward s s') fun s' => Wf forest s' ∧ Onward s s' :=
    Action.Wp.and (keeps_newindex ready.wf key value) (onward_newindex ready.wf)
  exact kept.mono (fun _ _ both => ready.unpromised not both.1 both.2.later both.2.loops)
    fun _ both => ready.unpromised not both.1 both.2.later both.2.loops

theorem glances_materialize (ready : Ready forest s) (room : Nat) (keepOrigin : Bool)
    {v : Option (Value F)} (held : Held s.tables.length v)
    (plain : harmless → keepOrigin = false) :
    Glances env harmless forest s (materialize env room keepOrigin v) := by
  have settles : Settles env forest keepOrigin (materialize env room keepOrigin) :=
    settles_materialize room keepOrigin
  have kept : Action.Wp (materialize env room keepOrigin v) s
      (fun _ s' => Kept env forest s s') (Kept env forest s) :=
    (settles s v ready.wf held).mono (fun _ _ settled => settled.kept) fun _ => id
  cases keepOrigin with
  | false => exact ready.glances kept (preserves_materializePlain room v)
  | true =>
      have recording : ¬ harmless := by
        intro may
        cases plain may
      have loops : Action.Wp (materialize env room true v) s (fun _ => KeepsLoops s)
          (KeepsLoops s) := preserves_materialize room true v s rfl
      exact (kept.and loops).mono
        (fun _ _ both => ready.unpromised recording both.1.wf both.1.grown.later both.2)
        fun _ both => ready.unpromised recording both.1.wf both.1.grown.later both.2

end Ready

/-- A step that plants no tree. -/
theorem glances_run (ready : Ready forest s) {op : Op F} (proper : op.Proper s)
    (noDecode : ∀ text, op ≠ .decode text) :
    Glances env (op.IsObserving s) forest s (op.run env) := by
  cases op with
  | decode text => exact absurd rfl (noDecode text)
  | newTable emptyArray => exact glances_newTable ready emptyArray
  | index t k => exact (glances_index ready k).answer
  | newindex t k v => exact (glances_newindex ready id proper.1 proper.2.1).answer
  | pairs t =>
      rw [Op.run, Glances, Action.wp_bind, Action.wp_get]
      split
      · exact Glanced.refl ready
      · rename_i q here
        split
        · rename_i object
          exact (glances_objectPairs ready here object).answer
        · rename_i array
          exact (glances_arrayIpairs ready here array).answer
  | ipairs t =>
      rw [Op.run, Glances, Action.wp_bind, Action.wp_get]
      split
      · exact Glanced.refl ready
      · rename_i q here
        split
        · exact Glanced.refl ready
        · rename_i array
          exact (glances_arrayIpairs ready here array).answer
  | next loop => exact glances_nextRound ready loop
  | len t =>
      rw [Op.run, Glances, Action.wp_bind, Action.wp_get]
      split
      · exact Glanced.refl ready
      · exact Glanced.refl ready
      · rename_i q here
        exact (glances_lazyLen ready (proxy?_eq_some.2 here)).answer
  | materialize room keepOrigin v =>
      exact (glances_materialize ready room keepOrigin proper id).answer
  | encode v =>
      exact (ready.glances (grows_encode ready.wf v) (preserves_encode v)).answer
  | encodeNumberPrecision precision =>
      apply Glances.answer
      rw [Table.encodeNumberPrecision]
      split
      · exact Glanced.refl ready
      · exact ready.configured id _
  | encodeSparseArray convert ratio safe => exact ready.configured id _

theorem glanced_run (env : Env F) (ready : Ready forest s) {op : Op F} (proper : op.Proper s) :
    ∃ forest', Glanced env (op.IsObserving s) forest s forest' (op.run env s).2 := by
  cases op with
  | decode text =>
      obtain ⟨forest', glanced⟩ := @glanced_decode F _ env forest s _ ready text proper
      refine ⟨forest', ?_⟩
      rw [Op.run, Action.bind_apply]
      rcases ran : decode env text s with ⟨result, s'⟩
      rw [ran] at glanced
      cases result <;> exact glanced
  | _ => exact ⟨forest, (glances_run ready proper fun text same => by cases same).state⟩

/-- Every state of a session is ready. -/
theorem Session.ready {allowed : State F → Op F → Prop} (session : Session env allowed s)
    (proper : ∀ s op, allowed s op → op.Proper s) : ∃ forest, Ready forest s := by
  induction session with
  | start => exact ⟨[], wf_start, nofun⟩
  | @step s op _ may ih =>
      obtain ⟨forest, ready⟩ := ih
      obtain ⟨forest', glanced⟩ := glanced_run env ready (proper s op may)
      exact ⟨forest', glanced.ready⟩

end Steps

/-! ## Sessions -/

section Sessions

variable {F : Type} [DecidableEq F] (env : Env F) {s : State F}

/-- A step that observes. -/
def Observes (s s' : State F) : Prop :=
  ∃ op : Op F, op.Proper s ∧ op.IsObserving s ∧ s' = (op.run env s).2

/-- Whatever is observed in between, and whether that returns or raises an error, a value is
encoded as the same text again. -/
theorem observing_keeps_encoding (session : Session env (fun s op => op.Proper s) s)
    {v : Option (Value F)} (held : Held s.tables.length v) {text text' : Bytes}
    {s₁ s₂ s₃ : State F} (first : encode env v s = (.ok text, s₁))
    (between : ReflTransGen (Observes env) s s₂) (again : encode env v s₂ = (.ok text', s₃)) :
    text' = text := by
  obtain ⟨forest, ready⟩ := session.ready fun _ _ proper => proper
  have recorded := session.recorded fun _ _ proper => proper
  have run : Session env (fun s op => op.Proper s) s₂ ∧
      ∃ forest₂, Glanced env True forest s forest₂ s₂ := by
    clear again
    induction between with
    | refl => exact ⟨session, forest, .refl ready⟩
    | tail _ last ih =>
        obtain ⟨session', forest', glanced⟩ := ih
        obtain ⟨op, proper, observing, rfl⟩ := last
        obtain ⟨forest'', glanced'⟩ := glanced_run env glanced.ready proper
        exact ⟨session'.step proper, forest'', glanced.trans (glanced'.imp fun _ => observing)⟩
  obtain ⟨session₂, forest₂, glanced⟩ := run
  have recorded₂ := session₂.recorded fun _ _ proper => proper
  have wf₂ := glanced.ready.wf
  obtain ⟨tree, spelled, rfl⟩ := spelled_of_encode ready.wf recorded (.refl ready.wf) held first
  obtain ⟨tree', spelled', rfl⟩ := spelled_of_encode wf₂ recorded₂ (.refl wf₂)
    (held.mono glanced.later.length_le) again
  rw [spelled'.spells.unique (glanced.spells trivial v tree spelled.spells)]

end Sessions

/-- `t.a` is read behind `t.a = "x"`. -/
def glancedState : State Nat := ((Op.index 0 (some (.str [0x61]))).run natEnv namedState).2

theorem glancedState_encode :
    (encode natEnv (some (.table 0)) glancedState).1.toOption.isSome = true := by
  decide +kernel

/-- Behind the read, the object is encoded as before. -/
theorem observing_keeps_encoding_named :
    (encode natEnv (some (.table 0)) glancedState).1 = .ok namedText := by
  have observes : Observes natEnv namedState glancedState := by
    refine ⟨.index 0 (some (.str [0x61])), trivial, ?_, rfl⟩
    rintro q key - - - same
    obtain rfl := Value.str.inj (Option.some.inj same)
    decide
  have again := glancedState_encode
  rcases ran : encode natEnv (some (.table 0)) glancedState with ⟨result, s₃⟩
  rw [ran] at again
  cases result with
  | error error => cases again
  | ok text =>
      rw [observing_keeps_encoding natEnv namedState_session namedState_held namedState_encode
        (.single observes) ran]

end QJson.Table
