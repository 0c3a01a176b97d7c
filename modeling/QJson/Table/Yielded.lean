import QJson.Table.Naturals
import QJson.Table.Resting

/-!
# What `pairs` yields on a decoded text

A loop over the members of a proxy that was just decoded keeps the containers that it yields
in the cache, under their decoded keys, and so do reads.  So a field that is read behind the
loop is the value that the loop yielded, if the key leads to the member or to one with the
same content.
-/

namespace QJson.Table

open Relation Rfc8259 Validate Doc Decode Ffi Lua

section Statements

variable {F : Type} [DecidableEq F] (env : Env F)

/-- A step that only looks at a proxy: a round of a loop over it, or a read of a field. -/
inductive Looks (t loop : Nat) (s : State F) : State F → Prop where
  | round : Looks t loop s (nextRound env loop s).2
  | read (key : Bytes) : Looks t loop s (index env t (some (.str key)) s).2

/-- What `pairs` yields under a key on a decoded text is what is read under that key, whatever
else is looked at before and behind. -/
def YieldsAgree (s : State F) (text key : Bytes) : Prop :=
  ∀ t s₁ loop s₂ s₃ v s₄ s₅, decode env text s = (.ok (some (.table t)), s₁) →
    (Op.pairs t).run env s₁ = (.ok (.loop loop), s₂) →
    ReflTransGen (Looks env t loop) s₂ s₃ →
    nextRound env loop s₃ = (.ok (.field key v), s₄) →
    ReflTransGen (Looks env t loop) s₄ s₅ →
    (index env t (some (.str key)) s₅).1 = .ok v

/-- A decoded object, and a loop over its members that stands in front of one of them. -/
structure Iterating (forest : Forest) (t d loop : Nat) (place : Place) (i : Nat)
    (cache : Map Bytes (Value F)) (s : State F) : Prop extends
    Resting forest t d place cache s where
  begun : ∃ seen, s.loops[loop]? = some (.entries t (iterPlace place i) seen) ∧
    ∀ key, key ∈ seen ↔ key ∈ (place.children.take i).map keyText

/-- What is in the cache is a container, or what decoding the member returns. -/
def Fits (child : Child) (cached : Option (Value F)) : Prop :=
  ∀ w, cached = some w → child.place.node.kind?.isSome ∨ IsLeaf env child.place.node w

/-- A value that the loop yielded for a member, and what the cache has under its key. -/
def Remembered (child : Child) (v cached : Option (Value F)) : Prop :=
  ∃ w, v = some w ∧ (IsLeaf env child.place.node w ∧ (cached = none ∨ cached = some w) ∨
    child.place.node.kind?.isSome ∧ cached = some w)

end Statements

/-! ## Steps -/

section Steps

variable {F : Type} [DecidableEq F] {env : Env F} {forest : Forest} {s s' : State F}
  {t d loop i : Nat} {place : Place} {cache : Map Bytes (Value F)} {child : Child}
  {v stored : Option (Value F)}

theorem fits_none : Fits env child none := fun _ none => by cases none

theorem Remembered.fits (remembered : Remembered env child v stored) : Fits env child stored := by
  obtain ⟨w, -, ⟨leaf, rfl | rfl⟩ | ⟨container, -⟩⟩ := remembered
  · exact fits_none
  · intro w' same
    obtain rfl := Option.some.inj same
    exact .inr leaf
  · exact fun _ _ => .inl container

/-- What was in the cache is remembered. -/
theorem Fits.remembered {w : Value F} (fits : Fits env child (some w)) :
    Remembered env child (some w) (some w) := by
  rcases fits w rfl with container | leaf
  · exact ⟨w, rfl, .inr ⟨container, rfl⟩⟩
  · exact ⟨w, rfl, .inl ⟨leaf, .inr rfl⟩⟩

/-- What a decoded child is remembered as. -/
theorem Yields.remembered (yields : Yields env s t d child.place v) :
    Remembered env child v (if isTable env v then v else none) := by
  unfold Yields at yields
  cases isKind : child.place.node.kind? with
  | none =>
      rw [isKind] at yields
      obtain ⟨w, rfl, leaf⟩ := yields
      refine ⟨w, rfl, .inl ⟨leaf, ?_⟩⟩
      split
      · exact .inr rfl
      · exact .inl rfl
  | some kind =>
      rw [isKind] at yields
      obtain ⟨r, rfl, -⟩ := yields
      exact ⟨.table r, rfl, .inr ⟨by rw [isKind]; rfl, rfl⟩⟩

theorem Iterating.rested (it : Iterating forest t d loop place i cache s)
    {cache' : Map Bytes (Value F)} (resting : Resting forest t d place cache' s')
    (carries : Carries env t d s s') : Iterating forest t d loop place i cache' s' where
  toResting := resting
  begun := by
    rw [carries.loops]
    exact it.begun

theorem Iterating.opened (it : Iterating forest t d loop place i cache s)
    (opened : Opened forest s s') : Iterating forest t d loop place i cache s' where
  toResting := it.toResting.opened opened
  begun := by
    rw [opened.opens.loops]
    exact it.begun

theorem Iterating.moved (it : Iterating forest t d loop place i cache s)
    (at_ : At forest d place) (object : place.node.kind? = some .obj)
    (here : place.children[i]? = some child) {seen : List Bytes}
    (sees : ∀ key, key ∈ seen ↔ key ∈ (place.children.take i).map keyText) :
    Iterating forest t d loop place (i + 1) cache { s with
      loops := s.loops.set loop (.entries t (iterPlace place (i + 1)) (keyText child :: seen)) } where
  wf := it.wf.setLoop loop ⟨_, place, i + 1, it.here, rfl, at_, object, rfl⟩
  here := it.here
  begun := by
    obtain ⟨_, begun, -⟩ := it.begun
    refine ⟨keyText child :: seen,
      List.getElem?_set_self (List.getElem?_eq_some_iff.1 begun).1, fun key => ?_⟩
    rw [take_succ_of here, List.map_append, List.mem_append, List.mem_cons, sees, or_comm,
      List.map_singleton, List.mem_singleton]

/-- What a round does: it yields the next member, or it is behind the last. -/
theorem wp_nextRound (at_ : At forest d place) (object : place.node.kind? = some .obj)
    (it : Iterating forest t d loop place i cache s) :
    Action.Wp (nextRound env loop) s
      (fun reply s' => match place.children[i]? with
        | none => reply = .nothing ∧ Iterating forest t d loop place i cache s'
        | some child => ∃ v cache', reply = .field (keyText child) v ∧
            Iterating forest t d loop place (i + 1) cache' s' ∧
            (∀ other, other ≠ keyText child → cache'.lookup other = cache.lookup other) ∧
            (keyText child ∉ (place.children.take i).map keyText →
              Fits env child (cache.lookup (keyText child)) →
              Remembered env child v (cache'.lookup (keyText child))))
      fun _ => ¬ Legible env place := by
  obtain ⟨seen, begun, sees⟩ := it.begun
  rw [nextRound, Action.wp_bind, Action.wp_get, begun]
  simp only [it.here]
  rw [Action.wp_bind, lazyObjectIter, Action.wp_bind]
  refine it.wf.library.wp_access at_ (replies_iterNext (host_validator env) object i)
    fun u quiet library => ?_
  have it' := it.opened ((Opened.refl it.wf).quiet quiet library)
  cases here : place.children[i]? with
  | none => exact ⟨rfl, it'⟩
  | some child =>
      have atChild := at_.child here
      have moved := it'.moved at_ object here sees
      have refused (unreadable : Unreadable env child.place.node) : ¬ Legible env place :=
        fun legible => legible child (List.mem_of_getElem? here) unreadable
      change Action.Wp (setLoop loop (.entries t (iterPlace place (i + 1))
        (keyText child :: seen)) >>= _) u _ _
      rw [Action.wp_bind, setLoop, Action.wp_modify]
      split
      · -- The key was there before: nothing is remembered.
        rename_i member
        rw [Action.wp_bind, setCachedChild, Action.wp_modify, Action.wp_bind]
        have cleared := moved.rested (moved.toResting.cached (keyText child) held_none)
          (carries_update env d moved.wf _)
        apply (wp_decodeChild cleared.wf atChild (lt_of_proxy? cleared.here)).mono
        · rintro v s' ⟨opened, -⟩
          refine ⟨v, _, rfl, cleared.opened opened, fun other apart => ?_, fun new => ?_⟩
          · rw [lookup_put, if_neg apart]
          · exact absurd ((sees _).1 member) new
        · exact fun _ failed => refused failed.2
      · rw [Action.wp_bind, cachedChild, Action.wp_bind, Action.wp_get, Action.wp_pure]
        have held : (State.proxy? { u with loops := u.loops.set loop (.entries t
            (iterPlace place (i + 1)) (keyText child :: seen)) } t).bind
              (fun q => q.childCache.lookup (keyText child)) = cache.lookup (keyText child) :=
          congrArg (Option.bind · fun q => q.childCache.lookup (keyText child)) moved.here
        rw [held]
        cases cached : cache.lookup (keyText child) with
        | some w =>
            refine ⟨some w, cache, rfl, moved, fun _ _ => rfl, fun _ fits => ?_⟩
            rw [cached] at fits ⊢
            exact fits.remembered
        | none =>
            apply (wp_decodeStored moved.toResting atChild (keyText child) cached
              fun v => some (keyText child, v)).mono
            · rintro _ s' ⟨v, cache', rfl, resting, carries, yields, others, now⟩
              refine ⟨v, cache', rfl, moved.rested resting carries, others, fun _ _ => ?_⟩
              rw [now]
              exact yields.remembered
            · exact fun _ failed => refused failed

end Steps

/-! ## The member that a key leads to -/

section Leading

variable {F : Type} [DecidableEq F] {env : Env F} {s : State F} {t d : Nat} {place left right : Place}
  {cache : Map Bytes (Value F)} {child : Child} {key : Bytes} {v w : Option (Value F)} {x : Value F}

theorem SameContent.symm (same : SameContent env left right) : SameContent env right left := by
  obtain ⟨s, v, toLeft, toRight⟩ := same
  exact ⟨s, v, toRight, toLeft⟩

theorem SameContent.isLeaf (same : SameContent env left right) (leaf : IsLeaf env left.node x) :
    IsLeaf env right.node x := by
  obtain ⟨s, v, toLeft, toRight⟩ := same
  obtain rfl := (Renders.leaf_iff leaf).1 toLeft
  exact toRight.isLeaf leaf.not_table

theorem SameContent.isSome_kind? (same : SameContent env left right)
    (container : left.node.kind?.isSome) : right.node.kind?.isSome := by
  obtain ⟨s, v, toLeft, toRight⟩ := same
  cases toRight with
  | table isKind _ _ _ _ =>
      rw [isKind]
      rfl
  | leaf leaf =>
      rw [(toLeft.isLeaf leaf.not_table).kind?] at container
      cases container

theorem Yields.fits {place : Place} (yields : Yields env s t d place v)
    (same : SameContent env place child.place) : Fits env child v := by
  rintro w rfl
  unfold Yields at yields
  cases isKind : place.node.kind? with
  | none =>
      rw [isKind] at yields
      obtain ⟨w', eq, leaf⟩ := yields
      obtain rfl := Option.some.inj eq
      exact .inr (same.isLeaf leaf)
  | some kind => exact .inl (same.isSome_kind? (by rw [isKind]; rfl))

/-- Where a key leads when it leads to the content of a member. -/
theorem rootSource_cases (cache : Map Bytes (Value F)) (accords : Accords env
    (freshSource env t (fresh .obj none d place) place.children key) (some child)) :
    (∃ x, rootSource env t d place cache key = some (.held x) ∧ IsLeaf env child.place.node x) ∨
    (∃ x, rootSource env t d place cache key = some (.held x) ∧ cache.lookup key = some x) ∨
    ∃ first, rootSource env t d place cache key = some (.decoded first) ∧
      cache.lookup key = none ∧ SameContent env first.place child.place := by
  have contents : (rootView d place cache).childCache = cache := rfl
  rw [freshSource] at accords
  rw [rootSource]
  cases raw : rawget env t (fresh .obj none d place) (.str key) with
  | some x =>
      rw [raw] at accords
      exact .inl ⟨x, rfl, accords⟩
  | none =>
      rw [raw] at accords
      simp only [Proxy.source, contents]
      cases cached : cache.lookup key with
      | some x => exact .inr (.inl ⟨x, rfl, rfl⟩)
      | none =>
          cases first : firstSpelled place.children key with
          | none =>
              rw [first] at accords
              exact accords.elim
          | some child' =>
              rw [first] at accords
              exact .inr (.inr ⟨child', rfl, rfl, accords⟩)

/-- Reads leave in the cache what fits. -/
theorem fits_cachedBehind (accords : Accords env
    (freshSource env t (fresh .obj none d place) place.children key) (some child))
    (fits : Fits env child (cache.lookup key))
    (found : Found env s t d 0 (rootSource env t d place cache key) v) :
    Fits env child (cachedBehind env (rootSource env t d place cache key) v (cache.lookup key)) := by
  rcases rootSource_cases cache accords with ⟨x, source, -⟩ | ⟨x, source, -⟩ |
    ⟨first, source, -, same⟩
  · rwa [source]
  · rwa [source]
  · rw [source] at found ⊢
    rw [cachedBehind]
    split
    · exact found.1.fits same
    · exact fits_none

/-- What is read is what is remembered. -/
theorem Remembered.read (accords : Accords env
    (freshSource env t (fresh .obj none d place) place.children key) (some child))
    (remembered : Remembered env child v (cache.lookup key))
    (found : Found env s t d 0 (rootSource env t d place cache key) w) :
    w = v ∧ Remembered env child v
      (cachedBehind env (rootSource env t d place cache key) w (cache.lookup key)) := by
  have kept := remembered
  obtain ⟨y, rfl, is⟩ := remembered
  rcases rootSource_cases cache accords with ⟨x, source, leaf⟩ | ⟨x, source, cached⟩ |
    ⟨first, source, absent, same⟩
  · rw [source] at found ⊢
    obtain rfl := found
    refine ⟨?_, kept⟩
    rcases is with ⟨leaf', -⟩ | ⟨container, -⟩
    · exact congrArg some (leaf.unique leaf')
    · rw [leaf.kind?] at container
      cases container
  · rw [source] at found ⊢
    obtain rfl := found
    refine ⟨?_, kept⟩
    rw [cached] at is
    rcases is with ⟨-, none_ | same⟩ | ⟨-, same⟩
    · cases none_
    · exact same
    · exact same
  · rw [source] at found ⊢
    rw [absent] at is
    rcases is with ⟨leaf, -⟩ | ⟨-, clash⟩
    · have leafFirst := same.symm.isLeaf leaf
      obtain ⟨yields, -⟩ := found
      unfold Yields at yields
      rw [leafFirst.kind?] at yields
      obtain ⟨z, rfl, leaf'⟩ := yields
      obtain rfl := leaf'.unique leafFirst
      refine ⟨rfl, z, rfl, .inl ⟨leaf, ?_⟩⟩
      rw [cachedBehind]
      split
      · exact .inr rfl
      · exact .inl rfl
    · cases clash

end Leading

/-! ## Before and behind the round that yields a member -/

section Phases

variable {F : Type} [DecidableEq F] {env : Env F} {forest : Forest} {s s' : State F}
  {t d loop i j : Nat} {place : Place} {child other : Child} {key : Bytes}
  {v : Option (Value F)}

/-- The loop may not have come to the member. -/
def Ahead (env : Env F) (forest : Forest) (t d loop : Nat) (place : Place) (child : Child)
    (s : State F) : Prop :=
  ∃ i cache, Iterating forest t d loop place i cache s ∧
    Fits env child (cache.lookup (keyText child))

/-- The loop has yielded a value for the member at the given position. -/
def Behind (env : Env F) (forest : Forest) (t d loop : Nat) (place : Place) (j : Nat)
    (child : Child) (v : Option (Value F)) (s : State F) : Prop :=
  ∃ i cache, Iterating forest t d loop place i cache s ∧ j < i ∧
    Remembered env child v (cache.lookup (keyText child))

/-- A key that occurs once. -/
structure Single (place : Place) (j : Nat) (child : Child) : Prop where
  here : place.children[j]? = some child
  only : ∀ i other, place.children[i]? = some other → keyText other = keyText child → i = j

theorem exists_single (once : (place.children.map keyText).count key = 1) :
    ∃ j child, keyText child = key ∧ Single place j child := by
  have member : key ∈ place.children.map keyText :=
    List.count_pos_iff.1 (once ▸ Nat.zero_lt_one)
  obtain ⟨child, inside, rfl⟩ := List.mem_map.1 member
  obtain ⟨done, rest, split⟩ := List.append_of_mem inside
  rw [split, List.map_append, List.map_cons, List.count_append, List.count_cons_self] at once
  have front : keyText child ∉ done.map keyText := List.count_eq_zero.1 (by omega)
  have back : keyText child ∉ rest.map keyText := List.count_eq_zero.1 (by omega)
  refine ⟨done.length, child, rfl, ?_, fun i other here same => ?_⟩
  · rw [split, List.getElem?_append_right (Nat.le_refl _), Nat.sub_self]
    rfl
  · rw [split] at here
    rcases Nat.lt_trichotomy i done.length with before | at_ | behind
    · rw [List.getElem?_append_left before] at here
      exact absurd (List.mem_map.2 ⟨other, List.mem_of_getElem? here, same⟩) front
    · exact at_
    · obtain ⟨k, rfl⟩ := Nat.exists_eq_add_of_lt behind
      rw [List.getElem?_append_right (by omega)] at here
      have : done.length + k + 1 - done.length = k + 1 := by omega
      rw [this, List.getElem?_cons_succ] at here
      exact absurd (List.mem_map.2 ⟨other, List.mem_of_getElem? here, same⟩) back

theorem Single.not_mem_take (single : Single place j child) :
    keyText child ∉ (place.children.take j).map keyText := by
  intro member
  obtain ⟨other, member, same⟩ := List.mem_map.1 member
  obtain ⟨i, here⟩ := List.getElem?_of_mem member
  have before : i < j := by
    have := (List.getElem?_eq_some_iff.1 here).1
    rw [List.length_take] at this
    omega
  rw [List.getElem?_take_of_lt before] at here
  have := single.only i other here same
  omega

theorem Ahead.round (at_ : At forest d place) (object : place.node.kind? = some .obj)
    (single : Single place j child) (ahead : Ahead env forest t d loop place child s) :
    Action.Wp (nextRound env loop) s
      (fun reply s' => Ahead env forest t d loop place child s' ∧
        ∀ v, reply = .field (keyText child) v → Behind env forest t d loop place j child v s')
      fun _ => ¬ Legible env place := by
  obtain ⟨i, cache, it, fits⟩ := ahead
  apply (wp_nextRound at_ object it).mono
  · intro reply s' round
    cases here : place.children[i]? with
    | none =>
        rw [here] at round
        obtain ⟨rfl, it'⟩ := round
        exact ⟨⟨i, cache, it', fits⟩, fun v clash => by cases clash⟩
    | some other =>
        rw [here] at round
        obtain ⟨v, cache', rfl, it', others, first⟩ := round
        by_cases same : keyText other = keyText child
        · obtain rfl := single.only i other here same
          obtain rfl := Option.some.inj (here.symm.trans single.here)
          have remembered := first single.not_mem_take fits
          refine ⟨⟨i + 1, cache', it', remembered.fits⟩, fun w is => ?_⟩
          obtain ⟨-, rfl⟩ := Reply.field.inj is
          exact ⟨i + 1, cache', it', Nat.lt_succ_self i, remembered⟩
        · refine ⟨⟨i + 1, cache', it', ?_⟩, fun w is => ?_⟩
          · rwa [others _ (Ne.symm same)]
          · exact absurd (Reply.field.inj is).1 same
  · exact fun _ => id

theorem Behind.round (at_ : At forest d place) (object : place.node.kind? = some .obj)
    (single : Single place j child) (behind : Behind env forest t d loop place j child v s) :
    Action.Wp (nextRound env loop) s
      (fun _ s' => Behind env forest t d loop place j child v s')
      fun _ => ¬ Legible env place := by
  obtain ⟨i, cache, it, less, remembered⟩ := behind
  apply (wp_nextRound at_ object it).mono
  · intro reply s' round
    cases here : place.children[i]? with
    | none =>
        rw [here] at round
        exact ⟨i, cache, round.2, less, remembered⟩
    | some other =>
        rw [here] at round
        obtain ⟨w, cache', -, it', others, -⟩ := round
        refine ⟨i + 1, cache', it', Nat.lt_succ_of_lt less, ?_⟩
        rwa [others]
        intro same
        exact absurd (single.only i other here same.symm) (Nat.ne_of_gt less)
  · exact fun _ => id

theorem Ahead.read (at_ : At forest d place) (object : place.node.kind? = some .obj)
    (accords : Accords env (freshSource env t (fresh .obj none d place) place.children
      (keyText child)) (some child))
    (ahead : Ahead env forest t d loop place child s) (key : Bytes) :
    Action.Wp (index env t (some (.str key))) s
      (fun _ s' => Ahead env forest t d loop place child s')
      fun _ => ¬ Legible env place := by
  obtain ⟨i, cache, it, fits⟩ := ahead
  apply (wp_index_root at_ object it.toResting key).mono
  · rintro w s' ⟨cache', resting, carries, others, found, now⟩
    refine ⟨i, cache', it.rested resting carries, ?_⟩
    by_cases same : keyText child = key
    · subst same
      rw [now]
      exact fits_cachedBehind accords fits found
    · rwa [others _ same]
  · exact fun _ => id

theorem Behind.read (at_ : At forest d place) (object : place.node.kind? = some .obj)
    (accords : Accords env (freshSource env t (fresh .obj none d place) place.children
      (keyText child)) (some child))
    (behind : Behind env forest t d loop place j child v s) (key : Bytes) :
    Action.Wp (index env t (some (.str key))) s
      (fun w s' => Behind env forest t d loop place j child v s' ∧ (key = keyText child → w = v))
      fun _ => ¬ Legible env place := by
  obtain ⟨i, cache, it, less, remembered⟩ := behind
  apply (wp_index_root at_ object it.toResting key).mono
  · rintro w s' ⟨cache', resting, carries, others, found, now⟩
    have it' := it.rested resting carries
    by_cases same : key = keyText child
    · subst same
      obtain ⟨read, remembered'⟩ := remembered.read accords found
      rw [← now] at remembered'
      exact ⟨⟨i, cache', it', less, remembered'⟩, fun _ => read⟩
    · refine ⟨⟨i, cache', it', less, ?_⟩, fun clash => absurd clash same⟩
      rwa [others _ (Ne.symm same)]
  · exact fun _ => id

end Phases

/-! ## Whole runs -/

section Runs

variable {F : Type} [DecidableEq F] {env : Env F} {forest : Forest} {s s' : State F}
  {t d loop j : Nat} {place : Place} {child : Child} {key : Bytes} {v : Option (Value F)}

theorem wp_pairs_root (wf : Wf forest s) (here : s.proxy? t = some (fresh .obj none d place))
    (at_ : At forest d place) (object : place.node.kind? = some .obj) :
    Action.Wp ((Op.pairs t).run env) s
      (fun reply s' => ∃ loop, reply = .loop loop ∧ Iterating forest t d loop place 0 ∅ s')
      fun _ => False := by
  rw [Op.run, Action.wp_bind, Action.wp_get]
  simp only [here]
  change Action.Wp (objectPairs t (fresh .obj none d place) >>= _) s _ _
  rw [Action.wp_bind]
  change Action.Wp (newObjectIter (fresh .obj none d place) >>= _) s _ _
  rw [Action.wp_bind, newObjectIter, Action.wp_bind]
  refine wf.library.wp_access at_ (replies_iterInit object) fun u quiet library => ?_
  have opened := (Opened.refl wf).quiet quiet library
  have view := opened.opens.proxy? here
  have ok : LoopOk forest u (.entries t (iterPlace place 0) []) :=
    ⟨_, place, 0, view, rfl, at_, object, rfl⟩
  refine ⟨u.loops.length, rfl, ⟨keeps_newLoop opened.wf ok, view⟩, [],
    List.getElem?_concat_length, fun key => ?_⟩
  rw [List.take_zero]
  rfl

theorem Ahead.looked (at_ : At forest d place) (object : place.node.kind? = some .obj)
    (legible : Legible env place) (single : Single place j child)
    (accords : Accords env (freshSource env t (fresh .obj none d place) place.children
      (keyText child)) (some child))
    (ahead : Ahead env forest t d loop place child s)
    (looked : ReflTransGen (Looks env t loop) s s') :
    Ahead env forest t d loop place child s' := by
  induction looked with
  | refl => exact ahead
  | tail _ step ih =>
      cases step with
      | round =>
          obtain ⟨reply, s'', ran, after, -⟩ := returns_of_legible legible
            (ih.round at_ object single)
          rwa [ran]
      | read key =>
          obtain ⟨reply, s'', ran, after⟩ := returns_of_legible legible
            (ih.read at_ object accords key)
          rwa [ran]

theorem Behind.looked (at_ : At forest d place) (object : place.node.kind? = some .obj)
    (legible : Legible env place) (single : Single place j child)
    (accords : Accords env (freshSource env t (fresh .obj none d place) place.children
      (keyText child)) (some child))
    (behind : Behind env forest t d loop place j child v s)
    (looked : ReflTransGen (Looks env t loop) s s') :
    Behind env forest t d loop place j child v s' := by
  induction looked with
  | refl => exact behind
  | tail _ step ih =>
      cases step with
      | round =>
          obtain ⟨reply, s'', ran, after⟩ := returns_of_legible legible
            (ih.round at_ object single)
          rwa [ran]
      | read key =>
          obtain ⟨reply, s'', ran, after, -⟩ := returns_of_legible legible
            (ih.read at_ object accords key)
          rwa [ran]

variable {text : Bytes} {document : Document} {tree : Tree} {start : Nat}

/-- What `pairs` yields is what is read. -/
theorem yieldsAgree (wf : Wf forest s)
    (parsed : parseWithOptions (dispatch env.scanner env.strings) text Options.default =
      .ok document) (stands : Stands document tree start) (object : tree.kind? = some .obj)
    (readable : Readable env tree)
    (accords : Accords env (freshSource env s.tables.length
      (fresh .obj none s.docs.length (rootPlace tree start)) (rootPlace tree start).children key)
      (lastUnder (rootPlace tree start).children key))
    (once : ((rootPlace tree start).children.map keyText).count key = 1) :
    YieldsAgree env s text key := by
  intro t s₁ loop s₂ s₃ v s₄ s₅ decoded paired before yielded behind
  obtain ⟨u, ran, rooted⟩ := decode_container wf parsed stands object
  obtain ⟨same, rfl⟩ := Prod.mk.inj (ran.symm.trans decoded)
  obtain rfl := Value.table.inj (Option.some.inj (Except.ok.inj same))
  have isObject : (rootPlace tree start).node.kind? = some .obj := object
  obtain ⟨j, child, rfl, single⟩ := exists_single once
  have last : lastUnder (rootPlace tree start).children (keyText child) = some child := by
    obtain ⟨child', last⟩ := exists_lastUnder
      (List.mem_map_of_mem (List.mem_of_getElem? single.here) : keyText child ∈ _)
    obtain ⟨member, same⟩ := mem_of_lastUnder last
    obtain ⟨i, here⟩ := List.getElem?_of_mem member
    obtain rfl := single.only i child' here same
    exact last.trans (here.symm.trans single.here)
  rw [last] at accords
  obtain ⟨loop', isLoop, it⟩ :=
    (wp_pairs_root rooted.wf rooted.here rooted.at_ isObject).returned paired
  obtain rfl := Reply.loop.inj isLoop
  have ahead : Ahead env _ _ _ loop _ child s₂ := ⟨0, ∅, it, fits_none⟩
  have there := ahead.looked rooted.at_ isObject readable.legible single accords before
  have round := (there.round rooted.at_ isObject single).returned yielded
  have kept := (round.2 v rfl).looked rooted.at_ isObject readable.legible single accords behind
  obtain ⟨w, s₆, read, -, same⟩ := returns_of_legible readable.legible
    (kept.read rooted.at_ isObject accords (keyText child))
  rw [read, same rfl]

end Runs

/-! ## Reads and materialization -/

/-- On an accepted object, what is read under a key is what is materialized under it, and what
`pairs` yields under it if it occurs once, exactly when every number can be read and the key
leads to the content of the last member with that decoded key. -/
theorem lazy_reads_agree_iff {F : Type} [DecidableEq F] (env : Env F) {s : State F}
    (session : Session env (fun s op => op.Proper s) s) {text : Bytes}
    (short : text.length ≤ luaMaxString) {document : Document}
    (parsed : parseWithOptions (dispatch env.scanner env.strings) text Options.default =
      .ok document) {tree : Tree} (parses : tree.Parses text) (object : tree.kind? = some .obj)
    {room : Nat} (enough : tree.depth < room) :
    ∃ start, Stands document tree start ∧ ∀ key,
      (ReadsAgree env s text key room ∧
        (((rootPlace tree start).children.map keyText).count key = 1 →
          YieldsAgree env s text key)) ↔
      Readable env tree ∧
        Accords env (freshSource env s.tables.length
          (fresh .obj none s.docs.length (rootPlace tree start)) (rootPlace tree start).children
            key)
          (lastUnder (rootPlace tree start).children key) := by
  obtain ⟨forest, wf⟩ := session.wf fun _ _ proper => proper
  have small : text.length < u32Max := Nat.lt_of_le_of_lt short (by decide)
  obtain ⟨start, stands⟩ := stands_of_parse env.scanner env.strings small parsed parses
  refine ⟨start, stands, fun key => ?_⟩
  have reads : ReadsAgree env s text key room ↔ _ :=
    readsAgree_iff wf parsed stands object enough
  constructor
  · rintro ⟨agree, -⟩
    exact reads.1 agree
  · rintro ⟨readable, accords⟩
    exact ⟨reads.2 ⟨readable, accords⟩, yieldsAgree wf parsed stands object readable accords⟩

/-- The object `{"a":[true]}`. -/
theorem lazy_reads_agree_iff_member :
    ∃ start, Stands ⟨memberText, [0, 1, 3, 4, 5, 10, 11, u32Max], true⟩ memberTree start ∧
      ∀ key, (ReadsAgree natEnv (State.start Nat) memberText key 3 ∧
        (((rootPlace memberTree start).children.map keyText).count key = 1 →
          YieldsAgree natEnv (State.start Nat) memberText key)) ↔
      Readable natEnv memberTree ∧
        Accords natEnv (freshSource natEnv 0 (fresh .obj none 0 (rootPlace memberTree start))
          (rootPlace memberTree start).children key)
          (lastUnder (rootPlace memberTree start).children key) :=
  lazy_reads_agree_iff natEnv .start (by decide) (by decide +kernel) memberTree_parses rfl
    (by decide)

/-- `{"a":1,"a":2}` and its parse tree. -/
def repeatedText : Bytes :=
  [0x7B, 0x22, 0x61, 0x22, 0x3A, 0x31, 0x2C, 0x22, 0x61, 0x22, 0x3A, 0x32, 0x7D]
@[inherit_doc repeatedText] def repeatedTree : Tree :=
  .node .obj (.more (some ⟨[], [0x61], []⟩) [] (.scalar [0x31]) []
    (.last (some ⟨[], [0x61], []⟩) [] (.scalar [0x32]) []))

theorem repeatedTree_parses : repeatedTree.Parses repeatedText := by
  have blank : IsBlank [] := by simp
  have body : IsBody [0x61] :=
    @IsBody.cons [0x61] _ (.plain (by decide) (by decide) (by decide)) (by decide) .nil
  have one : IsNumber [0x31] := (validateNumber_ok_iff _).1 (by decide)
  have two : IsNumber [0x32] := (validateNumber_ok_iff _).1 (by decide)
  exact ⟨⟨⟨blank, body, blank⟩, blank, .number one, blank, ⟨blank, body, blank⟩, blank,
    .number two, blank⟩, [], [], blank, blank, rfl⟩

/-- The text is accepted, the first member is read, and the second is materialized. -/
theorem repeatedText_facts :
    (∃ document, parseWithOptions (dispatch natEnv.scanner natEnv.strings) repeatedText
      Options.default = .ok document) ∧
    (readBoth natEnv repeatedText [0x61] 2 (State.start Nat)).1 =
      .ok (some (.num 1), some (.num 2)) := by
  refine ⟨⟨⟨repeatedText, [0, 1, 3, 4, 6, 7, 9, 10, 12, u32Max], true⟩, ?_⟩, ?_⟩ <;>
    decide +kernel

/-- Under a key that occurs twice, the first member is read and the last is materialized. -/
theorem not_forall_readsAgree :
    ¬ ∀ (s : State Nat) (text key : Bytes) (document : Document) (tree : Tree) (room : Nat),
      Session natEnv (fun s op => op.Proper s) s → text.length ≤ luaMaxString →
      parseWithOptions (dispatch natEnv.scanner natEnv.strings) text Options.default =
        .ok document →
      tree.Parses text → tree.kind? = some .obj → tree.depth < room →
      ReadsAgree natEnv s text key room ∧
        (∀ start, ((rootPlace tree start).children.map keyText).count key = 1 →
          YieldsAgree natEnv s text key) := by
  intro claim
  obtain ⟨⟨document, parsed⟩, reads⟩ := repeatedText_facts
  obtain ⟨agree, -⟩ := claim (State.start Nat) repeatedText [0x61] document repeatedTree 2 .start
    (by decide) parsed repeatedTree_parses rfl (by decide)
  unfold ReadsAgree Action.Wp at agree
  rcases ran : readBoth natEnv repeatedText [0x61] 2 (State.start Nat) with ⟨result, s'⟩
  rw [ran] at agree reads
  obtain rfl : result = .ok (some (.num 1), some (.num 2)) := reads
  cases agree

end QJson.Table
