import QJson.Table.Roots

/-!
# Reading a decoded object

Reads on a proxy that was just decoded put the containers they find into its cache, and leave
the proxy as it is otherwise.
-/

namespace QJson.Table

open Rfc8259 Validate Doc Decode Ffi Lua

section Statements

variable {F : Type} [DecidableEq F] (env : Env F)

/-- The proxy of an object that was decoded, with what it has in its cache. -/
def rootView (d : Nat) (place : Place) (cache : Map Bytes (Value F)) : Proxy F :=
  { fresh .obj none d place with childCache := cache }

/-- Where it finds a field. -/
def rootSource (t d : Nat) (place : Place) (cache : Map Bytes (Value F)) (key : Bytes) :
    Option (Source F) :=
  match rawget env t (fresh .obj none d place) (.str key) with
  | some v => some (.held v)
  | none => (rootView d place cache).source place.children key

/-- What a read leaves in the cache under its key. -/
def cachedBehind (source : Option (Source F)) (v cached : Option (Value F)) :
    Option (Value F) :=
  match source with
  | some (.decoded _) => if isTable env v then v else none
  | _ => cached

/-- A decoded object without order state. -/
structure Resting (forest : Forest) (t d : Nat) (place : Place) (cache : Map Bytes (Value F))
    (s : State F) : Prop where
  wf : Wf forest s
  here : s.proxy? t = some (rootView d place cache)

/-- What was decoded below the object is there later, and the loops are as they were. -/
structure Carries (t d : Nat) (s s' : State F) : Prop where
  yields : ∀ place v, Yields env s t d place v → Yields env s' t d place v
  loops : s'.loops = s.loops
  docs : s'.docs = s.docs

end Statements

section Steps

variable {F : Type} [DecidableEq F] {env : Env F} {forest : Forest} {s s' s'' : State F}
  {t d : Nat} {place : Place} {cache : Map Bytes (Value F)} {child : Child}
  {v : Option (Value F)}

theorem Carries.refl (s : State F) : Carries env t d s s := ⟨fun _ _ => id, rfl, rfl⟩

theorem Carries.trans (first : Carries env t d s s') (second : Carries env t d s' s'') :
    Carries env t d s s'' where
  yields place v yields := second.yields place v (first.yields place v yields)
  loops := second.loops.trans first.loops
  docs := second.docs.trans first.docs

theorem Opened.carries (opened : Opened forest s s') : Carries env t d s s' where
  yields _ _ yields := Yields.opens yields opened.opens
  loops := opened.opens.loops
  docs := opened.opens.docs

theorem carries_update (env : Env F) (d : Nat) (wf : Wf forest s) (change : Proxy F → Proxy F) :
    Carries env t d s (s.updateProxy t change) where
  yields _ _ yields := yields.update wf change
  loops := rfl
  docs := rfl

theorem Resting.opened (resting : Resting forest t d place cache s)
    (opened : Opened forest s s') : Resting forest t d place cache s' where
  wf := opened.wf
  here := opened.opens.proxy? resting.here

theorem Resting.cached (resting : Resting forest t d place cache s) (key : Bytes)
    (held : Held s.tables.length v) :
    Resting forest t d place (put cache key v)
      (s.updateProxy t fun q => { q with childCache := put q.childCache key v }) where
  wf := resting.wf.cached t key held
  here := proxy?_eq_some.2 ((getElem?_updateProxy _).2
    (.inl ⟨_, rfl, proxy?_eq_some.1 resting.here, rfl⟩))

/-- What can only fail at a number that cannot be read returns where there is none. -/
theorem returns_of_legible {α : Type} {action : Act F α} {ok : α → State F → Prop}
    (legible : Legible env place)
    (wp : Action.Wp action s ok fun _ => ¬ Legible env place) :
    ∃ v s', action s = (.ok v, s') ∧ ok v s' :=
  (wp.mono (fun _ _ => id) fun _ failed => failed legible).exists_ok

theorem wp_decodeStored (resting : Resting forest t d place cache s)
    (at_ : At forest d child.place) (key : Bytes) (absent : cache.lookup key = none) {α : Type}
    (reply : Option (Value F) → α) :
    Action.Wp (do
        let v ← decodeCursor env (some t) d child.place.cursor
        if isTable env v then setCachedChild t key v
        return reply v) s
      (fun r s' => ∃ v cache', r = reply v ∧ Resting forest t d place cache' s' ∧
        Carries env t d s s' ∧ Yields env s' t d child.place v ∧
        (∀ other, other ≠ key → cache'.lookup other = cache.lookup other) ∧
        cache'.lookup key = if isTable env v then v else none)
      fun _ => Unreadable env child.place.node := by
  rw [Action.wp_bind]
  apply (wp_decodeChild resting.wf at_ (lt_of_proxy? resting.here)).mono
  · rintro v s' ⟨opened, yields⟩
    have resting' := resting.opened opened
    split
    · rename_i table
      refine ⟨v, put cache key v, rfl, resting'.cached key yields.held,
        opened.carries.trans (carries_update env d opened.wf _), yields.update opened.wf _,
        fun other apart => ?_, ?_⟩
      · rw [lookup_put, if_neg apart]
      · rw [lookup_put, if_pos rfl, if_pos table]
    · rename_i noTable
      exact ⟨v, cache, rfl, resting', opened.carries, yields, fun _ _ => rfl,
        absent.trans (if_neg noTable).symm⟩
  · exact fun _ failed => failed.2

theorem wp_index_root (at_ : At forest d place) (object : place.node.kind? = some .obj)
    (resting : Resting forest t d place cache s) (key : Bytes) :
    Action.Wp (index env t (some (.str key))) s
      (fun v s' => ∃ cache', Resting forest t d place cache' s' ∧ Carries env t d s s' ∧
        (∀ other, other ≠ key → cache'.lookup other = cache.lookup other) ∧
        Found env s' t d 0 (rootSource env t d place cache key) v ∧
        cache'.lookup key =
          cachedBehind env (rootSource env t d place cache key) v (cache.lookup key))
      fun _ => ¬ Legible env place := by
  have same : rawget env t (rootView d place cache) (.str key) =
      rawget env t (fresh .obj none d place) (.str key) := rfl
  rw [index, Action.wp_bind, Action.wp_get, proxy?_eq_some.1 resting.here]
  simp only [toKey, Option.bind_some, same]
  unfold rootSource
  cases rawget env t (fresh .obj none d place) (.str key) with
  | some w => exact ⟨cache, resting, .refl s, fun _ _ => rfl, rfl, rfl⟩
  | none =>
      have unordered : (rootView d place cache).order = none := rfl
      have contents : (rootView d place cache).childCache = cache := rfl
      change Action.Wp (readObjectField env t (rootView d place cache) key) s _ _
      rw [readObjectField, unordered, Proxy.source, contents]
      cases cached : cache.lookup key with
      | some w => exact ⟨cache, resting, .refl s, fun _ _ => rfl, rfl, cached⟩
      | none =>
          have replies := @replies_field F forest d place key
          rw [pickNode_key object] at replies
          cases first : firstSpelled place.children key with
          | none =>
              rw [first] at replies
              rw [Action.wp_bind]
              refine resting.wf.library.wp_access at_ replies fun u quiet library => ?_
              have opened := (Opened.refl resting.wf).quiet quiet library
              exact ⟨cache, resting.opened opened, opened.carries, fun _ _ => rfl, rfl, cached⟩
          | some child =>
              rw [first] at replies
              have member := mem_of_firstSpelled first
              obtain ⟨i, here⟩ := List.getElem?_of_mem member
              rw [Action.wp_bind]
              refine resting.wf.library.wp_access at_ replies fun u quiet library => ?_
              have opened := (Opened.refl resting.wf).quiet quiet library
              apply (wp_decodeStored (resting.opened opened) (at_.child here) key cached id).mono
              · rintro _ s' ⟨v, cache', rfl, resting', carries, yields, others, now⟩
                exact ⟨cache', resting', opened.carries.trans carries, others,
                  ⟨yields, fun _ _ => Nat.zero_le _⟩, now⟩
              · exact fun _ failed legible => legible child member failed

end Steps

end QJson.Table
