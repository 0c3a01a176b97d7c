import QJson.Ffi.Proper

/-!
# Looking up again

A step that succeeds leaves the slot of its container in the skip cache, and the cache
forgets no slot.  The same step therefore succeeds with the same cursor ever after, and
so does the path it is a part of, without another change to the cache.
-/

namespace QJson.Ffi

open Rfc8259 Validate Doc Decode

/-- Every slot that the cache finds is found later too. -/
def Grows (cache later : SkipCache) : Prop :=
  ∀ openerIdx slotN slot, cache.get openerIdx = some slotN → cache.slots[slotN]? = some slot →
    later.get openerIdx = some slotN ∧ later.slots[slotN]? = some slot

theorem Grows.refl (cache : SkipCache) : Grows cache cache :=
  fun _ _ _ found slot => ⟨found, slot⟩

theorem Grows.trans {first second third : SkipCache} (left : Grows first second)
    (right : Grows second third) : Grows first third := by
  intro openerIdx slotN slot found at_
  obtain ⟨found, at_⟩ := left openerIdx slotN slot found at_
  exact right openerIdx slotN slot found at_

theorem grows_insert {cache : SkipCache} {openerIdx : Nat} (starts ends : List Nat)
    (absent : cache.get openerIdx = none) :
    Grows cache (cache.insert openerIdx starts ends) := by
  intro other slotN slot found at_
  have differ : other ≠ openerIdx := by
    rintro rfl
    rw [absent] at found
    cases found
  rw [SkipCache.get_insert starts ends absent, if_neg differ,
    (SkipCache.insert_absent starts ends absent).1,
    List.getElem?_append_left (List.getElem?_eq_some_iff.1 at_).1]
  exact ⟨found, at_⟩

section Steps

variable {doc : Document} {cache later : SkipCache} {cur next : Cursor} {seg : PathSeg}

theorem grows_step (doc : Document) (cache : SkipCache) (cur : Cursor) (seg : PathSeg) :
    Grows cache (step doc cache cur seg).2 := by
  rcases step_cases doc cur seg with mismatch | ⟨b, -, -, -, walks⟩
  · rw [mismatch]
    exact Grows.refl cache
  · rw [walks]
    cases cached : cache.get cur.idxStart with
    | some slotN =>
        rw [walkChildren_warm cached]
        exact Grows.refl cache
    | none =>
        rw [walkChildren_cold cached]
        cases walkUncached doc cur seg.isKey seg with
        | error fault => exact Grows.refl cache
        | ok out => exact grows_insert out.1.childStarts out.1.childEnds cached

/-- What the slow path found, the fast path finds among the same entries. -/
theorem warm_of_cold {isObj : Bool} {pairs : List (Nat × Nat)} {k : Nat}
    (ok : coldMatch doc isObj seg (u32 k) none pairs = .ok (some next)) :
    resolveInKnownChildren doc isObj seg k pairs = .ok next := by
  induction pairs generalizing k with
  | nil => cases ok
  | cons entry pairs ih =>
      obtain ⟨i, idxEnd⟩ := entry
      have following : u32 (u32 k + 1) = u32 (k + 1) := by
        unfold u32
        omega
      rw [coldMatch, matchOnce, following] at ok
      obtain ⟨matched, check, ok⟩ := bind_eq_ok_iff.1 ok
      have onward (key : (if isObj then
            keyBytes doc i >>= fun key => (.ok (seg == .key key) : Rust QjsonErr Bool)
          else .ok (seg == .idx (u32 k))) = .ok matched) :
          resolveInKnownChildren doc isObj seg k ((i, idxEnd) :: pairs) = .ok next := by
        have unfolded : resolveInKnownChildren doc isObj seg k ((i, idxEnd) :: pairs) =
            (if isObj then
              keyBytes doc i >>= fun key => (.ok (seg == .key key) : Rust QjsonErr Bool)
            else .ok (seg == .idx (u32 k))) >>= fun matched =>
              if matched then .ok ⟨valueMarker isObj i, idxEnd⟩
              else resolveInKnownChildren doc isObj seg (k + 1) pairs := by
          rw [resolveInKnownChildren]
          cases isObj with
          | false => rfl
          | true => cases keyBytes doc i <;> rfl
        rw [unfolded, key, ok_bind]
        cases matched with
        | true =>
            rw [if_pos rfl, coldMatch_some] at ok
            rw [if_pos rfl, Option.some.inj (Except.ok.inj ok)]
        | false =>
            rw [if_neg (by decide)] at ok ⊢
            exact ih ok
      rw [Option.isNone_none, if_pos rfl, childMatches] at check
      cases isObj with
      | false => exact onward check
      | true =>
          obtain ⟨opening, -, check⟩ := bind_eq_ok_iff.1 check
          split at check
          · cases check
          · exact onward check

/-- A step that succeeded succeeds again, now from the cache alone. -/
theorem step_again {P : Nat → SkipSlot → Prop} (keeps : CacheKeeps doc P cache)
    (small : doc.indices.length < 2 ^ 32) (ok : (step doc cache cur seg).1 = .ok next)
    (grown : Grows (step doc cache cur seg).2 later) :
    step doc later cur seg = (.ok next, later) := by
  have room := keeps.room
  rcases step_cases doc cur seg with mismatch | ⟨b, -, -, -, walks⟩
  · rw [mismatch] at ok
    cases ok
  · rw [walks] at ok grown ⊢
    cases cached : cache.get cur.idxStart with
    | some slotN =>
        rw [walkChildren_warm cached] at ok grown
        obtain ⟨slot, found, -⟩ := keeps.sound cur.idxStart slotN cached
        obtain ⟨cached', found'⟩ := grown _ _ _ cached found
        rw [walkChildren_warm cached', walkCached, SkipCache.slot, atIdx_of_getElem? found']
        rw [walkCached, SkipCache.slot, atIdx_of_getElem? found] at ok
        exact congrArg (·, later) ok
    | none =>
        rw [walkChildren_cold cached] at ok grown
        cases walked : walkUncached doc cur seg.isKey seg with
        | error fault =>
            rw [walked] at ok
            cases ok
        | ok out =>
            obtain ⟨slot, result⟩ := out
            rw [walked] at ok grown
            simp only at ok grown
            obtain ⟨-, cold⟩ := stored_of_walkUncached walked
            cases result with
            | none => cases ok
            | some found =>
                obtain rfl := Except.ok.inj ok
                obtain ⟨cached', at_⟩ := grown cur.idxStart cache.slots.length slot
                  (by rw [SkipCache.get_insert _ _ cached, if_pos rfl, u32_of_lt (by omega)])
                  (by rw [(SkipCache.insert_absent _ _ cached).1]; simp)
                rw [walkChildren_warm cached', walkCached, SkipCache.slot, atIdx_of_getElem? at_]
                exact congrArg (·, later) (warm_of_cold cold)

end Steps

section Paths

variable {doc : Document}

theorem grows_resolve (doc : Document) (path : Bytes) (cache : SkipCache) (cur : Cursor) :
    Grows cache (resolve doc cache cur path).2 := by
  have walk := @resolve_induction doc (fun after _ => Grows cache after)
    (fun after _ => Grows cache after) (fun _ _ _ grown => grown)
    (fun _ _ _ _ grown _ _ => grown.trans (grows_step doc _ _ _))
    (fun _ _ _ _ grown _ => grown.trans (grows_step doc _ _ _)) path cache cur (Grows.refl cache)
  cases result : (resolve doc cache cur path).1 with
  | ok next => rw [result] at walk; exact walk
  | error fault => rw [result] at walk; exact walk

/-- Slots of which nothing is known are kept along a path. -/
theorem keeps_resolve {marks : List Nat} (indexed : Indexed doc marks) (path : Bytes)
    {cache : SkipCache} (cur : Cursor) (keeps : CacheKeeps doc (fun _ _ => True) cache) :
    CacheKeeps doc (fun _ _ => True) (resolve doc cache cur path).2 := by
  have walk := @resolve_induction doc (fun after _ => CacheKeeps doc (fun _ _ => True) after)
    (fun after _ => CacheKeeps doc (fun _ _ => True) after) (fun _ _ _ kept => kept)
    (fun _ _ _ _ kept _ _ => kept.step indexed fun _ _ _ _ _ _ => trivial)
    (fun _ _ _ _ kept _ => kept.step indexed fun _ _ _ _ _ _ => trivial) path cache cur keeps
  cases result : (resolve doc cache cur path).1 with
  | ok next => rw [result] at walk; exact walk
  | error fault => rw [result] at walk; exact walk

/-- A path that was resolved is resolved again, now from the cache alone. -/
theorem resolve_again {marks : List Nat} (indexed : Indexed doc marks) (path : Bytes)
    {cache later : SkipCache} {cur next : Cursor}
    (keeps : CacheKeeps doc (fun _ _ => True) cache)
    (ok : (resolve doc cache cur path).1 = .ok next)
    (grown : Grows (resolve doc cache cur path).2 later) :
    resolve doc later cur path = (.ok next, later) := by
  have room := indexed.room
  have length := indexed.length
  induction size : path.length using Nat.strongRecOn generalizing path cache cur with
  | ind size ih =>
    subst size
    cases segment : pathNext path with
    | none =>
        rw [resolve_nil cache cur segment] at ok
        obtain rfl := Except.ok.inj ok
        exact resolve_nil later cur segment
    | some outcome =>
        cases outcome with
        | error error =>
            rw [resolve_error cache cur segment] at ok
            cases ok
        | ok read =>
            obtain ⟨seg, rest⟩ := read
            rw [resolve_seg cache cur segment] at ok grown
            rw [resolve_seg later cur segment]
            cases stepped : step doc cache cur seg with
            | mk outcome after =>
                have kept : CacheKeeps doc (fun _ _ => True) (step doc cache cur seg).2 :=
                  keeps.step indexed fun _ _ _ _ _ _ => trivial
                rw [stepped] at ok grown kept
                cases outcome with
                | error fault => cases ok
                | ok child =>
                    have again : step doc later cur seg = (.ok child, later) := by
                      refine step_again keeps (by omega) (by rw [stepped]) ?_
                      rw [stepped]
                      exact (grows_resolve doc rest after child).trans grown
                    rw [again]
                    exact ih rest.length (pathNext_shorter segment) rest kept ok grown rfl

end Paths

end QJson.Ffi
