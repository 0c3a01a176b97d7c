import QJson.Doc.Bounds

/-!
# What the skip cache holds

A property of the slots that a cold walk stores holds of every slot that the cache
finds later (`CacheKeeps`).  The rules at the end go through the cases of a step and,
by induction, along a path.
-/

namespace QJson.Doc

open Rfc8259 Validate

/-! ## Insertion -/

section Insertion

variable {cache : SkipCache} {openerIdx : Nat}

/-- Slot numbers do not wrap: there is at most one slot for each index position. -/
theorem SkipCache.room_of_distinct {length : Nat}
    (aligned : cache.slots.length = cache.byOpener.length + 1)
    (distinct : (cache.byOpener.map Prod.fst).Nodup)
    (inside : ∀ openerIdx ∈ cache.byOpener.map Prod.fst, openerIdx + 1 < length) :
    cache.slots.length ≤ length - 1 + 1 := by
  have subset : cache.byOpener.map Prod.fst ⊆ List.range (length - 1) := by
    intro openerIdx member
    have := inside openerIdx member
    exact List.mem_range.2 (by omega)
  have short := distinct.length_le_of_subset subset
  rw [List.length_map, List.length_range] at short
  omega

theorem SkipCache.not_mem_of_get (absent : cache.get openerIdx = none) :
    openerIdx ∉ cache.byOpener.map Prod.fst := by
  intro member
  obtain ⟨entry, inside, same⟩ := List.mem_map.1 member
  rw [SkipCache.get, List.lookup_eq_none_iff] at absent
  have differ := absent entry inside
  simp [same] at differ

theorem SkipCache.insert_absent (starts ends : List Nat)
    (absent : cache.get openerIdx = none) :
    (cache.insert openerIdx starts ends).slots = cache.slots ++ [⟨starts, ends⟩] ∧
      (cache.insert openerIdx starts ends).byOpener =
        (openerIdx, u32 cache.slots.length) :: cache.byOpener := by
  simp [SkipCache.insert, absent]

theorem SkipCache.get_insert (starts ends : List Nat)
    (absent : cache.get openerIdx = none) (other : Nat) :
    (cache.insert openerIdx starts ends).get other =
      if other = openerIdx then some (u32 cache.slots.length) else cache.get other := by
  simp only [insert, absent]
  by_cases same : other = openerIdx
  · simp [get, same]
  · have differ : (other == openerIdx) = false := by simpa using same
    rw [if_neg same, get, List.lookup_cons, differ]
    rfl

end Insertion

/-! ## Properties of the slots -/

/-- Every slot the cache finds has the property, with the opener it is filed under. -/
structure CacheKeeps (doc : Document) (P : Nat → SkipSlot → Prop) (cache : SkipCache) :
    Prop where
  /-- Slot 0 is reserved. -/
  aligned : cache.slots.length = cache.byOpener.length + 1
  distinct : (cache.byOpener.map Prod.fst).Nodup
  inside : ∀ openerIdx ∈ cache.byOpener.map Prod.fst, openerIdx + 1 < doc.indices.length
  sound : ∀ openerIdx slotN, cache.get openerIdx = some slotN →
    ∃ slot, cache.slots[slotN]? = some slot ∧ P openerIdx slot

section Cache

variable {doc : Document} {P : Nat → SkipSlot → Prop} {cache : SkipCache}

theorem CacheKeeps.new (doc : Document) (P : Nat → SkipSlot → Prop) :
    CacheKeeps doc P SkipCache.new where
  aligned := rfl
  distinct := List.nodup_nil
  inside := by simp [SkipCache.new]
  sound := by simp [SkipCache.new, SkipCache.get]

theorem CacheKeeps.room (keeps : CacheKeeps doc P cache) :
    cache.slots.length ≤ doc.indices.length - 1 + 1 :=
  SkipCache.room_of_distinct keeps.aligned keeps.distinct keeps.inside

theorem CacheKeeps.insert (keeps : CacheKeeps doc P cache)
    (small : doc.indices.length < 2 ^ 32) {openerIdx : Nat} {starts ends : List Nat}
    (bound : openerIdx + 1 < doc.indices.length) (absent : cache.get openerIdx = none)
    (holds : P openerIdx ⟨starts, ends⟩) :
    CacheKeeps doc P (cache.insert openerIdx starts ends) := by
  have room := keeps.room
  have fresh := SkipCache.not_mem_of_get absent
  have get := SkipCache.get_insert starts ends absent
  obtain ⟨slots, openers⟩ := SkipCache.insert_absent starts ends absent
  refine ⟨?_, ?_, ?_, ?_⟩
  · rw [slots, openers, List.length_append, keeps.aligned]
    rfl
  · rw [openers, List.map_cons]
    exact List.nodup_cons.2 ⟨fresh, keeps.distinct⟩
  · rw [openers, List.map_cons]
    rintro other (_ | ⟨_, member⟩)
    · exact bound
    · exact keeps.inside other member
  · intro other slotN cached
    rw [get] at cached
    rw [slots]
    split at cached
    · rename_i same
      obtain rfl := Option.some.inj cached
      refine ⟨⟨starts, ends⟩, ?_, same ▸ holds⟩
      rw [u32_of_lt (by omega)]
      simp
    · obtain ⟨slot, found, old⟩ := keeps.sound other slotN cached
      refine ⟨slot, ?_, old⟩
      rw [List.getElem?_append_left (List.getElem?_eq_some_iff.1 found).1]
      exact found

theorem CacheKeeps.mono {Q : Nat → SkipSlot → Prop} (keeps : CacheKeeps doc P cache)
    (implies : ∀ openerIdx slot, P openerIdx slot → Q openerIdx slot) :
    CacheKeeps doc Q cache where
  aligned := keeps.aligned
  distinct := keeps.distinct
  inside := keeps.inside
  sound openerIdx slotN cached := by
    obtain ⟨slot, found, holds⟩ := keeps.sound openerIdx slotN cached
    exact ⟨slot, found, implies openerIdx slot holds⟩

end Cache

/-! ## The cases of a step -/

section Steps

variable {doc : Document} {cache : SkipCache} {cur : Cursor} {seg : PathSeg}

/-- A step walks the children of a container that the kind of the segment fits, or
fails with a type mismatch. -/
theorem step_cases (doc : Document) (cur : Cursor) (seg : PathSeg) :
    (∀ cache, step doc cache cur seg = (fail .typeMismatch, cache)) ∨
      ∃ b, leadAt doc cur.idxStart = some b ∧ isOpener b = true ∧
        seg.isKey = (b == 0x7B) ∧
        ∀ cache, step doc cache cur seg = walkChildren doc cache cur seg := by
  have opener : containerOpenerByte doc cur =
      (leadAt doc cur.idxStart).bind fun b => if isOpener b then some b else none := by
    unfold containerOpenerByte leadAt
    cases doc.indices[cur.idxStart]? with
    | none => rfl
    | some pos =>
        simp only [Option.bind_some]
        cases doc.buf[pos]? with
        | none => rfl
        | some b => simp [isOpener]
  cases lead : leadAt doc cur.idxStart with
  | none =>
      refine .inl fun cache => ?_
      rw [step, opener, lead]
      rfl
  | some b =>
      rw [lead, Option.bind_some] at opener
      by_cases bracket : isOpener b = true
      · rw [if_pos bracket] at opener
        by_cases object : b = 0x7B
        · subst object
          cases seg with
          | key name => exact .inr ⟨_, rfl, bracket, rfl, fun _ => by rw [step, opener]; rfl⟩
          | idx n =>
              refine .inl fun cache => ?_
              rw [step, opener]
              rfl
        · have flag : decide (b = 0x7B) = false := decide_eq_false object
          cases seg with
          | key name =>
              refine .inl fun cache => ?_
              rw [step, opener]
              simp only [flag]
          | idx n =>
              refine .inr ⟨_, rfl, bracket, ?_, fun cache => ?_⟩
              · simpa [PathSeg.isKey] using object
              · rw [step, opener]
                simp only [flag]
      · rw [if_neg bracket] at opener
        refine .inl fun cache => ?_
        rw [step, opener]

theorem step_of_object (object : leadAt doc cur.idxStart = some 0x7B) (name : Bytes) :
    step doc cache cur (.key name) = walkChildren doc cache cur (.key name) := by
  obtain ⟨pos, found, byte⟩ := Option.bind_eq_some_iff.1 object
  have opener : containerOpenerByte doc cur = some 0x7B := by
    simp [containerOpenerByte, found, byte]
  rw [step, opener]
  rfl

/-- The slow path is taken when the cache finds nothing. -/
theorem walkChildren_cold (cold : cache.get cur.idxStart = none) :
    walkChildren doc cache cur seg =
      match walkUncached doc cur seg.isKey seg with
      | .error fault => (.error fault, cache)
      | .ok (slot, result) =>
          (okOr .notFound result,
            cache.insert cur.idxStart slot.childStarts slot.childEnds) := by
  have unfolded := walkChildren.eq_def doc cache cur seg
  rw [cold] at unfolded
  exact unfolded

theorem walkChildren_warm {slotN : Nat} (warm : cache.get cur.idxStart = some slotN) :
    walkChildren doc cache cur seg =
      (walkCached doc cache slotN seg.isKey seg, cache) := by
  rw [walkChildren, warm]

/-- A step keeps the property of the slots when every slow walk from the cursor stores
a slot that has it. -/
theorem CacheKeeps.step {P : Nat → SkipSlot → Prop} {marks : List Nat}
    (indexed : Indexed doc marks) (keeps : CacheKeeps doc P cache)
    (fills : ∀ b slot result, leadAt doc cur.idxStart = some b → isOpener b = true →
      walkUncached doc cur (b == 0x7B) seg = .ok (slot, result) → P cur.idxStart slot) :
    CacheKeeps doc P (step doc cache cur seg).2 := by
  have room := indexed.room
  have length := indexed.length
  rcases step_cases doc cur seg with mismatch | ⟨b, lead, opener, suits, walks⟩
  · rw [mismatch]
    exact keeps
  · have below := indexed.lt_of_lead lead
    rw [walks]
    cases cached : cache.get cur.idxStart with
    | some slotN =>
        rw [walkChildren_warm cached]
        exact keeps
    | none =>
        rw [walkChildren_cold cached, suits]
        cases walked : walkUncached doc cur (b == 0x7B) seg with
        | error fault => exact keeps
        | ok out =>
            exact keeps.insert (by omega) (by omega) cached
              (fills b out.1 out.2 lead opener walked)

end Steps

/-! ## Along a path -/

section Paths

variable {doc : Document}

theorem parseIdx_le {n m : Nat} {digits : Bytes} (small : n ≤ u32Max)
    (read : parseIdx n digits = some m) : m ≤ u32Max := by
  induction digits generalizing n with
  | nil =>
      obtain rfl := Option.some.inj read
      exact small
  | cons c digits ih =>
      rw [parseIdx] at read
      split at read
      · rename_i fits
        exact ih (by unfold u32Max; omega) read
      · cases read

theorem pathNext_idx_le {path rest : Bytes} {n : Nat}
    (next : pathNext path = some (.ok (.idx n, rest))) : n ≤ u32Max := by
  induction path with
  | nil => cases next
  | cons first path ih =>
      rw [pathNext] at next
      split at next
      · have inner := Option.some.inj next
        unfold nextIdx at inner
        simp only at inner
        split at inner
        · cases inner
        · split at inner
          · cases inner
          · split at inner
            · rename_i read
              cases inner
              exact parseIdx_le (Nat.zero_le _) read
            · cases inner
      · split at next
        · split at next
          · cases next
          · exact ih next
        · simp only at next
          split at next
          · cases next
          · cases Option.some.inj next

theorem resolve_nil (cache : SkipCache) (cur : Cursor) {text : Bytes}
    (ended : pathNext text = none) : resolve doc cache cur text = (.ok cur, cache) := by
  rw [resolve.eq_def]
  split
  · rfl
  · simp_all
  · simp_all

theorem resolve_error (cache : SkipCache) (cur : Cursor) {text : Bytes} {error : QjsonErr}
    (next : pathNext text = some (.error error)) :
    resolve doc cache cur text = (fail error, cache) := by
  rw [resolve.eq_def]
  split <;> simp_all

theorem resolve_seg (cache : SkipCache) (cur : Cursor) {text rest : Bytes} {seg : PathSeg}
    (next : pathNext text = some (.ok (seg, rest))) :
    resolve doc cache cur text =
      match step doc cache cur seg with
      | (.ok next, cache) => resolve doc cache next rest
      | (.error fault, cache) => (.error fault, cache) := by
  rw [resolve.eq_def]
  split
  · simp_all
  · simp_all
  · rename_i seg' rest' next'
    obtain ⟨rfl, rfl⟩ : seg = seg' ∧ rest = rest' := by simpa [next] using next'
    rfl

/-- What every step preserves, a path preserves: `P` holds of the cache and the cursor
at each point, and `Q` of the cache and the error where it ends in one. -/
theorem resolve_induction {P : SkipCache → Cursor → Prop}
    {Q : SkipCache → Fault QjsonErr → Prop}
    (syntax_ : ∀ cache cur error, P cache cur → Q cache (.err error))
    (advance : ∀ cache cur seg next, P cache cur → (∀ n, seg = .idx n → n ≤ u32Max) →
      (step doc cache cur seg).1 = .ok next → P (step doc cache cur seg).2 next)
    (stop : ∀ cache cur seg fault, P cache cur →
      (step doc cache cur seg).1 = .error fault → Q (step doc cache cur seg).2 fault)
    (path : Bytes) {cache : SkipCache} {cur : Cursor} (start : P cache cur) :
    match (resolve doc cache cur path).1 with
    | .ok next => P (resolve doc cache cur path).2 next
    | .error fault => Q (resolve doc cache cur path).2 fault := by
  induction size : path.length using Nat.strongRecOn generalizing path cache cur with
  | ind size ih =>
    subst size
    cases next : pathNext path with
    | none =>
        rw [resolve_nil cache cur next]
        exact start
    | some outcome =>
        cases outcome with
        | error error =>
            rw [resolve_error cache cur next]
            exact syntax_ cache cur error start
        | ok read =>
            obtain ⟨seg, rest⟩ := read
            have segOk : ∀ n, seg = .idx n → n ≤ u32Max := by
              rintro n rfl
              exact pathNext_idx_le next
            rw [resolve_seg cache cur next]
            have here := advance cache cur seg
            have failed := stop cache cur seg
            cases stepped : step doc cache cur seg with
            | mk outcome cache' =>
                rw [stepped] at here failed
                cases outcome with
                | ok child =>
                    exact ih rest.length (pathNext_shorter next) rest
                      (here child start segOk rfl) rfl
                | error fault => exact failed fault start rfl

end Paths

end QJson.Doc
