import QJson.Doc.Navigate
import QJson.Doc.Slots

/-!
# Steps, paths and the skip cache

A skip cache is sound for a document when every slot it finds for a container
lists exactly the children of that container.  A step from the cursor of a node
selects the child the tree function selects, whether the slot is cached or not,
and keeps the cache sound; a path is a sequence of steps.
-/

namespace QJson.Doc

open Rfc8259 Validate

/-! ## Matches and the tree function -/

theorem Child.fits_key (want : Bytes) (n : Nat) (child : Child) :
    child.fits (.key want) n = (child.entry.name.map Name.body == some want) := by
  cases named : child.entry.name with
  | none => simp [Child.fits, named]
  | some name =>
      simp only [Child.fits, named, Option.map_some]
      by_cases same : want = name.body
      · simp [same]
      · simp [same, Ne.symm same]

/-- A key picks the first child with that name. -/
theorem pick_key (want : Bytes) (children : List Child) (n : Nat) :
    pick (.key want) n children =
      (children.findIdx? fun child => child.entry.name.map Name.body == some want).bind
        fun i => children[i]? := by
  induction children generalizing n with
  | nil => rfl
  | cons child children ih =>
      rw [pick, Child.fits_key, List.findIdx?_cons]
      split
      · rfl
      · rw [ih]
        cases children.findIdx? _ <;> rfl

/-- An index picks the child with that position. -/
theorem pick_idx {children : List Child}
    (unnamed : ∀ child ∈ children, child.entry.name = none) (want n : Nat) :
    pick (.idx want) n children = if n ≤ want then children[want - n]? else none := by
  induction children generalizing n with
  | nil => simp [pick]
  | cons child children ih =>
      have others := ih (fun child member => unnamed child (List.mem_cons_of_mem _ member))
      have head := unnamed child (List.mem_cons_self ..)
      rw [pick, others]
      simp only [Child.fits, head]
      rcases Nat.lt_trichotomy n want with before | here | after
      · have shift : want - n = (want - (n + 1)) + 1 := by omega
        have differ : (PathSeg.idx want == PathSeg.idx n) = false := by
          simp only [beq_eq_false_iff_ne, ne_eq, PathSeg.idx.injEq]
          omega
        rw [differ, if_neg (by simp), if_pos (by omega), if_pos (by omega), shift,
          List.getElem?_cons_succ]
      · subst here
        simp
      · have differ : (PathSeg.idx want == PathSeg.idx n) = false := by
          simp only [beq_eq_false_iff_ne, ne_eq, PathSeg.idx.injEq]
          omega
        rw [differ, if_neg (by simp), if_neg (by omega), if_neg (by omega)]

/-- The outcome of selecting a child: the child, or the error. -/
def Selects (place : Place) (meaning : Except QjsonErr Nat) (child : Option Child) : Prop :=
  match meaning with
  | .ok i => ∃ found, place.children[i]? = some found ∧ child = some found
  | .error error => error = .notFound ∧ child = none

/-- In a container of the right kind, matching agrees with the tree function. -/
theorem pick_eq_select {place : Place} {kind : Kind}
    (container : place.node.kind? = some kind)
    (names : ∀ child ∈ place.children, nameValid kind child.entry.name) {seg : PathSeg}
    (suits : seg.suits kind) :
    Selects place (select place.node seg) (pick seg 0 place.children) := by
  cases seg with
  | key want =>
      have isObj : kind = .obj := by simpa [PathSeg.suits, PathSeg.isKey] using suits
      subst isObj
      have search : (place.node.children.findIdx? fun entry =>
            entry.name.map Name.body == some want) =
          place.children.findIdx? fun child =>
            child.entry.name.map Name.body == some want := by
        rw [← place.children_map_entry, List.findIdx?_map]
        rfl
      rw [select, if_pos container, search, pick_key]
      cases found : place.children.findIdx? fun child =>
          child.entry.name.map Name.body == some want with
      | none => exact ⟨rfl, rfl⟩
      | some i =>
          obtain ⟨inside, -⟩ := List.findIdx?_eq_some_iff_getElem.1 found
          exact ⟨_, List.getElem?_eq_getElem inside, by simp⟩
  | idx want =>
      have isArr : kind = .arr := by
        cases kind with
        | arr => rfl
        | obj => simp [PathSeg.suits, PathSeg.isKey] at suits
      subst isArr
      have unnamed : ∀ child ∈ place.children, child.entry.name = none := by
        intro child member
        have valid := names child member
        cases named : child.entry.name with
        | none => rfl
        | some name => rw [named] at valid; exact valid.elim
      have length : place.children.length = place.node.children.length := by
        rw [← place.children_map_entry, List.length_map]
      rw [select, if_pos container, pick_idx unnamed, if_pos (Nat.zero_le _), Nat.sub_zero,
        ← length]
      by_cases inside : want < place.children.length
      · rw [if_pos inside]
        exact ⟨_, List.getElem?_eq_getElem inside, List.getElem?_eq_getElem inside⟩
      · rw [if_neg inside]
        exact ⟨rfl, List.getElem?_eq_none (by omega)⟩

/-! ## Sound skip caches -/

/-- Every slot the cache finds lists the children of its container. -/
structure CacheOk (doc : Document) (root : Place) (cache : SkipCache) : Prop where
  /-- Slot 0 is reserved. -/
  aligned : cache.slots.length = cache.byOpener.length + 1
  distinct : (cache.byOpener.map Prod.fst).Nodup
  inside : ∀ openerIdx ∈ cache.byOpener.map Prod.fst, openerIdx + 1 < doc.indices.length
  sound : ∀ path place, root.locate path = some place → ∀ slotN,
    cache.get place.ix = some slotN → cache.slots[slotN]? = some (slotOf place.children)

theorem CacheOk.new (doc : Document) (root : Place) : CacheOk doc root SkipCache.new where
  aligned := rfl
  distinct := List.nodup_nil
  inside := by simp [SkipCache.new]
  sound := by simp [SkipCache.new, SkipCache.get]

/-- Slot numbers do not wrap. -/
theorem CacheOk.room {doc : Document} {root : Place} {cache : SkipCache}
    (ok : CacheOk doc root cache) : cache.slots.length ≤ doc.indices.length - 1 + 1 :=
  SkipCache.room_of_distinct ok.aligned ok.distinct ok.inside

/-- Caching the slot of a container keeps the cache sound. -/
theorem CacheOk.insert {doc : Document} {root place : Place} {cache : SkipCache}
    {path : List Nat} (ok : CacheOk doc root cache)
    (small : doc.indices.length < 2 ^ 32) (found : root.locate path = some place)
    (bound : place.ix + 1 < doc.indices.length) (absent : cache.get place.ix = none) :
    CacheOk doc root (cache.insert place.ix (slotOf place.children).childStarts
      (slotOf place.children).childEnds) := by
  have room := ok.room
  have fresh := SkipCache.not_mem_of_get absent
  have get := SkipCache.get_insert (slotOf place.children).childStarts
    (slotOf place.children).childEnds absent
  obtain ⟨slots, openers⟩ := SkipCache.insert_absent (slotOf place.children).childStarts
    (slotOf place.children).childEnds absent
  refine ⟨?_, ?_, ?_, ?_⟩
  · rw [slots, openers, List.length_append, ok.aligned]
    rfl
  · rw [openers, List.map_cons]
    exact List.nodup_cons.2 ⟨fresh, ok.distinct⟩
  · rw [openers, List.map_cons]
    rintro openerIdx (_ | ⟨_, member⟩)
    · exact bound
    · exact ok.inside openerIdx member
  · intro path' place' found' slotN cached
    rw [get] at cached
    rw [slots]
    by_cases same : place'.ix = place.ix
    · rw [if_pos same] at cached
      obtain rfl := Place.path_unique found' found same
      obtain rfl := Option.some.inj (found'.symm.trans found)
      obtain rfl := Option.some.inj cached
      rw [u32_of_lt (by omega)]
      simp
    · rw [if_neg same] at cached
      have old := ok.sound path' place' found' slotN cached
      rw [List.getElem?_append_left (List.getElem?_eq_some_iff.1 old).1]
      exact old

/-! ## A step -/

section Steps

variable {doc : Document} {tree : Tree} {start : Nat} {path : List Nat} {place : Place}

theorem Sits.children (sits : Sits doc place) {kind : Kind}
    (container : place.node.kind? = some kind) :
    ∀ child ∈ place.children, ∃ sep p, ChildAt doc kind child sep p := by
  intro child member
  by_cases empty : place.node.children = []
  · rw [← place.children_map_entry, List.map_eq_nil_iff] at empty
    rw [empty] at member
    cases member
  · obtain ⟨entries, -, at_, children⟩ := sits.entries_of_container container empty
    rw [children] at member
    exact at_.childAt member

/-- The slow path finds the children and the match. -/
theorem walkUncached_eq (rep : Stands doc tree start)
    (found : (rootPlace tree start).locate path = some place) {kind : Kind}
    (container : place.node.kind? = some kind) {seg : PathSeg} (suits : seg.suits kind) :
    walkUncached doc place.cursor seg.isKey seg =
      .ok (slotOf place.children, (pick seg 0 place.children).map Child.cursor) := by
  have sits := (rep.locate found).1
  have small := rep.length_indices.2
  rw [walkUncached, sits.isEmptyContainer container, ok_bind]
  by_cases empty : place.node.children = []
  · have none : place.children = [] := by
      rw [← List.map_eq_nil_iff (f := Child.entry), place.children_map_entry, empty]
    simp [empty, none, slotOf, pick]
  · obtain ⟨entries, spelled, at_, children⟩ := sits.entries_of_container container empty
    obtain ⟨room, count⟩ := Sits.room rep found spelled
    have next : u32 (place.cursor.idxStart + 1) = place.ix + 1 := u32_of_lt (by
      simp only [Place.cursor]
      omega)
    have walk := @EntriesAt.walkLoop _ _ _ _ _ at_ small _ suits place.cursor.idxEnd
      (doc.indices.length + 1) 0 [] [] none (by omega)
      (by rw [Place.cursor, spelled, lastIx_node]) (by omega)
    rw [if_neg (by simpa using empty), next, walk, children]
    rfl

/-- The fast path finds the same match. -/
theorem walkCached_eq (rep : Stands doc tree start)
    (found : (rootPlace tree start).locate path = some place) {kind : Kind}
    (container : place.node.kind? = some kind) {seg : PathSeg} (suits : seg.suits kind)
    {cache : SkipCache} {slotN : Nat}
    (slot : cache.slots[slotN]? = some (slotOf place.children)) :
    walkCached doc cache slotN seg.isKey seg =
      okOr .notFound ((pick seg 0 place.children).map Child.cursor) := by
  have sits := (rep.locate found).1
  have small := rep.length_indices.2
  have few : place.children.length < 2 ^ 32 := by
    by_cases empty : place.node.children = []
    · have length : place.children.length = place.node.children.length := by
        rw [← place.children_map_entry, List.length_map]
      rw [length, empty]
      decide
    · obtain ⟨entries, spelled, -, children⟩ := sits.entries_of_container container empty
      have := (Sits.room rep found spelled).2
      rw [children, length_entriesChildren]
      omega
  rw [walkCached, SkipCache.slot, atIdx_of_getElem? slot, ok_bind]
  exact resolveInKnownChildren_eq small suits (sits.children container) (by omega)

theorem walkChildren_eq (rep : Stands doc tree start)
    (found : (rootPlace tree start).locate path = some place) {kind : Kind}
    (container : place.node.kind? = some kind) {seg : PathSeg} (suits : seg.suits kind)
    {cache : SkipCache} (ok : CacheOk doc (rootPlace tree start) cache) :
    (walkChildren doc cache place.cursor seg).1 =
        okOr .notFound ((pick seg 0 place.children).map Child.cursor) ∧
      CacheOk doc (rootPlace tree start) (walkChildren doc cache place.cursor seg).2 := by
  have start_ : place.cursor.idxStart = place.ix := rfl
  obtain ⟨-, small⟩ := rep.length_indices
  obtain ⟨-, -, closerAt, last⟩ := (rep.locate found).1.brackets container
  obtain ⟨inner, signs, marks, signsEq, -⟩ := place.node.exists_brackets container 0
  have bound := (List.getElem?_eq_some_iff.1 closerAt).1
  have two : 2 ≤ place.node.signs.length := by simp [signsEq]
  cases cached : cache.get place.ix with
  | some slotN =>
      have slot := ok.sound path place found slotN cached
      simp only [walkChildren, start_, cached]
      exact ⟨walkCached_eq rep found container suits slot, ok⟩
  | none =>
      simp only [walkChildren, start_, cached, walkUncached_eq rep found container suits]
      exact ⟨trivial, ok.insert small found (by omega) cached⟩

theorem step_eq (rep : Stands doc tree start)
    (found : (rootPlace tree start).locate path = some place) (seg : PathSeg)
    {cache : SkipCache} (ok : CacheOk doc (rootPlace tree start) cache) :
    (match select place.node seg with
      | .ok i => ∃ child, place.children[i]? = some child ∧
          (step doc cache place.cursor seg).1 = .ok child.cursor
      | .error error => (step doc cache place.cursor seg).1 = fail error) ∧
      CacheOk doc (rootPlace tree start) (step doc cache place.cursor seg).2 := by
  have lead := containerOpenerByte_eq rep found
  have mismatch (other : place.node.kind? = none ∨
      ∃ kind, place.node.kind? = some kind ∧ ¬ seg.suits kind) :
      select place.node seg = .error .typeMismatch ∧
        step doc cache place.cursor seg = (fail .typeMismatch, cache) := by
    rcases other with leaf | ⟨kind, container, unsuited⟩
    · rw [leaf] at lead
      constructor
      · cases seg <;> simp [select, leaf]
      · rw [step, lead]
        rfl
    · rw [container] at lead
      cases seg <;> cases kind <;>
        simp_all [select, step, Kind.opener, PathSeg.suits, PathSeg.isKey]
  cases shape : place.node.kind? with
  | none =>
      obtain ⟨meaning, stepped⟩ := mismatch (.inl shape)
      rw [meaning, stepped]
      exact ⟨rfl, ok⟩
  | some kind =>
      by_cases suits : seg.suits kind
      · have stepped : step doc cache place.cursor seg =
            walkChildren doc cache place.cursor seg := by
          rw [step, lead, shape]
          cases seg <;> cases kind <;>
            simp_all [Kind.opener, PathSeg.suits, PathSeg.isKey]
        have names : ∀ child ∈ place.children, nameValid kind child.entry.name := by
          intro child member
          obtain ⟨sep, p, at_⟩ := (rep.locate found).1.children shape child member
          exact at_.nameOk
        obtain ⟨result, sound⟩ := walkChildren_eq rep found shape suits ok
        have picked := pick_eq_select shape names suits
        rw [stepped]
        refine ⟨?_, sound⟩
        rw [result]
        cases meaning : select place.node seg with
        | ok i =>
            rw [meaning] at picked
            obtain ⟨child, at_, same⟩ := picked
            exact ⟨child, at_, by rw [same]; rfl⟩
        | error error =>
            rw [meaning] at picked
            obtain ⟨rfl, none⟩ := picked
            rw [none]
            rfl
      · obtain ⟨meaning, stepped⟩ := mismatch (.inr ⟨kind, shape, suits⟩)
        rw [meaning, stepped]
        exact ⟨rfl, ok⟩

theorem Place.locate_child {root : Place} {child : Child} {i : Nat}
    (found : root.locate path = some place) (at_ : place.children[i]? = some child) :
    root.locate (path ++ [i]) = some child.place := by
  rw [locate_append, found, Option.bind_some, locate_cons, at_, Option.bind_some,
    locate_nil]

/-- A step, up to the node its cursor denotes. -/
theorem step_returns (rep : Stands doc tree start)
    (found : (rootPlace tree start).locate path = some place) (seg : PathSeg)
    {cache : SkipCache} (ok : CacheOk doc (rootPlace tree start) cache) :
    Returns (rootPlace tree start) path (step doc cache place.cursor seg).1
      ((select place.node seg).map ([·])) := by
  have stepped := (step_eq rep found seg ok).1
  cases meaning : select place.node seg with
  | ok i =>
      rw [meaning] at stepped
      obtain ⟨child, at_, result⟩ := stepped
      exact ⟨child.cursor, result, child.place, Place.locate_child found at_, rfl⟩
  | error error =>
      rw [meaning] at stepped
      exact stepped

theorem follow_nil (tree : Tree) {text : Bytes} (ended : pathNext text = none) :
    follow tree text = .ok [] := by
  rw [follow.eq_def]
  split <;> simp_all

theorem follow_error (tree : Tree) {text : Bytes} {error : QjsonErr}
    (next : pathNext text = some (.error error)) : follow tree text = .error error := by
  rw [follow.eq_def]
  split <;> simp_all

theorem follow_seg (tree : Tree) {text rest : Bytes} {seg : PathSeg}
    (next : pathNext text = some (.ok (seg, rest))) :
    follow tree text =
      match select tree seg with
      | .error error => .error error
      | .ok i =>
          match tree.children[i]? with
          | none => .error .notFound
          | some entry => (follow entry.value rest).map (i :: ·) := by
  rw [follow.eq_def]
  split
  · simp_all
  · simp_all
  · rename_i seg' rest' next'
    obtain ⟨rfl, rfl⟩ : seg = seg' ∧ rest = rest' := by simpa [next] using next'
    rfl

/-- `resolve` leads where the tree function does. -/
theorem resolve_returns (rep : Stands doc tree start) (text : Bytes)
    (found : (rootPlace tree start).locate path = some place)
    {cache : SkipCache} (ok : CacheOk doc (rootPlace tree start) cache) :
    Returns (rootPlace tree start) path (resolve doc cache place.cursor text).1
        (follow place.node text) ∧
      CacheOk doc (rootPlace tree start) (resolve doc cache place.cursor text).2 := by
  induction size : text.length using Nat.strongRecOn generalizing text path place cache with
  | ind size ih =>
    subst size
    cases next : pathNext text with
    | none =>
        rw [resolve_nil cache place.cursor next, follow_nil place.node next]
        exact ⟨⟨_, rfl, place, by rw [List.append_nil]; exact found, rfl⟩, ok⟩
    | some outcome =>
        cases outcome with
        | error error =>
            rw [resolve_error cache place.cursor next, follow_error place.node next]
            exact ⟨rfl, ok⟩
        | ok read =>
            obtain ⟨seg, rest⟩ := read
            obtain ⟨stepped, sound⟩ := step_eq rep found seg ok
            rw [resolve_seg cache place.cursor next, follow_seg place.node next]
            cases result : step doc cache place.cursor seg with
            | mk outcome cache' =>
                rw [result] at stepped sound
                cases meaning : select place.node seg with
                | error error =>
                    rw [meaning] at stepped
                    obtain rfl := stepped
                    exact ⟨rfl, sound⟩
                | ok i =>
                    rw [meaning] at stepped
                    obtain ⟨child, at_, rfl⟩ := stepped
                    have entry : place.node.children[i]? = some child.entry := by
                      rw [← place.children_map_entry, List.getElem?_map, at_]
                      rfl
                    have deeper := ih rest.length (pathNext_shorter next) rest
                      (Place.locate_child found at_) sound rfl
                    simp only [entry]
                    refine ⟨?_, deeper.2⟩
                    have reached := deeper.1
                    simp only [Child.place] at reached
                    cases target : follow child.entry.value rest with
                    | error error =>
                        rw [target] at reached
                        exact reached
                    | ok below =>
                        rw [target] at reached
                        obtain ⟨cur, result, denotes⟩ := reached
                        refine ⟨cur, result, ?_⟩
                        rw [List.append_assoc] at denotes
                        exact denotes

end Steps

end QJson.Doc
