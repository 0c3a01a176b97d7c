import QJson.Doc.Lazy
import QJson.Ffi.Proper

/-!
# Transparency of the skip cache

The fast path of `walk_children` checks less than the slow path that filled the slot:
once there was a match, the slow path did not look at the keys behind it, and the fast
path never asks whether a key is a string.  Resolving a path is independent of what was
resolved before exactly when, in every object that a program holds, either the first
member is no member at all or all of them start with a quotation mark.
-/

namespace QJson.Ffi

open Rfc8259 Validate Doc Decode

/-- In the object under the cursor, a first member that starts with a quotation mark is
followed by such members only. -/
def KeysQuoted (doc : Document) (cur : Cursor) : Prop :=
  leadAt doc cur.idxStart = some 0x7B →
    isEmptyContainer doc cur.idxStart cur.idxEnd = .ok false →
    ∀ pairs, Walked doc true cur.idxEnd (doc.indices.length + 1) (u32 (cur.idxStart + 1)) pairs →
      (∃ first, pairs.head? = some first ∧ IsQuoted doc first.1) → MembersQuoted doc pairs

/-- The slot of a container on which both paths agree. -/
def SlotQuoted (doc : Document) (openerIdx : Nat) (slot : SkipSlot) : Prop :=
  SlotWalked doc openerIdx slot ∧
    (leadAt doc openerIdx = some 0x7B →
      MembersQuoted doc (slot.childStarts.zip slot.childEnds))

section Walks

variable {doc : Document} {cur : Cursor} {isObj : Bool} {seg : PathSeg} {slot : SkipSlot}

/-- The cold walk over entries that an earlier one stored. -/
theorem walkUncached_of_stored (stored : Stored doc cur isObj slot) :
    walkUncached doc cur isObj seg =
      coldMatch doc isObj seg 0 none (slot.childStarts.zip slot.childEnds) >>= fun out =>
        .ok (slot, out) := by
  rw [walkUncached]
  rcases stored with ⟨guard, rfl⟩ | ⟨guard, pairs, walked, rfl⟩
  · rw [guard, ok_bind, if_pos rfl]
    rfl
  · rw [guard, ok_bind, if_neg (by decide), walkLoop_of_walked walked, zip_slotOfPairs]
    simp only [List.nil_append]
    rfl

theorem quoted_of_coldMatch {entry : Nat × Nat} {pairs : List (Nat × Nat)} {arrIdx : Nat}
    {result : Option Cursor}
    (ok : coldMatch doc true seg arrIdx none (entry :: pairs) = .ok result) :
    IsQuoted doc entry.1 := by
  rw [coldMatch, matchOnce] at ok
  simp only [Option.isNone_none, if_true] at ok
  obtain ⟨matched, check, -⟩ := bind_eq_ok_iff.1 ok
  rw [childMatches, if_pos rfl] at check
  obtain ⟨keyOpen, found, check⟩ := bind_eq_ok_iff.1 check
  split at check
  · cases check
  · rename_i quote
    rw [IsQuoted, leadAt, atIdx_eq_ok_iff.1 found, Option.bind_some]
    exact not_not.1 quote

/-- A cold walk over an object with its keys quoted stores a slot with its keys quoted. -/
theorem slotQuoted_of_walkUncached {b : UInt8} {result : Option Cursor}
    (proper : Proper doc cur) (quoted : KeysQuoted doc cur)
    (lead : leadAt doc cur.idxStart = some b) (opener : isOpener b = true)
    (ok : walkUncached doc cur (b == 0x7B) seg = .ok (slot, result)) :
    SlotQuoted doc cur.idxStart slot := by
  obtain ⟨stored, cold⟩ := stored_of_walkUncached ok
  refine ⟨⟨cur, b, rfl, proper, lead, opener, stored⟩, fun object => ?_⟩
  obtain rfl := Option.some.inj (lead.symm.trans object)
  rcases stored with ⟨-, rfl⟩ | ⟨guard, pairs, walked, rfl⟩
  · trivial
  · rw [zip_slotOfPairs] at cold ⊢
    cases pairs with
    | nil => trivial
    | cons first pairs =>
        exact quoted object guard _ walked ⟨first, rfl, quoted_of_coldMatch cold⟩

end Walks

/-! ## Keys that are quoted make the cache transparent -/

section Sufficient

variable {doc : Document} {marks : List Nat} (indexed : Indexed doc marks)
include indexed

/-- A step finds the same with a cache as without. -/
theorem step_transparent {cache : SkipCache} {cur : Cursor} (proper : Proper doc cur)
    (quoted : KeysQuoted doc cur) (keeps : CacheKeeps doc (SlotQuoted doc) cache)
    (seg : PathSeg) :
    (step doc cache cur seg).1 = (step doc SkipCache.new cur seg).1 ∧
      CacheKeeps doc (SlotQuoted doc) (step doc cache cur seg).2 := by
  refine ⟨?_, keeps.step indexed fun b slot result lead opener walked =>
    slotQuoted_of_walkUncached proper quoted lead opener walked⟩
  have fresh : SkipCache.new.get cur.idxStart = none := rfl
  rcases step_cases doc cur seg with mismatch | ⟨b, lead, opener, suits, walks⟩
  · rw [mismatch, mismatch]
  · rw [walks, walks, walkChildren_cold fresh]
    cases cached : cache.get cur.idxStart with
    | none =>
        rw [walkChildren_cold cached]
        cases walkUncached doc cur seg.isKey seg <;> rfl
    | some slotN =>
        obtain ⟨slot, found, ⟨cur', b', start, proper', lead', -, stored⟩, members⟩ :=
          keeps.sound cur.idxStart slotN cached
        obtain rfl := proper'.unique proper start
        obtain rfl := Option.some.inj (lead.symm.trans lead')
        rw [walkChildren_warm cached, walkCached, SkipCache.slot, atIdx_of_getElem? found,
          ok_bind, suits, walkUncached_of_stored stored]
        have agree := @cold_eq_warm doc (b == 0x7B) seg
          (slot.childStarts.zip slot.childEnds) (fun object => members (by
            rw [lead, eq_of_beq object])) 0
        rw [show u32 0 = 0 from rfl] at agree
        rw [← agree]
        cases coldMatch doc (b == 0x7B) seg 0 none
          (slot.childStarts.zip slot.childEnds) <;> rfl

variable {F : Type} {host : Host F}
  (quoted : ∀ cache cur, Live host doc cache cur → KeysQuoted doc cur)
include quoted

/-- What holds in every program when the keys are quoted. -/
theorem preserved_quoted : Preserved host doc (CacheKeeps doc (SlotQuoted doc)) (Proper doc)
    (fun _ => True) where
  new := CacheKeeps.new doc _
  root := .inl rfl
  step cache cur seg live keeps proper :=
    ⟨(step_transparent indexed proper (quoted cache cur live) keeps seg).2,
      (step_proper indexed proper (keeps.mono fun _ _ stored => stored.1) seg).2⟩
  entry _ _ _ _ _ _ ok := objectEntryAt_proper indexed ok
  init _ _ _ _ _ _ := trivial
  next _ _ _ ok := ⟨iterNext_proper indexed ok, trivial⟩

/-- A path leads to the same with the cache of a program as with any other cache. -/
theorem resolve_transparent (path : Bytes) {cache cache' : SkipCache} {cur : Cursor}
    (live : Live host doc cache cur) (keeps' : CacheKeeps doc (SlotQuoted doc) cache') :
    (resolve doc cache cur path).1 = (resolve doc cache' cur path).1 := by
  induction size : path.length using Nat.strongRecOn generalizing path cache cache' cur with
  | ind size ih =>
    subst size
    cases next : pathNext path with
    | none => rw [resolve_nil cache cur next, resolve_nil cache' cur next]
    | some outcome =>
        cases outcome with
        | error error => rw [resolve_error cache cur next, resolve_error cache' cur next]
        | ok read =>
            obtain ⟨seg, rest⟩ := read
            have narrow : ∀ n, seg = .idx n → n ≤ u32Max := by
              rintro n rfl
              exact pathNext_idx_le next
            obtain ⟨keeps, proper⟩ := (preserved_quoted indexed quoted).live live
            have here := step_transparent indexed proper (quoted cache cur live) keeps seg
            have there := step_transparent indexed proper (quoted cache cur live) keeps' seg
            have onward (child : Cursor) (stepped : (step doc cache cur seg).1 = .ok child) :=
              ih rest.length (pathNext_shorter next) rest (live.step narrow stepped) there.2 rfl
            have same := here.1.trans there.1.symm
            rw [resolve_seg cache cur next, resolve_seg cache' cur next]
            cases stepped : step doc cache cur seg with
            | mk outcome after =>
                cases stepped' : step doc cache' cur seg with
                | mk outcome' after' =>
                    rw [stepped, stepped'] at onward
                    rw [stepped, stepped'] at same
                    obtain rfl : outcome = outcome' := same
                    cases outcome with
                    | error fault => rfl
                    | ok child => exact onward child rfl

end Sufficient

/-! ## A transparent cache needs them quoted -/

section Necessary

variable {F : Type} {host : Host F} {doc : Document} {marks : List Nat}
  (indexed : Indexed doc marks)

/-- A key is no longer than the text. -/
theorem keyBytes_length {i : Nat} {key : Bytes} (read : keyBytes doc i = .ok key) :
    key.length ≤ doc.buf.length := by
  obtain ⟨opening, -, read⟩ := bind_eq_ok_iff.1 read
  obtain ⟨closing, -, read⟩ := bind_eq_ok_iff.1 read
  rw [slice] at read
  split at read
  · obtain rfl := Except.ok.inj read
    simp only [List.length_take, List.length_drop]
    omega
  · cases read

include indexed in
/-- Looking up the first key of an object leaves a slot in the cache. -/
theorem cached_behind_first {cache : SkipCache} {cur : Cursor} {first : Nat × Nat}
    {pairs : List (Nat × Nat)} {name : Bytes} (live : Live host doc cache cur)
    (object : leadAt doc cur.idxStart = some 0x7B)
    (guard : isEmptyContainer doc cur.idxStart cur.idxEnd = .ok false)
    (walked : Walked doc true cur.idxEnd (doc.indices.length + 1) (u32 (cur.idxStart + 1))
      (first :: pairs))
    (quoted : IsQuoted doc first.1) (read : keyBytes doc first.1 = .ok name) :
    ∃ slotN, (step doc cache cur (.key name)).2.get cur.idxStart = some slotN ∧
      (step doc cache cur (.key name)).2.slots[slotN]? =
        some (slotOfPairs (first :: pairs)) := by
  have stored : Stored doc cur true (slotOfPairs (first :: pairs)) :=
    .inr ⟨guard, _, walked, rfl⟩
  have cold : walkUncached doc cur true (.key name) =
      .ok (slotOfPairs (first :: pairs), some ⟨valueMarker true first.1, first.2⟩) := by
    rw [walkUncached_of_stored stored, zip_slotOfPairs, coldMatch, matchOnce]
    simp only [Option.isNone_none, if_true]
    rw [childMatches_quoted quoted, read]
    simp [coldMatch_some]
  have present : ∃ slotN,
      (step doc cache cur (.key name)).2.get cur.idxStart = some slotN := by
    rw [step_of_object object]
    cases cached : cache.get cur.idxStart with
    | some slotN =>
        rw [walkChildren_warm cached]
        exact ⟨slotN, cached⟩
    | none =>
        rw [walkChildren_cold cached, show PathSeg.isKey (.key name) = true from rfl, cold]
        exact ⟨_, (SkipCache.get_insert _ _ cached _).trans (if_pos rfl)⟩
  obtain ⟨slotN, cached⟩ := present
  refine ⟨slotN, cached, ?_⟩
  obtain ⟨keeps, proper⟩ := (preserved_proper indexed).live (live.stay name)
  obtain ⟨slot, found, cur', b, start, proper', lead, -, stored'⟩ :=
    keeps.sound cur.idxStart slotN cached
  obtain rfl := proper'.unique proper start
  obtain rfl := Option.some.inj (object.symm.trans lead)
  rw [found]
  rcases stored' with ⟨guard', -⟩ | ⟨-, pairs', walked', rfl⟩
  · rw [guard] at guard'
    cases guard'
  · rw [walked.unique walked']

include indexed in
/-- Otherwise looking up a key that is not there tells whether the cache is filled. -/
theorem keysQuoted_of_transparent
    (transparent : ∀ cache cur, Live host doc cache cur → ∀ name,
      (resolveSingleKey doc cache cur name).1 =
        (resolveSingleKey doc SkipCache.new cur name).1)
    {cache : SkipCache} {cur : Cursor} (live : Live host doc cache cur) :
    KeysQuoted doc cur := by
  intro object guard pairs walked head
  by_contra unquoted
  obtain ⟨first, isHead, quoted⟩ := head
  cases pairs with
  | nil => cases isHead
  | cons entry pairs =>
      obtain rfl := Option.some.inj isHead
      have read := unquoted
      rw [MembersQuoted, and_iff_right quoted] at read
      simp only [not_forall] at read
      obtain ⟨known, read, -⟩ := read
      obtain ⟨slotN, cached, found⟩ :=
        cached_behind_first indexed live object guard walked quoted read
      let name : Bytes := List.replicate (doc.buf.length + 1) 0
      have inside : ∀ member ∈ entry :: pairs, member.1 < doc.indices.length := by
        intro member listed
        have below := indexed.lt_of_lead object
        have room := indexed.room
        have length := indexed.length
        obtain ⟨within, -⟩ := walked.entries member listed
        rcases ((preserved_proper indexed).live live).2.held indexed with
          ⟨empty, -⟩ | ⟨-, stop, -⟩
        · rw [empty] at below
          cases below
        · omega
      have fresh : ∀ member ∈ entry :: pairs, keyBytes doc member.1 ≠ .ok name := by
        intro member _ same
        have short := keyBytes_length same
        rw [List.length_replicate] at short
        omega
      have cold : (step doc SkipCache.new cur (.key name)).1 = fail .parseError := by
        rw [step_of_object object, walkChildren_cold rfl,
          show PathSeg.isKey (.key name) = true from rfl,
          walkUncached_of_stored (.inr ⟨guard, _, walked, rfl⟩), zip_slotOfPairs,
          coldMatch_unquoted inside fresh unquoted]
        rfl
      have warm := transparent _ cur (live.stay known) name
      rw [resolveSingleKey, resolveSingleKey, cold, step_of_object object,
        walkChildren_warm cached, walkCached, SkipCache.slot, atIdx_of_getElem? found,
        ok_bind] at warm
      exact resolveInKnownChildren_ne_parseError warm

end Necessary

/-! ## On every document that parsing returns -/

/-- The cache of a parsed document is transparent exactly when every object that a
program holds has its keys quoted. -/
theorem skip_cache_transparent_iff (scanner : ScanPath) (strings : StringPath) {F : Type}
    (std : StdFloat F) (buf : Bytes) (opts : Options) (doc : Document)
    (small : buf.length < 2 ^ 32 - 1)
    (parsed : parseWithOptions (dispatch scanner strings) buf opts = .ok doc) :
    (∀ cache cur, Live ⟨strings.validate, std⟩ doc cache cur →
      (∀ path, (resolve doc cache cur path).1 = (resolve doc SkipCache.new cur path).1) ∧
      (∀ name, (resolveSingleKey doc cache cur name).1 =
        (resolveSingleKey doc SkipCache.new cur name).1) ∧
      ∀ i, (resolveSingleIdx doc cache cur i).1 =
        (resolveSingleIdx doc SkipCache.new cur i).1) ↔
      ∀ cache cur, Live ⟨strings.validate, std⟩ doc cache cur → KeysQuoted doc cur := by
  obtain ⟨-, -, indexed⟩ := indexed_of_parse scanner strings small parsed
  constructor
  · intro transparent cache cur live
    exact keysQuoted_of_transparent indexed
      (fun cache cur live => (transparent cache cur live).2.1) live
  · intro quoted cache cur live
    obtain ⟨keeps, proper⟩ := (preserved_quoted indexed quoted).live live
    have single (seg : PathSeg) :=
      (step_transparent indexed proper (quoted cache cur live) keeps seg).1
    exact ⟨fun path => resolve_transparent indexed quoted path live (CacheKeeps.new doc _),
      fun name => single (.key name), fun i => single (.idx i)⟩

theorem skip_cache_transparent_iff_nested :
    (∀ cache cur, Live ⟨StringPath.scalar.validate, unitFloat⟩ (nestedDoc true) cache cur →
      (∀ path, (resolve (nestedDoc true) cache cur path).1 =
        (resolve (nestedDoc true) SkipCache.new cur path).1) ∧
      (∀ name, (resolveSingleKey (nestedDoc true) cache cur name).1 =
        (resolveSingleKey (nestedDoc true) SkipCache.new cur name).1) ∧
      ∀ i, (resolveSingleIdx (nestedDoc true) cache cur i).1 =
        (resolveSingleIdx (nestedDoc true) SkipCache.new cur i).1) ↔
      ∀ cache cur, Live ⟨StringPath.scalar.validate, unitFloat⟩ (nestedDoc true) cache cur →
        KeysQuoted (nestedDoc true) cur :=
  skip_cache_transparent_iff .scalar .scalar unitFloat nestedText Options.default
    (nestedDoc true) (by decide) (by decide +kernel)

/-- `{"a":1,[]:2}`: the key `b`, before and after the key `a` was looked up. -/
theorem not_skip_cache_transparent_bracket_key :
    ¬ ∀ (scanner : ScanPath) (strings : StringPath) (buf : Bytes) (opts : Options)
      (doc : Document), buf.length < 2 ^ 32 - 1 →
      parseWithOptions (dispatch scanner strings) buf opts = .ok doc →
      ∀ cache cur, Live ⟨strings.validate, unitFloat⟩ doc cache cur → ∀ name,
        (resolveSingleKey doc cache cur name).1 =
          (resolveSingleKey doc SkipCache.new cur name).1 := by
  intro transparent
  let doc : Document :=
    ⟨[0x7B, 0x22, 0x61, 0x22, 0x3A, 0x31, 0x2C, 0x5B, 0x5D, 0x3A, 0x32, 0x7D],
      [0, 1, 3, 4, 6, 7, 8, 9, 11, u32Max], false⟩
  have live := (@Live.root Unit ⟨StringPath.scalar.validate, unitFloat⟩ doc _ .start).stay [0x61]
  have same := transparent .scalar .scalar doc.buf ⟨modeLazy, 0⟩ doc (by decide)
    (by decide +kernel) _ _ live [0x62]
  revert same
  decide +kernel

end QJson.Ffi
