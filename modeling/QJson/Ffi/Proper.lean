import QJson.Doc.Walked
import QJson.Ffi.Live

/-!
# Where cursors come from

Every cursor that a program holds is the root or carries the span that
`find_value_span` gives for its start, and every slot in the skip cache lists the
entries of such a cursor.  This needs nothing but a sound index, and in particular no
order in the bodies of containers.
-/

namespace QJson.Ffi

open Rfc8259 Validate Doc Decode

/-- The root, or the span of a value behind it. -/
def Proper (doc : Document) (cur : Cursor) : Prop :=
  cur = Cursor.root doc ∨
    0 < cur.idxStart ∧ ∃ after, findValueSpan doc cur.idxStart = .ok (cur.idxEnd, after)

/-- What the cold walk over a container stores. -/
def Stored (doc : Document) (cur : Cursor) (isObj : Bool) (slot : SkipSlot) : Prop :=
  (isEmptyContainer doc cur.idxStart cur.idxEnd = .ok true ∧ slot = slotOfPairs []) ∨
    (isEmptyContainer doc cur.idxStart cur.idxEnd = .ok false ∧
      ∃ pairs, Walked doc isObj cur.idxEnd (doc.indices.length + 1) (u32 (cur.idxStart + 1))
        pairs ∧ slot = slotOfPairs pairs)

/-- The slot of the container whose opener is at an index. -/
def SlotWalked (doc : Document) (openerIdx : Nat) (slot : SkipSlot) : Prop :=
  ∃ cur b, cur.idxStart = openerIdx ∧ Proper doc cur ∧ leadAt doc openerIdx = some b ∧
    isOpener b = true ∧ Stored doc cur (b == 0x7B) slot

theorem zip_slotOfPairs (pairs : List (Nat × Nat)) :
    (slotOfPairs pairs).childStarts.zip (slotOfPairs pairs).childEnds = pairs := by
  rw [slotOfPairs, ← List.unzip_fst, ← List.unzip_snd, List.zip_unzip]

theorem root_idxStart (doc : Document) : (Cursor.root doc).idxStart = 0 := by
  unfold Cursor.root
  split
  · rfl
  · split <;> rfl

/-- There is one cursor for each start. -/
theorem Proper.unique {doc : Document} {cur cur' : Cursor} (proper : Proper doc cur)
    (proper' : Proper doc cur') (same : cur.idxStart = cur'.idxStart) : cur = cur' := by
  have root := root_idxStart doc
  rcases proper with rfl | ⟨positive, after, span⟩
  · rcases proper' with rfl | ⟨positive', -⟩
    · rfl
    · omega
  · rcases proper' with rfl | ⟨-, after', span'⟩
    · omega
    · rw [same] at span
      have spans := Prod.mk.inj (Except.ok.inj (span.symm.trans span'))
      cases cur
      cases cur'
      simp_all

section Values

variable {doc : Document} {marks : List Nat} (indexed : Indexed doc marks)
include indexed

theorem Proper.held {cur : Cursor} (proper : Proper doc cur) : Held doc marks cur := by
  rcases proper with rfl | ⟨-, after, span⟩
  · exact indexed.held_root
  · exact indexed.held_of_span span

/-- A key that can be read has both its quotes in the index. -/
theorem keyBytes_inside {i : Nat} {key : Bytes} (small : i ≤ marks.length)
    (read : keyBytes doc i = .ok key) : i + 1 < marks.length := by
  have room := indexed.room
  obtain ⟨opening, -, read⟩ := bind_eq_ok_iff.1 read
  obtain ⟨closing, second, read⟩ := bind_eq_ok_iff.1 read
  rw [u32_of_lt (by omega)] at second
  rcases indexed.cases (atIdx_eq_ok_iff.1 second) with ⟨below, -⟩ | ⟨-, rfl⟩
  · exact below
  · have outside : ¬ (opening + 1 ≤ u32Max ∧ u32Max ≤ doc.buf.length) := by
      have := indexed.small
      omega
    rw [slice, if_neg outside] at read
    cases read

theorem walked_positive {isObj : Bool} {stop fuel i : Nat} {pairs : List (Nat × Nat)}
    (walked : Walked doc isObj stop fuel i pairs) (positive : 0 < i) :
    ∀ entry ∈ pairs, 0 < entry.1 := by
  have room := indexed.room
  induction walked with
  | done => exact fun _ none => by cases none
  | last =>
      intro entry member
      obtain rfl := List.mem_singleton.1 member
      exact positive
  | more _ _ comma _ ih =>
      have below := indexed.lt_of_lead comma
      rw [u32_of_lt (by omega)] at ih
      intro entry member
      rcases List.mem_cons.1 member with rfl | member
      · exact positive
      · exact ih (Nat.succ_pos _) entry member

/-- A value that a walk crosses, if it is a member then with a key that can be read. -/
theorem proper_of_entry {isObj : Bool} {stop fuel i : Nat} {pairs : List (Nat × Nat)}
    (walked : Walked doc isObj stop fuel i pairs) (positive : 0 < i)
    (inside : stop ≤ marks.length) {entry : Nat × Nat} (member : entry ∈ pairs)
    (read : isObj = true → ∃ key, keyBytes doc entry.1 = .ok key) :
    Proper doc ⟨valueMarker isObj entry.1, entry.2⟩ := by
  have room := indexed.room
  obtain ⟨within, after, span⟩ := walked.entries entry member
  refine .inr ⟨?_, after, span⟩
  have behind := walked_positive indexed walked positive entry member
  cases isObj with
  | false => exact behind
  | true =>
      obtain ⟨key, read⟩ := read rfl
      have quotes := keyBytes_inside indexed (by omega) read
      change 0 < u32 (entry.1 + 3)
      rw [u32_of_lt (by omega)]
      omega

end Values

/-! ## The match that a walk returns -/

section Matches

variable {doc : Document} {isObj : Bool} {seg : PathSeg}

/-- A member that matches has a key that can be read. -/
theorem key_of_childMatches {arrIdx i : Nat}
    (matched : childMatches doc isObj seg arrIdx i = .ok true) (object : isObj = true) :
    ∃ key, keyBytes doc i = .ok key := by
  subst object
  rw [childMatches, if_pos rfl] at matched
  obtain ⟨keyOpen, -, matched⟩ := bind_eq_ok_iff.1 matched
  split at matched
  · cases matched
  · obtain ⟨key, read, -⟩ := bind_eq_ok_iff.1 matched
    exact ⟨key, read⟩

theorem entry_of_coldMatch {next : Cursor} :
    ∀ {pairs : List (Nat × Nat)} {arrIdx : Nat},
      coldMatch doc isObj seg arrIdx none pairs = .ok (some next) →
      ∃ entry ∈ pairs, next = ⟨valueMarker isObj entry.1, entry.2⟩ ∧
        (isObj = true → ∃ key, keyBytes doc entry.1 = .ok key) := by
  intro pairs
  induction pairs with
  | nil => exact fun none => by cases none
  | cons entry pairs ih =>
      intro arrIdx ok
      rw [coldMatch, matchOnce] at ok
      simp only [Option.isNone_none, if_true] at ok
      obtain ⟨matched, check, ok⟩ := bind_eq_ok_iff.1 ok
      cases matched with
      | true =>
          simp only [if_true, coldMatch_some] at ok
          obtain rfl := Option.some.inj (Except.ok.inj ok)
          exact ⟨entry, List.mem_cons_self .., rfl, key_of_childMatches check⟩
      | false =>
          simp only [Bool.false_eq_true, if_false] at ok
          obtain ⟨found, member, rest⟩ := ih ok
          exact ⟨found, List.mem_cons_of_mem _ member, rest⟩

theorem entry_of_known {next : Cursor} :
    ∀ {pairs : List (Nat × Nat)} {k : Nat},
      resolveInKnownChildren doc isObj seg k pairs = .ok next →
      ∃ entry ∈ pairs, next = ⟨valueMarker isObj entry.1, entry.2⟩ ∧
        (isObj = true → ∃ key, keyBytes doc entry.1 = .ok key) := by
  intro pairs
  induction pairs with
  | nil => exact fun none => by cases none
  | cons entry pairs ih =>
      intro k ok
      rw [resolveInKnownChildren] at ok
      have onward {matched : Bool} (read : isObj = true → matched = true →
            ∃ key, keyBytes doc entry.1 = .ok key)
          (ok : (if matched then (.ok ⟨valueMarker isObj entry.1, entry.2⟩ : Rust _ Cursor)
            else resolveInKnownChildren doc isObj seg (k + 1) pairs) = .ok next) :
          ∃ found ∈ entry :: pairs, next = ⟨valueMarker isObj found.1, found.2⟩ ∧
            (isObj = true → ∃ key, keyBytes doc found.1 = .ok key) := by
        split at ok
        · obtain rfl := Except.ok.inj ok
          exact ⟨entry, List.mem_cons_self .., rfl, fun object => read object ‹_›⟩
        · obtain ⟨found, member, rest⟩ := ih ok
          exact ⟨found, List.mem_cons_of_mem _ member, rest⟩
      cases isObj with
      | true =>
          obtain ⟨key, read, ok⟩ := bind_eq_ok_iff.1 ok
          exact onward (fun _ _ => ⟨key, read⟩) ok
      | false => exact @onward (seg == .idx (u32 k)) (fun object => by cases object) ok

/-- What a successful cold walk from a cursor stores and returns. -/
theorem stored_of_walkUncached {cur : Cursor} {slot : SkipSlot} {result : Option Cursor}
    (ok : walkUncached doc cur isObj seg = .ok (slot, result)) :
    Stored doc cur isObj slot ∧
      coldMatch doc isObj seg 0 none (slot.childStarts.zip slot.childEnds) = .ok result := by
  rw [walkUncached] at ok
  obtain ⟨empty, guard, ok⟩ := bind_eq_ok_iff.1 ok
  cases empty with
  | true =>
      simp only [if_true, Except.ok.injEq, Prod.mk.injEq] at ok
      obtain ⟨rfl, rfl⟩ := ok
      exact ⟨.inl ⟨guard, rfl⟩, rfl⟩
  | false =>
      simp only [Bool.false_eq_true, if_false] at ok
      obtain ⟨pairs, walked, spelled, cold⟩ := walked_of_walkLoop ok
      simp only [List.nil_append] at spelled
      obtain rfl : slot = slotOfPairs pairs := spelled
      rw [zip_slotOfPairs]
      exact ⟨.inr ⟨guard, pairs, walked, rfl⟩, cold⟩

end Matches

/-! ## In every program -/

section Steps

variable {doc : Document} {marks : List Nat} (indexed : Indexed doc marks)
include indexed

/-- An entry that is stored for a cursor. -/
theorem proper_of_stored {cur : Cursor} {b : UInt8} {slot : SkipSlot}
    (proper : Proper doc cur) (lead : leadAt doc cur.idxStart = some b)
    (stored : Stored doc cur (b == 0x7B) slot)
    {entry : Nat × Nat} (member : entry ∈ slot.childStarts.zip slot.childEnds)
    (read : (b == 0x7B) = true → ∃ key, keyBytes doc entry.1 = .ok key) :
    Proper doc ⟨valueMarker (b == 0x7B) entry.1, entry.2⟩ := by
  have room := indexed.room
  have below := indexed.lt_of_lead lead
  have inside : cur.idxEnd ≤ marks.length := by
    rcases proper.held indexed with ⟨empty, -⟩ | ⟨-, inside, -⟩
    · rw [empty] at below
      cases below
    · exact inside
  rcases stored with ⟨-, rfl⟩ | ⟨-, pairs, walked, rfl⟩
  · cases member
  · rw [zip_slotOfPairs] at member
    rw [u32_of_lt (by omega)] at walked
    exact proper_of_entry indexed walked (Nat.succ_pos _) inside member read

theorem step_proper {cache : SkipCache} {cur : Cursor} (proper : Proper doc cur)
    (keeps : CacheKeeps doc (SlotWalked doc) cache) (seg : PathSeg) :
    CacheKeeps doc (SlotWalked doc) (step doc cache cur seg).2 ∧
      ∀ next, (step doc cache cur seg).1 = .ok next → Proper doc next := by
  refine ⟨keeps.step indexed fun b slot result lead opener walked =>
    ⟨cur, b, rfl, proper, lead, opener, (stored_of_walkUncached walked).1⟩, ?_⟩
  intro next ok
  rcases step_cases doc cur seg with mismatch | ⟨b, lead, opener, suits, walks⟩
  · rw [mismatch] at ok
    cases ok
  · rw [walks] at ok
    cases cached : cache.get cur.idxStart with
    | some slotN =>
        obtain ⟨slot, found, cur', b', start, proper', lead', opener', stored⟩ :=
          keeps.sound cur.idxStart slotN cached
        obtain rfl := Option.some.inj (lead.symm.trans lead')
        rw [walkChildren_warm cached, walkCached, SkipCache.slot, atIdx_of_getElem? found,
          ok_bind, suits] at ok
        obtain ⟨entry, member, rfl, read⟩ := entry_of_known ok
        rw [← start] at lead
        exact proper_of_stored indexed proper' lead stored member read
    | none =>
        rw [walkChildren_cold cached, suits] at ok
        cases walked : walkUncached doc cur (b == 0x7B) seg with
        | error fault =>
            rw [walked] at ok
            cases ok
        | ok out =>
            obtain ⟨slot, result⟩ := out
            rw [walked] at ok
            obtain ⟨stored, cold⟩ := stored_of_walkUncached walked
            cases result with
            | none => cases ok
            | some found =>
                obtain rfl := Except.ok.inj ok
                obtain ⟨entry, member, rfl, read⟩ := entry_of_coldMatch cold
                exact proper_of_stored indexed proper lead stored member read

omit indexed in
/-- The value of an entry that `nth_object_entry` finds. -/
theorem span_of_nthEntryLoop {stop n : Nat} :
    ∀ {fuel i count : Nat} {entry : Nat × Cursor},
      nthEntryLoop doc stop n fuel i count = .ok entry →
      entry.2.idxStart = u32 (entry.1 + 3) ∧
        ∃ after, findValueSpan doc (u32 (entry.1 + 3)) = .ok (entry.2.idxEnd, after) := by
  intro fuel
  induction fuel with
  | zero =>
      intro i count entry ok
      cases ok
  | succ fuel ih =>
      intro i count entry ok
      rw [nthEntryLoop] at ok
      obtain ⟨span, found, ok⟩ := bind_eq_ok_iff.1 ok
      split at ok
      · obtain rfl := Except.ok.inj ok
        exact ⟨rfl, span.2, found⟩
      · obtain ⟨after, -, ok⟩ := bind_eq_ok_iff.1 ok
        split at ok
        · cases ok
        · obtain ⟨b, -, ok⟩ := bind_eq_ok_iff.1 ok
          split at ok
          · split at ok
            · cases ok
            · exact ih ok
          · split at ok <;> cases ok

omit indexed in
theorem span_of_nthObjectEntry {cur : Cursor} {n : Nat} {entry : Nat × Cursor}
    (ok : nthObjectEntry doc cur n = .ok entry) :
    entry.2.idxStart = u32 (entry.1 + 3) ∧
      ∃ after, findValueSpan doc (u32 (entry.1 + 3)) = .ok (entry.2.idxEnd, after) := by
  rw [nthObjectEntry] at ok
  split at ok
  · cases ok
  · obtain ⟨pos, -, ok⟩ := bind_eq_ok_iff.1 ok
    obtain ⟨b, -, ok⟩ := bind_eq_ok_iff.1 ok
    split at ok
    · cases ok
    · obtain ⟨empty, -, ok⟩ := bind_eq_ok_iff.1 ok
      split at ok
      · cases ok
      · exact span_of_nthEntryLoop ok

variable {F : Type} {host : Host F}

theorem inside_of_decodeString {site : Site} {i opening closing : Nat} {text : Bytes}
    (second : doc.indices[i]? = some closing)
    (ok : decodeString host doc site opening closing = .ok text) : i < marks.length := by
  obtain ⟨span, cut, -⟩ := bind_eq_ok_iff.1 ok
  have cut := reportAt_eq_ok_iff.1 cut
  rcases indexed.cases second with ⟨below, -⟩ | ⟨-, rfl⟩
  · exact below
  · have outside : ¬ (opening + 1 ≤ u32Max ∧ u32Max ≤ doc.buf.length) := by
      have := indexed.small
      omega
    rw [slice, if_neg outside] at cut
    cases cut

theorem objectEntryAt_proper {cur : Cursor} {n : Nat} {out : Bytes × Cursor}
    (ok : objectEntryAt host doc cur n = .ok out) : Proper doc out.2 := by
  have room := indexed.room
  have length := indexed.length
  obtain ⟨entry, found, ok⟩ := bind_eq_ok_iff.1 ok
  obtain ⟨opening, first, ok⟩ := bind_eq_ok_iff.1 ok
  obtain ⟨closing, second, ok⟩ := bind_eq_ok_iff.1 ok
  obtain ⟨key, decoded, ok⟩ := bind_eq_ok_iff.1 ok
  obtain rfl := Except.ok.inj ok
  obtain ⟨start, after, span⟩ :=
    span_of_nthObjectEntry (reportAt_eq_ok_iff.1 found)
  have opens := atIdx_eq_ok_iff.1 (reportAt_eq_ok_iff.1 first)
  have closes := atIdx_eq_ok_iff.1 (reportAt_eq_ok_iff.1 second)
  have small := (List.getElem?_eq_some_iff.1 opens).1
  rw [u32_of_lt (by omega)] at closes
  have inside := inside_of_decodeString indexed closes decoded
  refine .inr ⟨?_, after, start ▸ span⟩
  rw [start, u32_of_lt (by omega)]
  omega

theorem iterNext_proper {it : Iter} {out : Bytes × Cursor × Iter}
    (ok : iterNext host doc it = .ok out) : Proper doc out.2.1 := by
  have room := indexed.room
  have length := indexed.length
  rw [iterNext] at ok
  split at ok
  · cases ok
  · obtain ⟨quotes, key, ok⟩ := bind_eq_ok_iff.1 ok
    obtain ⟨span, found, ok⟩ := bind_eq_ok_iff.1 ok
    obtain ⟨after, -, ok⟩ := bind_eq_ok_iff.1 ok
    obtain ⟨lead, -, ok⟩ := bind_eq_ok_iff.1 ok
    obtain ⟨text, -, ok⟩ := bind_eq_ok_iff.1 ok
    have value : out.2.1 = ⟨u32 (it.idxCurrent + 3), span.1⟩ := by
      split at ok
      · obtain rfl := Except.ok.inj ok
        rfl
      · split at ok
        · obtain rfl := Except.ok.inj ok
          rfl
        · cases ok
    obtain ⟨opening, first, key⟩ := bind_eq_ok_iff.1 key
    obtain ⟨closing, second, key⟩ := bind_eq_ok_iff.1 key
    obtain ⟨colon, third, key⟩ := bind_eq_ok_iff.1 key
    have opens := atIdx_eq_ok_iff.1 (reportAt_eq_ok_iff.1 first)
    have closes := atIdx_eq_ok_iff.1 (reportAt_eq_ok_iff.1 second)
    have colons := atIdx_eq_ok_iff.1 (reportAt_eq_ok_iff.1 third)
    split at key
    · cases key
    · rename_i marked
      simp only [not_or, not_not] at marked
      have small := (List.getElem?_eq_some_iff.1 opens).1
      rw [u32_of_lt (by omega)] at closes
      have inside := indexed.lt_of_byte closes marked.2.1
      rw [u32_of_lt (by omega)] at colons
      have inside' := indexed.lt_of_byte colons marked.2.2
      rw [value]
      refine .inr ⟨?_, span.2, reportAt_eq_ok_iff.1 found⟩
      change 0 < u32 (it.idxCurrent + 3)
      rw [u32_of_lt (by omega)]
      omega

/-- Programs hold no other cursors. -/
theorem preserved_proper : Preserved host doc (CacheKeeps doc (SlotWalked doc)) (Proper doc)
    (fun _ => True) where
  new := CacheKeeps.new doc _
  root := .inl rfl
  step _ _ seg _ keeps proper := step_proper indexed proper keeps seg
  entry _ _ _ _ _ _ ok := objectEntryAt_proper indexed ok
  init _ _ _ _ _ _ := trivial
  next _ _ _ ok := ⟨iterNext_proper indexed ok, trivial⟩

end Steps

end QJson.Ffi
