import QJson.Ffi.Panics
import QJson.Ffi.Proper

/-!
# Which lazily parsed documents make a call panic

An entry that a walk comes to and that the end of the index cuts off is enough:
`qjson_cursor_len` runs into it, or `qjson_cursor_object_entry_at` does.  With the
absence of panics on documents without such entries this settles on which documents
an accessor call can panic.
-/

namespace QJson.Ffi

open Rfc8259 Validate Doc Decode

section Walks

variable {doc : Document} {marks : List Nat} (indexed : Indexed doc marks)
  {isObj : Bool} {stop first : Nat}

/-- `cursor_len` and `nth_object_entry` come to the entry at index `i`. -/
def Comes (doc : Document) (marks : List Nat) (isObj : Bool) (stop first i : Nat) : Prop :=
  ∃ fuel count, marks.length + 1 < i + fuel ∧
    lenLoop doc isObj stop (marks.length + 2) first 0 = lenLoop doc isObj stop fuel i count ∧
    (isObj = true → ∀ n, count ≤ n →
      nthEntryLoop doc stop n (marks.length + 2) first 0 =
        nthEntryLoop doc stop n fuel i count)

include indexed in
/-- The walks come to every entry up to the first one that is cut off. -/
theorem comes_of_crossed {i : Nat} (crossed : Crossed doc isObj stop first i) :
    Comes doc marks isObj stop first i ∨
      ∃ j, Crossed doc isObj stop first j ∧ IsCut doc isObj j ∧
        Comes doc marks isObj stop first j := by
  have room := indexed.room
  induction crossed with
  | first => exact .inl ⟨marks.length + 2, 0, by omega, rfl, fun _ _ _ => rfl⟩
  | @next i span before ok comma within ih =>
      rcases ih with here | cut
      · by_cases cut : IsCut doc isObj i
        · exact .inr ⟨i, before, cut, here⟩
        · left
          obtain ⟨-, -, ahead, bound, -⟩ := (indexed.round cut).of_ok ok
          obtain ⟨fuel, count, enough, len, nth⟩ := here
          obtain ⟨fuel, rfl⟩ : ∃ k, fuel = k + 1 := ⟨fuel - 1, by omega⟩
          obtain ⟨after, afterAt, byte⟩ := Option.bind_eq_some_iff.1 comma
          have real : ¬ doc.buf.length ≤ after := by
            have := (List.getElem?_eq_some_iff.1 byte).1
            omega
          have next : u32 (span.2 + 1) = span.2 + 1 := u32_of_lt (by omega)
          refine ⟨fuel, count + 1, by omega, ?_, fun object n counted => ?_⟩
          · rw [len, lenLoop]
            have ok' : findValueSpan doc (if isObj then u32 (i + 3) else i) = .ok span := ok
            simp only [ok', ok_bind, atIdx_of_getElem? afterAt, if_neg real,
              atIdx_of_getElem? byte, if_true, next]
            rw [if_neg (by omega)]
          · subst object
            rw [nth rfl n (by omega), nthEntryLoop]
            have ok' : findValueSpan doc (u32 (i + 3)) = .ok span := ok
            simp only [ok', ok_bind, atIdx_of_getElem? afterAt, if_neg real,
              atIdx_of_getElem? byte, if_true, next]
            rw [if_neg (by omega), if_neg (by omega)]
      · exact .inr cut

theorem atIdx_panics {ε α : Type} {list : List α} {i : Nat} (beyond : list.length ≤ i) :
    (atIdx list i : Rust ε α) = .error .panic := by
  rw [atIdx, List.getElem?_eq_none beyond]

include indexed in
/-- An entry that is cut off makes one of the two walks panic. -/
theorem panics_of_cut {i : Nat} (crossed : Crossed doc isObj stop first i)
    (cut : IsCut doc isObj i) (begins : first ≤ marks.length) (ends : stop < marks.length)
    (comes : Comes doc marks isObj stop first i) :
    lenLoop doc isObj stop (marks.length + 2) first 0 = .error .panic ∨
      (isObj = true ∧ marks.length ≤ i + 1 ∧ ∃ n value,
        nthEntryLoop doc stop n (marks.length + 2) first 0 = .ok (i, value)) := by
  have room := indexed.room
  have length := indexed.length
  have bound := crossed.le
  obtain ⟨fuel, count, enough, len, nth⟩ := comes
  obtain ⟨fuel, rfl⟩ : ∃ k, fuel = k + 1 := ⟨fuel - 1, by omega⟩
  rcases cut with beyond | ⟨last, quote⟩ | ⟨object, behind, span, ok⟩
  · left
    have panics : findValueSpan doc (valueMarker isObj i) = .error .panic := by
      rw [findValueSpan, atIdx_panics beyond]
      rfl
    have panics' : findValueSpan doc (if isObj then u32 (i + 3) else i) = .error .panic :=
      panics
    rw [len, lenLoop, panics']
    rfl
  · left
    obtain ⟨pos, found, byte⟩ := Option.bind_eq_some_iff.1 quote
    have span : findValueSpan doc (valueMarker isObj i) =
        .ok (valueMarker isObj i + 1, valueMarker isObj i + 2) := by
      rw [findValueSpan, atIdx_of_getElem? found, ok_bind, getOr, byte, okOr_some, ok_bind,
        if_neg (by decide), if_pos rfl, u32_of_lt (by omega), u32_of_lt (by omega)]
    have span' : findValueSpan doc (if isObj then u32 (i + 3) else i) =
        .ok (valueMarker isObj i + 1, valueMarker isObj i + 2) := span
    rw [len, lenLoop, span', ok_bind, atIdx_panics (by rw [last])]
    rfl
  · right
    subst object
    have ok' : findValueSpan doc (u32 (i + 3)) = .ok span := ok
    refine ⟨rfl, by omega, count, ⟨u32 (i + 3), span.1⟩, ?_⟩
    rw [nth rfl count (Nat.le_refl _), nthEntryLoop, ok', ok_bind, if_pos rfl]

end Walks

section Calls

variable {F : Type} {host : Host F} {doc : Document} {marks : List Nat} {m : Machine}
  {cur : Cursor}

/-- On a cursor that is not in order some call panics. -/
theorem exists_panic (indexed : Indexed doc marks) (held : Held doc marks cur) {slot : Nat}
    (holds : m.cursors[slot]? = some cur) (cut : ¬ Uncut doc cur) :
    ∃ access result, m.answer host doc access = some result ∧ result.1 = .error .panic := by
  have room := indexed.room
  have length := indexed.length
  by_contra quiet
  refine cut ⟨fun quote => ?_, fun b lead opener guard i crossed isCut => ?_⟩
  · by_contra last
    obtain ⟨pos, found, byte⟩ := Option.bind_eq_some_iff.1 quote
    have below := indexed.lt_of_lead quote
    have sentinel : doc.indices[cur.idxStart + 1]? = some u32Max := by
      have at_ : cur.idxStart + 1 = marks.length := by omega
      rw [at_, indexed.getElem?_sentinel]
    have outside : slice doc.buf (pos + 1) u32Max = .error .panic := by
      have := indexed.small
      rw [slice, if_neg (by omega)]
    refine quiet ⟨.get (.cursor slot) .getStr [], _, by rw [Machine.answer, holds]; rfl, ?_⟩
    simp [Getter.onCursor_eq, onCursorPath, resolve_empty, reportAt, Getter.read, strAt,
      atIdx_of_getElem? found, byte, u32_of_lt (show cur.idxStart + 1 < 2 ^ 32 by omega),
      atIdx_of_getElem? sentinel, decodeString, outside, mapErr]
  · have below := indexed.lt_of_lead lead
    have stop : cur.idxEnd < marks.length := by
      rcases held with ⟨empty, -⟩ | ⟨-, -, stop⟩
      · rw [empty] at below
        cases below
      · exact stop b lead opener
    obtain ⟨pos, found, byte⟩ := Option.bind_eq_some_iff.1 lead
    have plain : ¬ isRootScalarCursor doc cur = true := by
      intro special
      simp only [isRootScalarCursor, Bool.and_eq_true, beq_iff_eq] at special
      rw [special.2] at length
      simp only [List.length_singleton] at length
      omega
    have next : u32 (cur.idxStart + 1) = cur.idxStart + 1 := u32_of_lt (by omega)
    have flag : decide (b = 0x7B) = (b == 0x7B) := by simp [BEq.beq]
    have notMismatch : ¬ (b ≠ 0x7B ∧ b ≠ 0x5B) := by
      simp only [isOpener, Bool.or_eq_true, beq_iff_eq] at opener
      tauto
    have walks : ∃ j, Crossed doc (b == 0x7B) cur.idxEnd (cur.idxStart + 1) j ∧
        IsCut doc (b == 0x7B) j ∧
        Comes doc marks (b == 0x7B) cur.idxEnd (cur.idxStart + 1) j := by
      rcases comes_of_crossed indexed crossed with here | cut
      · exact ⟨i, crossed, isCut, here⟩
      · exact cut
    obtain ⟨j, crossed', isCut', comes⟩ := walks
    rcases panics_of_cut indexed crossed' isCut' (by omega) stop comes with
      len | ⟨object, behind, n, value, nth⟩
    · have panics : cursorLen doc cur = .error .panic := by
        rw [cursorLen, if_neg plain, atIdx_of_getElem? found, ok_bind, getOr, byte, okOr_some,
          ok_bind, if_neg notMismatch, guard, ok_bind, if_neg (by decide), next, flag, length]
        exact len
      refine quiet ⟨.get (.cursor slot) .len [], _, by rw [Machine.answer, holds]; rfl, ?_⟩
      simp [Getter.onCursor_eq, onCursorPath, resolve_empty, reportAt, Getter.read, panics,
        mapErr]
    · obtain rfl : b = 0x7B := by simpa using object
      have entry : nthObjectEntry doc cur n = .ok (j, value) := by
        rw [nthObjectEntry, if_neg plain, atIdx_of_getElem? found, ok_bind, getOr, byte,
          okOr_some, ok_bind, if_neg (by simp), guard, ok_bind, if_neg (by decide), next,
          length]
        exact nth
      have bound := crossed'.le
      refine quiet ⟨.entryAt slot n, _, by rw [Machine.answer, holds]; rfl, ?_⟩
      have opening : j < doc.indices.length := by omega
      have first := List.getElem?_eq_getElem opening
      rcases Nat.lt_or_ge (j + 1) doc.indices.length with inside | outside
      · have sentinel : doc.indices[j + 1]? = some u32Max := by
          have at_ : j + 1 = marks.length := by omega
          rw [at_, indexed.getElem?_sentinel]
        have outside : slice doc.buf (doc.indices[j] + 1) u32Max = .error .panic := by
          have := indexed.small
          rw [slice, if_neg (by omega)]
        simp [qjsonCursorObjectEntryAt, objectEntryAt, entry, reportAt,
          atIdx_of_getElem? first, u32_of_lt (show j + 1 < 2 ^ 32 by omega),
          atIdx_of_getElem? sentinel, decodeString, outside, mapErr]
      · simp [qjsonCursorObjectEntryAt, objectEntryAt, entry, reportAt,
          atIdx_of_getElem? first, u32_of_lt (show j + 1 < 2 ^ 32 by omega),
          atIdx_panics outside, mapErr]

end Calls

/-! ## On every lazily parsed document -/

/-- No call on a lazily parsed document panics exactly when no cursor that a program
holds leads to an entry that the end of the index cuts off. -/
theorem lazy_access_calm_iff (scanner : ScanPath) (strings : StringPath) {F : Type}
    (std : StdFloat F) (buf : Bytes) (opts : Options) (doc : Document)
    (small : buf.length < 2 ^ 32 - 1) (lazy : opts.isEager = false)
    (parsed : parseWithOptions (dispatch scanner strings) buf opts = .ok doc) :
    (∀ m, Reached ⟨strings.validate, std⟩ doc m → ∀ access result,
        m.answer ⟨strings.validate, std⟩ doc access = some result →
          result.1 ≠ .error .panic) ↔
      ∀ m, Reached ⟨strings.validate, std⟩ doc m → ∀ cur ∈ m.cursors, Uncut doc cur := by
  obtain ⟨spelled, -, indexed⟩ := indexed_of_parse scanner strings small parsed
  constructor
  · intro calm m reached cur member
    by_contra cut
    obtain ⟨slot, holds⟩ := List.getElem?_of_mem member
    have proper := ((preserved_proper indexed).reached reached).2.1 cur member
    obtain ⟨access, result, answered, panicked⟩ :=
      exists_panic indexed (proper.held indexed) holds cut
    exact calm m reached access result answered panicked
  · intro uncut m reached access result answered
    have deferred : doc.eagerValidated = false := by
      rw [spelled]
      exact lazy
    exact calm_true_iff.1 (answer_calm strings.isStringValidator indexed uncut deferred reached
      answered)

theorem lazy_access_calm_iff_nested :
    (∀ m, Reached ⟨StringPath.scalar.validate, unitFloat⟩ (nestedDoc false) m →
        ∀ access result,
          m.answer ⟨StringPath.scalar.validate, unitFloat⟩ (nestedDoc false) access =
            some result → result.1 ≠ .error .panic) ↔
      ∀ m, Reached ⟨StringPath.scalar.validate, unitFloat⟩ (nestedDoc false) m →
        ∀ cur ∈ m.cursors, Uncut (nestedDoc false) cur :=
  lazy_access_calm_iff .scalar .scalar unitFloat nestedText ⟨modeLazy, 0⟩ (nestedDoc false)
    (by decide) (by decide) (by decide +kernel)

/-- `{1}`: the length of the root. -/
theorem not_lazy_access_calm_cut_member :
    ¬ ∀ (scanner : ScanPath) (strings : StringPath) (buf : Bytes) (opts : Options)
      (doc : Document), buf.length < 2 ^ 32 - 1 → opts.isEager = false →
      parseWithOptions (dispatch scanner strings) buf opts = .ok doc →
      ∀ m, Reached ⟨strings.validate, unitFloat⟩ doc m → ∀ access result,
        m.answer ⟨strings.validate, unitFloat⟩ doc access = some result →
          result.1 ≠ .error .panic := by
  intro calm
  have panics : cursorLen ⟨[0x7B, 0x31, 0x7D], [0, 2, u32Max], false⟩ ⟨0, 1⟩ =
      .error .panic := by decide +kernel
  have root : Cursor.root ⟨[0x7B, 0x31, 0x7D], [0, 2, u32Max], false⟩ = ⟨0, 1⟩ := by
    decide +kernel
  refine calm .scalar .scalar [0x7B, 0x31, 0x7D] ⟨modeLazy, 0⟩
    ⟨[0x7B, 0x31, 0x7D], [0, 2, u32Max], false⟩ (by decide) (by decide) (by decide +kernel)
    Machine.start .start (.get .root .len []) _ rfl ?_
  simp [Getter.onRoot_eq, onRootPath, resolve_empty, root, reportAt, Getter.read, panics,
    mapErr]

end QJson.Ffi
