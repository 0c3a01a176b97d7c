import QJson.Doc.Cursor
import QJson.Source.Calm

/-!
# Documents with a sound index

Lazy parsing guarantees little more than that the index lists positions of the text
in ascending order and ends with the sentinel.  This module collects what follows
from that alone: the span of a value lies in the index, and the walks over the
children of a container stay in bounds as long as no entry is cut off at the end of
the index.
-/

namespace QJson.Doc

open Rfc8259 Validate

/-- The index lists positions of the text in ascending order, then the sentinel. -/
structure Indexed (doc : Document) (marks : List Nat) : Prop where
  indices : doc.indices = marks ++ [u32Max]
  ascending : marks.Pairwise (· < ·)
  inside : ∀ pos ∈ marks, pos < doc.buf.length
  small : doc.buf.length < u32Max

/-- The byte that an entry of the index points at. -/
def leadAt (doc : Document) (i : Nat) : Option UInt8 :=
  doc.indices[i]?.bind fun pos => doc.buf[pos]?

/-- The byte opens a container. -/
def isOpener (b : UInt8) : Bool := b == 0x7B || b == 0x5B

/-- `value_idx_start` of a child with its first mark at index `i`. -/
def valueMarker (isObj : Bool) (i : Nat) : Nat := if isObj then u32 (i + 3) else i

/-- A cursor of a value: its start points at a mark, or the document is a scalar, its
end is in the index, and a container ends at a mark. -/
def Held (doc : Document) (marks : List Nat) (cur : Cursor) : Prop :=
  (marks = [] ∧ cur.idxStart = 0) ∨
    (cur.idxStart < marks.length ∧ cur.idxEnd ≤ marks.length ∧
      ∀ b, leadAt doc cur.idxStart = some b → isOpener b = true →
        cur.idxEnd < marks.length)

section Lookup

variable {doc : Document} {marks : List Nat} (indexed : Indexed doc marks) {i j : Nat}
include indexed

theorem Indexed.length : doc.indices.length = marks.length + 1 := by
  rw [indexed.indices, List.length_append, List.length_singleton]

/-- There are no more marks than bytes. -/
theorem Indexed.few : marks.length ≤ doc.buf.length := by
  have subset : marks ⊆ List.range doc.buf.length := fun pos member =>
    List.mem_range.2 (indexed.inside pos member)
  have distinct : marks.Nodup := indexed.ascending.imp Nat.ne_of_lt
  simpa using distinct.length_le_of_subset subset

theorem Indexed.room : marks.length < 2 ^ 32 - 1 :=
  Nat.lt_of_le_of_lt indexed.few indexed.small

theorem Indexed.getElem?_mark (below : i < marks.length) :
    ∃ pos b, doc.indices[i]? = some pos ∧ doc.buf[pos]? = some b := by
  have bound : marks[i] < doc.buf.length := indexed.inside _ (List.getElem_mem below)
  refine ⟨marks[i], doc.buf[marks[i]], ?_, ?_⟩
  · rw [indexed.indices, List.getElem?_append_left below, List.getElem?_eq_getElem below]
  · exact List.getElem?_eq_getElem _

theorem Indexed.getElem?_sentinel : doc.indices[marks.length]? = some u32Max := by
  rw [indexed.indices, List.getElem?_concat_length]

theorem Indexed.past : doc.buf[u32Max]? = none := by
  have := indexed.small
  exact List.getElem?_eq_none (by omega)

theorem Indexed.cases {pos : Nat} (found : doc.indices[i]? = some pos) :
    (i < marks.length ∧ pos < doc.buf.length) ∨ (i = marks.length ∧ pos = u32Max) := by
  have bound := (List.getElem?_eq_some_iff.1 found).1
  rw [indexed.length] at bound
  rcases Nat.lt_or_ge i marks.length with below | above
  · obtain ⟨pos', b, found', byte⟩ := indexed.getElem?_mark below
    obtain rfl := Option.some.inj (found.symm.trans found')
    exact .inl ⟨below, (List.getElem?_eq_some_iff.1 byte).1⟩
  · obtain rfl : i = marks.length := by omega
    exact .inr ⟨rfl, Option.some.inj (found.symm.trans indexed.getElem?_sentinel)⟩

theorem Indexed.lt_of_byte {pos : Nat} {b : UInt8} (found : doc.indices[i]? = some pos)
    (byte : doc.buf[pos]? = some b) : i < marks.length := by
  rcases indexed.cases found with ⟨below, -⟩ | ⟨-, rfl⟩
  · exact below
  · rw [indexed.past] at byte
    cases byte

theorem Indexed.lt_of_lead {b : UInt8} (lead : leadAt doc i = some b) : i < marks.length := by
  obtain ⟨pos, found, byte⟩ := Option.bind_eq_some_iff.1 lead
  exact indexed.lt_of_byte found byte

/-- Entries of the index ascend. -/
theorem Indexed.lt_of_lt {p q : Nat} (before : i < j) (first : doc.indices[i]? = some p)
    (second : doc.indices[j]? = some q) : p < q := by
  have whole : doc.indices.Pairwise (· < ·) := by
    rw [indexed.indices]
    refine List.pairwise_append.2 ⟨indexed.ascending, List.pairwise_singleton _ _, ?_⟩
    intro pos member last isLast
    obtain rfl := List.mem_singleton.1 isLast
    exact (indexed.inside pos member).trans indexed.small
  obtain ⟨small, rfl⟩ := List.getElem?_eq_some_iff.1 first
  obtain ⟨small', rfl⟩ := List.getElem?_eq_some_iff.1 second
  exact List.pairwise_iff_getElem.1 whole i j small small' before

end Lookup

/-! ## The span of a value -/

/-- What the span of a value at mark `v` with the lead byte `b` looks like. -/
def SpanShape (marks : List Nat) (v : Nat) (b : UInt8) (span : Nat × Nat) : Prop :=
  if isOpener b then v < span.1 ∧ span.1 < marks.length ∧ span.2 = span.1 + 1
  else if b = 0x22 then span = (v + 1, v + 2)
  else span = (v + 1, v)

section Spans

variable {doc : Document} {marks : List Nat} (indexed : Indexed doc marks)
include indexed

/-- The brace-counting loop fails or stops at a mark. -/
theorem Indexed.spanLoop {wantClose : UInt8} :
    ∀ {list : List Nat} {k : Nat} {depth : Int}, doc.indices.drop k = list →
      Calm (fun span => k ≤ span.1 ∧ span.1 < marks.length ∧ span.2 = span.1 + 1)
        (spanLoop doc.buf wantClose k depth list) := by
  intro list
  induction list with
  | nil => exact fun _ => trivial
  | cons cbPos rest ih =>
      intro k depth split
      have room := indexed.room
      have here : doc.indices[k]? = some cbPos := by
        rw [← List.head?_drop, split]
        rfl
      have behind : doc.indices.drop (k + 1) = rest := by
        rw [← List.drop_drop, split]
        rfl
      rw [Doc.spanLoop]
      by_cases past : doc.buf.length ≤ cbPos
      · rw [if_pos past]
        trivial
      · have below : k < marks.length := by
          rcases indexed.cases here with ⟨below, -⟩ | ⟨-, rfl⟩
          · exact below
          · exact absurd indexed.small (by omega)
        have next : u32 (k + 1) = k + 1 := u32_of_lt (by omega)
        have deeper (depth : Int) := @ih (k + 1) depth behind
        have onward (depth : Int) : Calm
            (fun span : Nat × Nat => k ≤ span.1 ∧ span.1 < marks.length ∧
              span.2 = span.1 + 1)
            (Doc.spanLoop doc.buf wantClose (k + 1) depth rest) :=
          (deeper depth).mono fun span good => ⟨by omega, good.2⟩
        rw [if_neg past, next]
        refine (calm_atIdx (by omega)).bind fun cb _ => ?_
        split
        · exact onward _
        · split
          · split
            · split
              · trivial
              · exact ⟨Nat.le_refl k, below, rfl⟩
            · exact onward _
          · exact onward _

/-- `find_value_span` panics exactly behind the index. -/
theorem Indexed.findValueSpan {v : Nat} (inside : v ≤ marks.length) :
    Calm (fun span => ∃ b, leadAt doc v = some b ∧ SpanShape marks v b span)
      (findValueSpan doc v) := by
  have room := indexed.room
  rw [Doc.findValueSpan]
  refine (calm_atIdx (by rw [indexed.length]; omega)).bind fun pos found => ?_
  cases byte : doc.buf[pos]? with
  | none =>
      rw [getOr, byte]
      trivial
  | some b =>
      have below := indexed.lt_of_byte found byte
      have lead : leadAt doc v = some b := by rw [leadAt, found, Option.bind_some, byte]
      have next : u32 (v + 1) = v + 1 := u32_of_lt (by omega)
      have next' : u32 (v + 2) = v + 2 := u32_of_lt (by omega)
      rw [getOr, byte, okOr_some, ok_bind, next, next']
      by_cases opener : b = 0x7B ∨ b = 0x5B
      · have flag : isOpener b = true := by simpa [isOpener] using opener
        rw [if_pos opener]
        refine (indexed.spanLoop rfl).mono fun span good => ⟨b, lead, ?_⟩
        rw [SpanShape, if_pos flag]
        exact ⟨by omega, good.2⟩
      · have flag : ¬ isOpener b = true := by simpa [isOpener] using opener
        rw [if_neg opener]
        split
        · rename_i quote
          exact ⟨b, lead, by rw [SpanShape, if_neg flag, if_pos quote]⟩
        · rename_i other
          exact ⟨b, lead, by rw [SpanShape, if_neg flag, if_neg other]⟩

theorem Indexed.span_of_ok {v : Nat} {span : Nat × Nat}
    (ok : Doc.findValueSpan doc v = .ok span) :
    v < marks.length ∧ ∃ b, leadAt doc v = some b ∧ SpanShape marks v b span := by
  have inside : v ≤ marks.length := by
    obtain ⟨pos, found, -⟩ := bind_eq_ok_iff.1 ok
    have bound : v < doc.indices.length := by
      by_contra beyond
      rw [atIdx, List.getElem?_eq_none (by omega)] at found
      cases found
    rw [indexed.length] at bound
    omega
  obtain ⟨b, lead, shape⟩ := (indexed.findValueSpan inside).of_ok ok
  exact ⟨indexed.lt_of_lead lead, b, lead, shape⟩

theorem Indexed.held_of_span {v : Nat} {span : Nat × Nat}
    (ok : Doc.findValueSpan doc v = .ok span) : Held doc marks ⟨v, span.1⟩ := by
  obtain ⟨below, b, lead, shape⟩ := indexed.span_of_ok ok
  have bound : span.1 ≤ marks.length := by
    unfold SpanShape at shape
    split at shape
    · omega
    · split at shape
      · rw [shape]
        exact below
      · rw [shape]
        exact below
  refine .inr ⟨below, bound, fun b' lead' opener => ?_⟩
  obtain rfl := Option.some.inj (lead.symm.trans lead')
  rw [SpanShape, if_pos opener] at shape
  exact shape.2.1

/-- The root cursor ends at the last mark of the buffer. -/
theorem Indexed.root (some_ : 0 < marks.length) :
    Cursor.root doc = ⟨0, marks.length - 1⟩ := by
  have room := indexed.room
  have length := indexed.length
  obtain ⟨pos, b, found, byte⟩ := indexed.getElem?_mark some_
  have real := ne_u32Max_of_getElem? indexed.small byte
  have head : doc.indices.head? ≠ some u32Max := by
    rw [List.head?_eq_getElem?, found]
    simpa using real
  have wide : u32 doc.indices.length = doc.indices.length := u32_of_lt (by omega)
  have last : u32 (doc.indices.length + 2 ^ 32 - 2) = marks.length - 1 := by
    unfold u32
    omega
  rw [Cursor.root, if_neg head, wide, if_neg (by omega), last]

theorem Indexed.held_root : Held doc marks (Cursor.root doc) := by
  by_cases empty : marks = []
  · left
    refine ⟨empty, ?_⟩
    simp [Cursor.root, indexed.indices, empty]
  · have some_ : 0 < marks.length := List.length_pos_iff.2 empty
    rw [indexed.root some_]
    exact .inr ⟨some_, Nat.sub_le _ _, fun _ _ _ => Nat.sub_lt some_ Nat.one_pos⟩

end Spans

end QJson.Doc
