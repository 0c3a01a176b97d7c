import QJson.Rfc8259.Token

/-!
# Outlines of byte strings

A structural scanner sees a byte string as a sequence of plain gaps, structural
characters and quoted strings, whatever the grammar says about it.  This module
gives that view as an induction principle: outside strings a quotation mark
opens one, inside a string a backslash makes the next byte inert and an
unescaped quotation mark closes it.
-/

namespace QJson.Rfc8259

/-- A string interior as a scanner delimits it: no unescaped quotation mark and
no dangling backslash. -/
inductive IsInert : Bytes → Prop where
  | nil : IsInert []
  | escape {c : UInt8} {rest : Bytes} : IsInert rest → IsInert (0x5C :: c :: rest)
  | plain {b : UInt8} {rest : Bytes} : b ≠ 0x5C → b ≠ 0x22 → IsInert rest →
      IsInert (b :: rest)

/-- What follows an opening quotation mark that nothing closes. -/
inductive IsUnclosed : Bytes → Prop where
  | nil : IsUnclosed []
  | dangling : IsUnclosed [0x5C]
  | escape {c : UInt8} {rest : Bytes} : IsUnclosed rest →
      IsUnclosed (0x5C :: c :: rest)
  | plain {b : UInt8} {rest : Bytes} : b ≠ 0x5C → b ≠ 0x22 → IsUnclosed rest →
      IsUnclosed (b :: rest)

theorem IsInert.append {left right : Bytes} (leftInert : IsInert left)
    (rightInert : IsInert right) : IsInert (left ++ right) := by
  induction leftInert with
  | nil => exact rightInert
  | escape _ ih => exact .escape ih
  | plain notSlash notQuote _ ih => exact .plain notSlash notQuote ih

/-- After an opening quotation mark either the closing one follows or the rest
of the text is unclosed. -/
theorem exists_close_or_unclosed (text : Bytes) :
    (∃ body rest, IsInert body ∧ text = body ++ 0x22 :: rest) ∨
      IsUnclosed text := by
  match text with
  | [] => exact .inr .nil
  | b :: rest =>
      by_cases quote : b = 0x22
      · exact .inl ⟨[], rest, .nil, by simp [quote]⟩
      · by_cases slash : b = 0x5C
        · subst slash
          match rest with
          | [] => exact .inr .dangling
          | c :: rest =>
              rcases exists_close_or_unclosed rest with
                ⟨body, tail, inert, rfl⟩ | unclosed
              · exact .inl ⟨0x5C :: c :: body, tail, .escape inert, rfl⟩
              · exact .inr (.escape unclosed)
        · rcases exists_close_or_unclosed rest with
            ⟨body, tail, inert, rfl⟩ | unclosed
          · exact .inl ⟨b :: body, tail, .plain slash quote inert, rfl⟩
          · exact .inr (.plain slash quote unclosed)

/-- Induction along the outline of a text read from outside strings. -/
theorem outline_induction {motive : Bytes → Prop}
    (plain : ∀ gap, IsPlain gap → motive gap)
    (mark : ∀ gap b rest, IsPlain gap → isStructural b = true → motive rest →
      motive (gap ++ b :: rest))
    (string : ∀ gap body rest, IsPlain gap → IsInert body → motive rest →
      motive (gap ++ 0x22 :: (body ++ 0x22 :: rest)))
    (unclosed : ∀ gap body, IsPlain gap → IsUnclosed body →
      motive (gap ++ 0x22 :: body))
    (text : Bytes) : motive text := by
  induction length : text.length using Nat.strong_induction_on generalizing text with
  | _ n ih =>
      subst length
      rcases isPlain_or_exists_mark text with
        isPlain | ⟨gap, b, rest, rfl, gapPlain, isMark⟩
      · exact plain text isPlain
      · by_cases quote : b = 0x22
        · subst quote
          rcases exists_close_or_unclosed rest with
            ⟨body, tail, inert, rfl⟩ | open_
          · exact string gap body tail gapPlain inert
              (ih _ (by simp only [List.length_append, List.length_cons]; omega)
                tail rfl)
          · exact unclosed gap rest gapPlain open_
        · have structural : isStructural b = true := by
            simpa [Rfc8259.isMark, quote] using isMark
          exact mark gap b rest gapPlain structural
            (ih _ (by simp only [List.length_append, List.length_cons]; omega)
              rest rfl)

theorem isMark_of_isStructural {b : UInt8} (structural : isStructural b = true) :
    isMark b = true := by
  simp [isMark, structural]

theorem isStructural_ne_quote {b : UInt8} (structural : isStructural b = true) :
    b ≠ 0x22 := by
  rintro rfl
  exact absurd structural (by decide)

/-! ## Cuts are unique -/

theorem plain_cut {gap gap' rest rest' : Bytes} {b b' : UInt8} (plain : IsPlain gap)
    (plain' : IsPlain gap') (mark : isMark b = true) (mark' : isMark b' = true)
    (same : gap ++ b :: rest = gap' ++ b' :: rest') :
    gap = gap' ∧ b = b' ∧ rest = rest' := by
  have stops {c : UInt8} (isMark_ : isMark c = true) {text : Bytes} :
      ∀ x tail, c :: text = x :: tail → ¬ isMark x = false := by
    rintro x tail spelled noMark
    obtain ⟨rfl, -⟩ := List.cons.inj spelled
    rw [isMark_] at noMark
    cases noMark
  obtain ⟨gaps, tails⟩ := cut_unique plain plain' (stops mark) (stops mark') same
  exact ⟨gaps, List.cons.inj tails⟩

/-- A plain text is not cut at all. -/
theorem not_plain_cut {gap rest : Bytes} {b : UInt8} (mark : isMark b = true) :
    ¬ IsPlain (gap ++ b :: rest) := by
  simp [mark]

theorem inert_cut {body body' rest rest' : Bytes} (inert : IsInert body)
    (inert' : IsInert body') (same : body ++ 0x22 :: rest = body' ++ 0x22 :: rest') :
    body = body' ∧ rest = rest' := by
  induction inert generalizing body' with
  | nil =>
      cases inert' with
      | nil => exact ⟨rfl, (List.cons.inj same).2⟩
      | escape _ => cases (List.cons.inj same).1
      | plain _ notQuote _ => exact absurd (List.cons.inj same).1.symm notQuote
  | escape _ ih =>
      cases inert' with
      | nil => cases (List.cons.inj same).1
      | escape tail' =>
          simp only [List.cons_append, List.cons.injEq, true_and] at same
          obtain ⟨bodies, rests⟩ := ih tail' same.2
          exact ⟨by rw [same.1, bodies], rests⟩
      | plain notSlash _ _ => exact absurd (List.cons.inj same).1.symm notSlash
  | plain notSlash notQuote _ ih =>
      cases inert' with
      | nil => exact absurd (List.cons.inj same).1 notQuote
      | escape _ => exact absurd (List.cons.inj same).1 notSlash
      | plain _ _ tail' =>
          simp only [List.cons_append, List.cons.injEq] at same
          obtain ⟨bodies, rests⟩ := ih tail' same.2
          exact ⟨by rw [same.1, bodies], rests⟩

/-! ## Spans between quotes -/

/-- Bytes that are not backslashes can be taken off an inert body. -/
theorem isInert_of_append {piece rest : Bytes} (calm : ∀ b ∈ piece, b ≠ 0x5C)
    (inert : IsInert (piece ++ rest)) : IsInert rest := by
  induction piece with
  | nil => exact inert
  | cons b piece ih =>
      rw [List.cons_append] at inert
      generalize piece ++ rest = tail at inert ih
      cases inert with
      | escape _ => exact absurd rfl (calm _ (List.mem_cons_self ..))
      | plain _ _ tail =>
          exact ih (fun c member => calm c (List.mem_cons_of_mem b member)) tail

theorem hexVal_ne_none_calm {b : UInt8} {digit : Nat} (hex : hexVal b = some digit) :
    b ≠ 0x5C ∧ b ≠ 0x22 := by
  constructor <;>
  · rintro rfl
    cases hex

theorem calm_of_hexUnit {hex : Bytes} {unit : Nat}
    (spelled : hexUnit hex = some unit) : ∀ b ∈ hex, b ≠ 0x5C ∧ b ≠ 0x22 := by
  match hex, length_of_hexUnit spelled with
  | [a, b, c, d], _ =>
      simp only [hexUnit, Option.bind_eq_bind, Option.bind_eq_some_iff] at spelled
      obtain ⟨_, digitA, _, digitB, _, digitC, _, digitD, -⟩ := spelled
      simp only [List.mem_cons, List.not_mem_nil, or_false, forall_eq_or_imp, forall_eq]
      exact ⟨hexVal_ne_none_calm digitA, hexVal_ne_none_calm digitB,
        hexVal_ne_none_calm digitC, hexVal_ne_none_calm digitD⟩

theorem calm_of_isUtf8Multi {text : Bytes} (multi : IsUtf8Multi text) :
    ∀ b ∈ text, b ≠ 0x5C ∧ b ≠ 0x22 := by
  have high : ∀ b ∈ text, (0x80 : UInt8) ≤ b := by
    cases multi <;>
      simp only [List.mem_cons, List.not_mem_nil, or_false, forall_eq_or_imp,
        forall_eq, IsTail, UInt8.le_iff_toNat_le] at * <;>
      simp at * <;> omega
  intro b member
  have := high b member
  constructor <;>
  · rintro rfl
    exact absurd this (by decide)

/-- A character leaves an inert rest behind, and is not a bare quotation mark. -/
theorem isInert_of_piece {piece rest : Bytes} (valid : IsPiece piece)
    (inert : IsInert (piece ++ rest)) : piece ≠ [0x22] ∧ IsInert rest := by
  cases valid with
  | plain _ _ notSlash =>
      cases inert with
      | escape _ => exact absurd rfl notSlash
      | plain _ notQuote tail => exact ⟨by simpa using notQuote, tail⟩
  | utf8 multi =>
      have calm := calm_of_isUtf8Multi multi
      refine ⟨?_, isInert_of_append (fun b member => (calm b member).1) inert⟩
      rintro rfl
      exact (calm 0x22 (by simp)).2 rfl
  | escape _ =>
      cases inert with
      | escape tail => exact ⟨by simp, tail⟩
      | plain notSlash _ _ => exact absurd rfl notSlash
  | unit spelled _ _ =>
      cases inert with
      | escape tail =>
          refine ⟨by simp, isInert_of_append ?_ tail⟩
          exact fun b member => (calm_of_hexUnit spelled b member).1
      | plain notSlash _ _ => exact absurd rfl notSlash
  | @pair high low _ _ spelledHigh _ spelledLow _ =>
      cases inert with
      | escape tail =>
          have tail : IsInert (high ++ 0x5C :: 0x75 :: (low ++ rest)) := by
            simpa using tail
          have inner := isInert_of_append
            (fun b member => (calm_of_hexUnit spelledHigh b member).1) tail
          cases inner with
          | escape last =>
              refine ⟨by simp, isInert_of_append ?_ last⟩
              exact fun b member => (calm_of_hexUnit spelledLow b member).1
          | plain notSlash _ _ => exact absurd rfl notSlash
      | plain notSlash _ _ => exact absurd rfl notSlash

/-- A valid span that a scanner delimited is a string interior. -/
theorem IsSpan.isBody {text : Bytes} (span : IsSpan text) (inert : IsInert text) :
    IsBody text := by
  induction span with
  | nil => exact .nil
  | cons piece _ ih =>
      obtain ⟨notQuote, tail⟩ := isInert_of_piece piece inert
      exact .cons piece notQuote (ih tail)

theorem isInert_of_calm {text : Bytes} (calm : ∀ b ∈ text, b ≠ 0x5C ∧ b ≠ 0x22) :
    IsInert text := by
  induction text with
  | nil => exact .nil
  | cons b text ih =>
      obtain ⟨notSlash, notQuote⟩ := calm b (List.mem_cons_self ..)
      exact .plain notSlash notQuote
        (ih fun c member => calm c (List.mem_cons_of_mem b member))

/-- A string interior is delimited by the quotation mark after it. -/
theorem IsBody.isInert {text : Bytes} (body : IsBody text) : IsInert text := by
  induction body with
  | nil => exact .nil
  | cons piece notQuote _ ih =>
      refine IsInert.append ?_ ih
      cases piece with
      | plain _ _ notSlash =>
          exact .plain notSlash (fun quote => notQuote (by rw [quote])) .nil
      | utf8 multi => exact isInert_of_calm (calm_of_isUtf8Multi multi)
      | escape _ => exact .escape .nil
      | unit spelled _ _ => exact .escape (isInert_of_calm (calm_of_hexUnit spelled))
      | pair spelledHigh _ spelledLow _ =>
          exact .escape ((isInert_of_calm (calm_of_hexUnit spelledHigh)).append
            (.escape (isInert_of_calm (calm_of_hexUnit spelledLow))))

/-! ## Structural indices -/

/-- A structural index of a text whose first byte stands at position `i`: the
positions of its marks outside strings, quotation marks in adjacent pairs.
After a quotation mark that stands outside strings behind a gap with a
backslash (`stray`) the index is unconstrained: no text of the language has
one. -/
inductive IsIndex : Bytes → Nat → List Nat → Prop where
  | plain {gap : Bytes} {i : Nat} : IsPlain gap → IsIndex gap i []
  | mark {gap : Bytes} {b : UInt8} {rest : Bytes} {i : Nat} {index : List Nat} :
      IsPlain gap → isStructural b = true →
      IsIndex rest (i + gap.length + 1) index →
      IsIndex (gap ++ b :: rest) i ((i + gap.length) :: index)
  | string {gap body rest : Bytes} {i : Nat} {index : List Nat} :
      IsPlain gap → IsInert body →
      IsIndex rest (i + gap.length + 1 + body.length + 1) index →
      IsIndex (gap ++ 0x22 :: (body ++ 0x22 :: rest)) i
        ((i + gap.length) :: (i + gap.length + 1 + body.length) :: index)
  | stray {gap rest : Bytes} {i : Nat} {index : List Nat} :
      IsPlain gap → 0x5C ∈ gap →
      IsIndex (gap ++ 0x22 :: rest) i ((i + gap.length) :: index)

end QJson.Rfc8259
