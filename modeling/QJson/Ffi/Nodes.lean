import QJson.Doc.Accessors
import QJson.Ffi.Program

/-!
# What the accessors read at a node

Over a document in which a parse tree stands, each accessor is a function of the node
that its cursor denotes and of its place.  Neither the text around the tree nor the
mode of parsing enters into it: what eager parsing has checked, the tree says.
-/

namespace QJson.Ffi

open Rfc8259 Validate Doc Decode

/-! ## Readings of a node -/

/-- What `scalar_bytes` reads: the token of a scalar, and nothing in front of any other
value, where the root has no mark in front of it. -/
def scalarText (place : Place) : Rust QjsonErr Bytes :=
  match place.node with
  | .scalar token => .ok token
  | _ => if place.ix = 0 then fail .parseError else .ok []

/-- What `number_bytes` reads. -/
def numberText (place : Place) : Rust QjsonErr Bytes :=
  if nodeType place.node = .num then scalarText place else fail .typeMismatch

/-- What the body of `qjson_get_bool` reads. -/
def boolOf (bytes : Bytes) : Rust QjsonErr Bool :=
  if bytes = litTrue then .ok true
  else if bytes = litFalse then .ok false
  else fail .typeMismatch

theorem scalarText_shape {place : Place} (valid : place.node.Valid) {bytes : Bytes}
    (ok : scalarText place = .ok bytes) : bytes = [] ∨ IsScalar bytes := by
  unfold scalarText at ok
  split at ok
  · rename_i token spelled
    obtain rfl := Except.ok.inj ok
    rw [spelled] at valid
    exact .inr valid
  · split at ok
    · cases ok
    · exact .inl (Except.ok.inj ok).symm

/-! ## The bytes of a scalar -/

/-- Trailing whitespace is trimmed off a token. -/
theorem trimBack_eq {buf front token after tail : Bytes} {start stop : Nat}
    (text : buf = front ++ (token ++ (after ++ tail))) (at_ : start = front.length)
    (upTo : stop = start + (token ++ after).length) (afterBlank : IsBlank after)
    (ink : ∀ b ∈ token, isWs b = false) :
    trimBack buf start stop = .ok (start + token.length) := by
  have inside : ¬ (start < stop ∧ buf.length < stop) := by
    rw [text]
    simp only [List.length_append] at upTo ⊢
    omega
  have cut : (buf.drop start).take (stop - start) = token ++ after := by
    rw [text, ← List.append_assoc token]
    exact drop_take_append at_ upTo
  have trimmed : (token ++ after).rdropWhile isWs = token := by
    change trimEnd (token ++ after) = token
    rw [trimEnd_append_blank afterBlank]
    rcases List.eq_nil_or_concat token with rfl | ⟨init, last, rfl⟩
    · rfl
    · rw [List.concat_eq_append] at ink ⊢
      exact trimEnd_concat_of_not_isWs (ink last (by simp))
  rw [trimBack, if_neg inside, cut, trimmed]

section Nodes

variable {doc : Document} {tree : Tree} {start : Nat} {path : List Nat} {place : Place}

/-- The root stands in front of every mark, every other node behind one. -/
theorem ix_eq_zero_iff (found : (rootPlace tree start).locate path = some place) :
    place.ix = 0 ↔ path = [] := by
  constructor
  · intro first
    by_contra below
    have := (Place.locate_bounds found).2.2 below
    omega
  · rintro rfl
    rw [Place.locate_nil] at found
    obtain rfl := Option.some.inj found
    rfl

/-- A string or a container starts at a mark. -/
theorem mark_of_other (rep : Stands doc tree start)
    (found : (rootPlace tree start).locate path = some place)
    (other : ∀ token, place.node ≠ .scalar token) :
    ∃ b, doc.indices[place.ix]? = some place.pos ∧ doc.buf[place.pos]? = some b ∧
      (b = 0x22 ∨ b = 0x7B ∨ b = 0x5B) ∧
      (b = 0x22 ↔ ∃ body, place.node = .str body) := by
  have sits := (rep.locate found).1
  cases spelled : place.node with
  | scalar token => exact absurd spelled (other token)
  | str body =>
      obtain ⟨quoteAt, quote, -⟩ := sits.quote spelled
      exact ⟨_, quoteAt, quote, .inl rfl, iff_of_true rfl ⟨body, rfl⟩⟩
  | empty kind blank =>
      obtain ⟨openerAt, opener, -⟩ := @Sits.brackets _ kind _ sits (by rw [spelled]; rfl)
      exact ⟨_, openerAt, opener, .inr (by cases kind <;> simp [Kind.opener]),
        iff_of_false (by cases kind <;> decide) (by simp)⟩
  | node kind entries =>
      obtain ⟨openerAt, opener, -⟩ := @Sits.brackets _ kind _ sits (by rw [spelled]; rfl)
      exact ⟨_, openerAt, opener, .inr (by cases kind <;> simp [Kind.opener]),
        iff_of_false (by cases kind <;> decide) (by simp)⟩

theorem not_special_of_other (rep : Stands doc tree start)
    (found : (rootPlace tree start).locate path = some place)
    (other : ∀ token, place.node ≠ .scalar token) :
    ¬ isRootScalarCursor doc place.cursor = true := by
  intro special
  obtain ⟨token, spelled, -⟩ := (isRootScalarCursor_eq rep found).1 special
  exact other token spelled

theorem scalarByteRange_scalar (rep : Stands doc tree start)
    (found : (rootPlace tree start).locate path = some place) {token : Bytes}
    (spelled : place.node = .scalar token) :
    scalarByteRange doc place.cursor = .ok (place.pos, place.pos + token.length) := by
  have special := isRootScalarCursor_eq rep found
  have valid := (rep.locate found).1.valid
  rw [spelled] at valid
  simp only [Tree.Valid] at valid
  have ink : ∀ b ∈ token, isWs b = false := fun b member => (valid.isInk b member).1
  have range {stop : Nat} (ordered : place.pos ≤ stop)
      (trimmed : trimBack doc.buf place.pos stop = .ok (place.pos + token.length)) :
      (if stop < place.pos then (fail .parseError : Rust QjsonErr (Nat × Nat))
        else trimBack doc.buf place.pos stop >>= fun e => .ok (place.pos, e)) =
        .ok (place.pos, place.pos + token.length) := by
    rw [if_neg (by omega), trimmed]
    rfl
  by_cases root : path = []
  · have flag := special.2 ⟨token, spelled, root⟩
    subst root
    rw [Place.locate_nil] at found
    obtain rfl := Option.some.inj found
    obtain ⟨before, after, beforeBlank, afterBlank, text, at_⟩ := rep.text
    have spelled' : tree = .scalar token := spelled
    rw [spelled'] at text afterBlank
    have begins : rootScalarStart doc = start := by
      rw [rootScalarStart, text, Tree.render, at_]
      exact skipWs_scalar valid beforeBlank
    have stop : doc.buf.length = start + (token ++ after).length := by
      rw [text, at_, Tree.render, List.length_append]
    rw [scalarByteRange]
    simp only [if_pos flag, ok_bind, begins]
    refine range (by rw [stop]; exact Nat.le_add_right _ _)
      (@trimBack_eq _ before token after [] _ _ ?_ at_ stop (afterBlank rfl) ink)
    rw [text, Tree.render, List.append_nil]
  · have flag : ¬ isRootScalarCursor doc place.cursor = true := by
      intro flag
      obtain ⟨-, -, empty⟩ := special.1 flag
      exact root empty
    obtain ⟨-, ⟨empty, -⟩ | ⟨kind, child, sep, p, at_, rfl⟩⟩ := rep.locate found
    · exact absurd empty root
    have value : child.entry.value = .scalar token := spelled
    obtain ⟨more, marks⟩ := at_.drop_ix
    obtain ⟨front, tail, text, begins⟩ := at_.exists_text
    rw [value] at marks text
    have sepAt := getElem?_of_drop marks
    have stop : separator p child.entry.name child.entry.before (.scalar token)
        child.entry.after = child.pos + (token ++ child.entry.after).length := by
      rw [separator, ← at_.pos, Tree.render, List.length_append, Nat.add_assoc]
    have first : child.place.cursor.idxStart = child.ix := rfl
    rw [scalarByteRange]
    simp only [if_neg flag, first, at_.findScalarStart, ok_bind, atIdx_of_getElem? sepAt]
    refine range (by rw [stop]; exact Nat.le_add_right _ _)
      (@trimBack_eq _ front token child.entry.after (sep :: tail) _ _ ?_ begins stop
        at_.afterBlank ink)
    rw [text, Tree.render]

/-- In front of any other value nothing is read. -/
theorem scalarByteRange_other (rep : Stands doc tree start)
    (found : (rootPlace tree start).locate path = some place)
    (other : ∀ token, place.node ≠ .scalar token) :
    scalarByteRange doc place.cursor =
      if place.ix = 0 then fail .parseError else .ok (place.pos, place.pos) := by
  have plain := not_special_of_other rep found other
  obtain ⟨b, markAt, byte, -⟩ := mark_of_other rep found other
  have first : place.cursor.idxStart = place.ix := rfl
  rw [scalarByteRange]
  simp only [if_neg plain, first]
  by_cases root : place.ix = 0
  · rw [if_pos root, findScalarStart, if_pos root]
    rfl
  · have begins : findScalarStart doc place.ix = .ok place.pos := by
      obtain ⟨-, ⟨empty, -⟩ | ⟨kind, child, sep, p, at_, rfl⟩⟩ := rep.locate found
      · exact absurd ((ix_eq_zero_iff found).2 empty) root
      · exact at_.findScalarStart
    rw [if_neg root, begins, ok_bind, atIdx_of_getElem? markAt, ok_bind,
      if_neg (Nat.lt_irrefl _), trimBack, if_neg (by omega)]
    simp

theorem scalarBytes_eq (rep : Stands doc tree start)
    (found : (rootPlace tree start).locate path = some place) :
    scalarBytes doc place.cursor = scalarText place := by
  obtain ⟨front, tail, text, begins⟩ := (rep.locate found).1.text
  by_cases scalar : ∃ token, place.node = .scalar token
  · obtain ⟨token, spelled⟩ := scalar
    rw [spelled, Tree.render] at text
    have inside : place.pos ≤ place.pos + token.length ∧
        place.pos + token.length ≤ doc.buf.length := by
      rw [text]
      simp only [List.length_append]
      omega
    rw [scalarBytes, scalarByteRange_scalar rep found spelled, ok_bind, scalarText, spelled,
      slice, if_pos inside, text]
    exact congrArg Except.ok (drop_take_append begins rfl)
  · have other : ∀ token, place.node ≠ .scalar token := fun token spelled =>
      scalar ⟨token, spelled⟩
    have inside : place.pos ≤ place.pos ∧ place.pos ≤ doc.buf.length := by
      rw [text]
      simp only [List.length_append]
      omega
    have meaning : scalarText place =
        if place.ix = 0 then fail .parseError else .ok [] := by
      unfold scalarText
      split
      · rename_i token spelled
        exact absurd spelled (other token)
      · rfl
    rw [scalarBytes, scalarByteRange_other rep found other, meaning]
    split
    · rfl
    · rw [ok_bind, slice, if_pos inside, Nat.sub_self, List.take_zero]

theorem numberBytes_eq (rep : Stands doc tree start)
    (found : (rootPlace tree start).locate path = some place) :
    numberBytes doc place.cursor = numberText place := by
  rw [numberBytes, typeOf_eq rep found, ok_bind, scalarBytes_eq rep found, numberText]

/-- A decoder that reads scalars alike in both modes reads nodes alike. -/
theorem decode_text {α : Type} {parse : Bytes → Bool → Rust QjsonErr α}
    (alike : ∀ bytes, bytes = [] ∨ IsScalar bytes → parse bytes true = parse bytes false)
    (valid : place.node.Valid) (flag : Bool) :
    (scalarText place >>= fun bytes => parse bytes flag) =
      scalarText place >>= fun bytes => parse bytes false := by
  cases read : scalarText place with
  | error fault => rfl
  | ok bytes =>
      cases flag with
      | false => rfl
      | true => exact alike bytes (scalarText_shape valid read)

theorem decode_number {α : Type} {parse : Bytes → Bool → Rust QjsonErr α}
    (alike : ∀ bytes, bytes = [] ∨ IsScalar bytes → parse bytes true = parse bytes false)
    (valid : place.node.Valid) (flag : Bool) :
    (numberText place >>= fun bytes => parse bytes flag) =
      numberText place >>= fun bytes => parse bytes false := by
  unfold numberText
  split
  · exact decode_text alike valid flag
  · rfl

/-! ## The getters -/

variable {F : Type} {host : Host F} (validator : IsStringValidator host.validateString)

include validator in
/-- The string between the marks of a valid body. -/
theorem decodeString_eq {site : Site} {opening closing : Nat} {body : Bytes}
    (valid : IsBody body) (upTo : closing = opening + 1 + body.length)
    (inside : closing ≤ doc.buf.length)
    (cut : (doc.buf.drop (opening + 1)).take body.length = body) :
    decodeString host doc site opening closing = .ok (bodyText body) := by
  have length : closing - (opening + 1) = body.length := by omega
  rw [decodeString, slice, if_pos ⟨by omega, inside⟩, length, cut,
    show reportAt Site.nowhere (.ok body : Rust QjsonErr Bytes) = .ok body from rfl, ok_bind,
    decodeSpan_body validator valid.isSpan]
  rfl

include validator in
theorem strAt_eq (rep : Stands doc tree start)
    (found : (rootPlace tree start).locate path = some place) :
    strAt host doc place.cursor =
      match place.node with
      | .str body => .ok (bodyText body)
      | _ => reportAt (.value place.cursor) (fail .typeMismatch) := by
  have sits := (rep.locate found).1
  have small := rep.length_indices.2
  have mismatch {pos : Nat} (markAt : doc.indices[place.ix]? = some pos)
      (noQuote : doc.buf[pos]? ≠ some 0x22) : strAt host doc place.cursor =
        reportAt (.value place.cursor) (fail .typeMismatch) := by
    rw [strAt, show place.cursor.idxStart = place.ix from rfl, atIdx_of_getElem? markAt,
      show reportAt Site.nowhere (.ok pos : Rust QjsonErr Nat) = .ok pos from rfl, ok_bind,
      if_pos noQuote]
  by_cases scalar : ∃ token, place.node = .scalar token
  · obtain ⟨token, spelled⟩ := scalar
    rw [spelled]
    by_cases root : path = []
    · subst root
      obtain ⟨sentinel, past⟩ := scalar_root_lead rep found spelled
      exact mismatch sentinel (by rw [past]; simp)
    · obtain ⟨⟨sepPos, sep, sepAt, sepByte, -, -, noQuote⟩, -⟩ :=
        scalar_lead rep found spelled root
      exact mismatch sepAt (by rw [sepByte]; simpa using noQuote)
  · have other : ∀ token, place.node ≠ .scalar token := fun token spelled =>
      scalar ⟨token, spelled⟩
    obtain ⟨b, markAt, byte, -, isString⟩ := mark_of_other rep found other
    cases spelled : place.node with
    | scalar token => exact absurd spelled (other token)
    | str body =>
        obtain ⟨quoteAt, quote, closeAt⟩ := sits.quote spelled
        have valid := sits.valid
        obtain ⟨front, tail, text, begins⟩ := sits.text
        rw [spelled] at valid text
        simp only [Tree.Valid] at valid
        have bound := (List.getElem?_eq_some_iff.1 closeAt).1
        have split : doc.buf = (front ++ [0x22]) ++ (body ++ 0x22 :: tail) := by
          rw [text]
          simp [Tree.render]
        have cut := @drop_take_append (front ++ [0x22]) body (0x22 :: tail) (place.pos + 1)
          (place.pos + 1 + body.length) (by simp [begins]) rfl
        rw [← split, Nat.add_sub_cancel_left] at cut
        have inside : place.pos + 1 + body.length ≤ doc.buf.length := by
          rw [split]
          simp only [List.length_append, List.length_cons, List.length_nil]
          omega
        rw [strAt, show place.cursor.idxStart = place.ix from rfl, atIdx_of_getElem? quoteAt,
          show reportAt Site.nowhere (.ok place.pos : Rust QjsonErr Nat) = .ok place.pos from
            rfl, ok_bind, if_neg (by rw [quote]; simp), u32_of_lt (by omega),
          atIdx_of_getElem? closeAt]
        exact decodeString_eq validator valid rfl inside cut
    | empty kind blank =>
        exact mismatch markAt (by rw [byte]; simpa [spelled] using isString.not)
    | node kind entries =>
        exact mismatch markAt (by rw [byte]; simpa [spelled] using isString.not)

/-! ## Bytes and offsets -/

theorem cursorBytes_eq (rep : Stands doc tree start)
    (found : (rootPlace tree start).locate path = some place) :
    cursorBytes doc place.cursor = .ok (place.pos, place.pos + place.node.render.length) := by
  have sits := (rep.locate found).1
  obtain ⟨front, tail, text, begins⟩ := sits.text
  by_cases scalar : ∃ token, place.node = .scalar token
  · obtain ⟨token, spelled⟩ := scalar
    have range := scalarByteRange_scalar rep found spelled
    have tokenText : place.node.render = token := by rw [spelled, Tree.render]
    rw [cursorBytes, tokenText, range]
    split
    · rfl
    · rename_i plain
      have below : path ≠ [] := fun root =>
        plain ((isRootScalarCursor_eq rep found).2 ⟨token, spelled, root⟩)
      obtain ⟨⟨sepPos, sep, sepAt, sepByte, notObj, notArr, notQuote⟩, -⟩ :=
        scalar_lead rep found spelled below
      rw [show place.cursor.idxStart = place.ix from rfl, atIdx_of_getElem? sepAt, ok_bind,
        getOr, sepByte, okOr_some, ok_bind, if_neg (by tauto)]
  · have other : ∀ token, place.node ≠ .scalar token := fun token spelled =>
      scalar ⟨token, spelled⟩
    have plain := not_special_of_other rep found other
    obtain ⟨b, markAt, byte, lead, -⟩ := mark_of_other rep found other
    have last : doc.indices[place.cursor.idxEnd]? =
          some (place.pos + place.node.render.length - 1) ∧
        0 < place.node.render.length := by
      cases shape : place.node.kind? with
      | some kind =>
          obtain ⟨-, -, closerAt, -⟩ := sits.brackets shape
          refine ⟨closerAt, List.length_pos_iff.2 ?_⟩
          exact place.node.render_ne_nil sits.valid
      | none =>
          cases spelled : place.node with
          | scalar token => exact absurd spelled (other token)
          | str body =>
              obtain ⟨-, -, closeAt⟩ := sits.quote spelled
              have index : place.cursor.idxEnd = place.ix + 1 := by
                simp [Place.cursor, lastIx, spelled, Tree.signs]
              rw [index, closeAt]
              simp only [Tree.render, List.length_cons, List.length_append, List.length_nil]
              exact ⟨congrArg some (by omega), by omega⟩
          | empty kind blank => rw [spelled] at shape; cases shape
          | node kind entries => rw [spelled] at shape; cases shape
    have inside : ¬ doc.buf.length ≤ place.pos + place.node.render.length - 1 := by
      rw [text]
      simp only [List.length_append]
      omega
    have opener : b = 0x7B ∨ b = 0x5B ∨ b = 0x22 := by tauto
    rw [cursorBytes, if_neg plain, show place.cursor.idxStart = place.ix from rfl,
      atIdx_of_getElem? markAt, ok_bind, getOr, byte, okOr_some, ok_bind, if_pos opener,
      atIdx_of_getElem? last.1, ok_bind, if_neg inside]
    congr 2
    omega

theorem cursorValueStartOffset_eq (rep : Stands doc tree start)
    (found : (rootPlace tree start).locate path = some place) :
    cursorValueStartOffset doc place.cursor = some place.pos := by
  by_cases scalar : ∃ token, place.node = .scalar token
  · obtain ⟨token, spelled⟩ := scalar
    by_cases root : path = []
    · have flag := (isRootScalarCursor_eq rep found).2 ⟨token, spelled, root⟩
      subst root
      rw [Place.locate_nil] at found
      obtain rfl := Option.some.inj found
      obtain ⟨before, after, beforeBlank, -, text, at_⟩ := rep.text
      have spelled' : tree = .scalar token := spelled
      have valid := rep.valid
      rw [spelled'] at text valid
      have begins : rootScalarStart doc = start := by
        rw [rootScalarStart, text, Tree.render, at_]
        exact skipWs_scalar valid beforeBlank
      rw [cursorValueStartOffset, if_pos flag, begins]
      rfl
    · have flag : ¬ isRootScalarCursor doc place.cursor = true := by
        intro flag
        obtain ⟨-, -, empty⟩ := (isRootScalarCursor_eq rep found).1 flag
        exact root empty
      obtain ⟨⟨sepPos, sep, sepAt, sepByte, notObj, notArr, notQuote⟩, begins⟩ :=
        scalar_lead rep found spelled root
      rw [cursorValueStartOffset, if_neg flag, show place.cursor.idxStart = place.ix from rfl,
        sepAt]
      simp only [sepByte]
      rw [if_neg (by tauto), begins]
  · have other : ∀ token, place.node ≠ .scalar token := fun token spelled =>
      scalar ⟨token, spelled⟩
    obtain ⟨b, markAt, byte, lead, -⟩ := mark_of_other rep found other
    rw [cursorValueStartOffset, if_neg (not_special_of_other rep found other),
      show place.cursor.idxStart = place.ix from rfl, markAt]
    simp only [byte]
    rw [if_pos lead]

end Nodes

end QJson.Ffi
