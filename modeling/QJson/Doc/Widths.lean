import QJson.Doc.Positions
import QJson.Doc.Walked

/-!
# Entries and sums of 32 bits

The index holds positions as `u32` and its last entry is the largest `u32`; cursors are
pairs of `u32` and the walks over children add to them.  Nothing limits the length of a
buffer, so the entries are exact as long as every mark lies in front of byte `2^32 - 1`, and
the sums as long as there are fewer than `2^32 - 2` marks; one document more can pass.
-/

namespace QJson.Doc

open Rfc8259 Validate Scan

/-! ## The statement -/

section Statement

variable (doc : Document)

/-- The walk over the children of a container begins a child at index `i`; `i` is the sum
before the conversion to 32 bits. -/
inductive Visits (isObj : Bool) (cur : Cursor) : Nat → Prop where
  | first : isEmptyContainer doc cur.idxStart cur.idxEnd = .ok false →
      Visits isObj cur (cur.idxStart + 1)
  | next {i : Nat} {span : Nat × Nat} : Visits isObj cur i → u32 i ≤ cur.idxEnd →
      findValueSpan doc (valueMarker isObj (u32 i)) = .ok span →
      leadAt doc span.2 = some 0x2C → Visits isObj cur (span.2 + 1)

/-- The cursors of the document: its root and the children that walks come to. -/
inductive Cursors : Cursor → Prop where
  | root : Cursors (Cursor.root doc)
  | child {cur : Cursor} {b : UInt8} {i : Nat} {span : Nat × Nat} : Cursors cur →
      containerOpenerByte doc cur = some b → Visits doc (b == 0x7B) cur i →
      u32 i ≤ cur.idxEnd → findValueSpan doc (valueMarker (b == 0x7B) (u32 i)) = .ok span →
      Cursors ⟨valueMarker (b == 0x7B) (u32 i), span.1⟩

/-- The sums of `find_value_span` fit into 32 bits. -/
structure SpanFits (start : Nat) : Prop where
  scalar : ∀ b, leadAt doc start = some b → start + 1 < 2 ^ 32
  string : leadAt doc start = some 0x22 → start + 2 < 2 ^ 32
  container : ∀ b, leadAt doc start = some b → isOpener b = true →
    ∀ k, start < k → k < doc.indices.length → k + 1 < 2 ^ 32

/-- No index sum of a cursor computation wraps at 32 bits. -/
structure SumsFit : Prop where
  /-- `n as u32` and `n - 2` of `Cursor::root`. -/
  count : doc.indices.length < 2 ^ 32
  root : doc.indices.head? ≠ some u32Max → doc.indices.length ≠ 1 → 2 ≤ doc.indices.length
  /-- `cur.idx_start + 1` -/
  enter : ∀ cur b, Cursors doc cur → containerOpenerByte doc cur = some b →
    cur.idxStart + 1 < 2 ^ 32
  /-- `skip_end + 1` -/
  visit : ∀ cur b i, Cursors doc cur → containerOpenerByte doc cur = some b →
    Visits doc (b == 0x7B) cur i → i < 2 ^ 32
  /-- `i + 3` -/
  value : ∀ cur i, Cursors doc cur → containerOpenerByte doc cur = some 0x7B →
    Visits doc true cur i → i ≤ cur.idxEnd → i + 3 < 2 ^ 32
  /-- `start + 1`, `start + 2` and `k + 1` -/
  span : ∀ cur b i, Cursors doc cur → containerOpenerByte doc cur = some b →
    Visits doc (b == 0x7B) cur i → i ≤ cur.idxEnd → SpanFits doc (valueMarker (b == 0x7B) i)

/-- The index is exact and so are all computations with it. -/
structure ExactIndex (scanner : ScanPath) : Prop where
  entries : doc.indices = scanner.positions doc.buf ++ [u32Max]
  marks : ∀ i ∈ doc.indices.dropLast, ∃ b, doc.buf[i]? = some b ∧ isMark b = true
  ascends : doc.indices.Pairwise (· < ·)
  sentinel : ∀ i ∈ doc.indices.dropLast, i ≠ u32Max
  sums : SumsFit doc

/-- A member walk of an object comes to the last mark of a document with `2^32 - 2` marks. -/
def WalksToLast : Prop :=
  ∃ cur, Cursors doc cur ∧ containerOpenerByte doc cur = some 0x7B ∧
    Visits doc true cur (2 ^ 32 - 3) ∧ 2 ^ 32 - 3 ≤ cur.idxEnd

/-- The marks lie in front of byte `2^32 - 1`, and there are fewer than `2^32 - 2` of them,
or exactly so many and no member walk comes to the last one. -/
structure Fits (scanner : ScanPath) : Prop where
  before : ∀ p ∈ scanner.positions doc.buf, p < u32Max
  few : (scanner.positions doc.buf).length ≤ 2 ^ 32 - 2
  last : (scanner.positions doc.buf).length = 2 ^ 32 - 2 → ¬ WalksToLast doc

end Statement

/-! ## The slow path -/

section Walk

variable {doc : Document} {isObj : Bool} {cur : Cursor} {seg : PathSeg}

/-- The slow path crosses the children it visits. -/
theorem Visits.of_walked {fuel i raw : Nat} {pairs : List (Nat × Nat)}
    (visits : Visits doc isObj cur raw) (index : u32 raw = i)
    (walked : Walked doc isObj cur.idxEnd fuel i pairs) :
    ∀ pair ∈ pairs, ∃ j span, Visits doc isObj cur j ∧ u32 j ≤ cur.idxEnd ∧
      findValueSpan doc (valueMarker isObj (u32 j)) = .ok span ∧ pair = (u32 j, span.1) := by
  induction walked generalizing raw with
  | done => intro pair member; cases member
  | last within found _ =>
      subst index
      intro pair member
      rw [List.mem_singleton.1 member]
      exact ⟨raw, _, visits, within, found, rfl⟩
  | more within found comma _ ih =>
      subst index
      intro pair member
      rcases List.mem_cons.1 member with rfl | later
      · exact ⟨raw, _, visits, within, found, rfl⟩
      · exact ih (visits.next within found comma) rfl pair later

theorem mem_of_coldMatch {arrIdx : Nat} {result : Option Cursor} {pairs : List (Nat × Nat)}
    {next : Cursor} (ok : coldMatch doc isObj seg arrIdx result pairs = .ok (some next)) :
    result = some next ∨ ∃ pair ∈ pairs, next = ⟨valueMarker isObj pair.1, pair.2⟩ := by
  induction pairs generalizing arrIdx result with
  | nil => exact .inl (Except.ok.inj ok)
  | cons pair pairs ih =>
      obtain ⟨matched, -, ok⟩ := bind_eq_ok_iff.1 ok
      rcases ih ok with here | ⟨other, member, same⟩
      · split at here
        · exact .inr ⟨pair, List.mem_cons_self, (Option.some.inj here).symm⟩
        · exact .inl here
      · exact .inr ⟨other, List.mem_cons_of_mem _ member, same⟩

/-- The child that the slow path finds is a cursor of the document. -/
theorem Cursors.of_walk (cursors : Cursors doc cur) {b : UInt8}
    (opens : containerOpenerByte doc cur = some b) {slot : SkipSlot} {next : Cursor}
    (ok : walkUncached doc cur (b == 0x7B) seg = .ok (slot, some next)) : Cursors doc next := by
  obtain ⟨empty, guard, ok⟩ := bind_eq_ok_iff.1 ok
  cases empty with
  | true => cases ok
  | false =>
      obtain ⟨pairs, walked, -, cold⟩ := walked_of_walkLoop ok
      obtain ⟨pair, member, rfl⟩ := (mem_of_coldMatch cold).resolve_left (by simp)
      obtain ⟨i, span, visits, within, found, rfl⟩ :=
        Visits.of_walked (.first guard) rfl walked pair member
      exact cursors.child opens visits within found

end Walk

/-! ## Spans -/

section Spans

variable {doc : Document} (count : doc.indices.length < 2 ^ 32)
include count

theorem spanLoop_ok {wantClose : UInt8} {list : List Nat} {k : Nat} {depth : Int}
    {span : Nat × Nat} (split : doc.indices.drop k = list)
    (ok : spanLoop doc.buf wantClose k depth list = .ok span) :
    ∃ b, leadAt doc span.1 = some b ∧ (b = 0x7D ∨ b = 0x5D) := by
  induction list generalizing k depth with
  | nil => cases ok
  | cons cbPos rest ih =>
      have here : doc.indices[k]? = some cbPos := by
        rw [← List.head?_drop, split]
        rfl
      have behind : doc.indices.drop (k + 1) = rest := by
        rw [← List.drop_drop, split]
        rfl
      have inside := (List.getElem?_eq_some_iff.1 here).1
      have next : u32 (k + 1) = k + 1 := u32_of_lt (by omega)
      rw [spanLoop, next] at ok
      split at ok
      · cases ok
      · obtain ⟨cb, byte, ok⟩ := bind_eq_ok_iff.1 ok
        split at ok
        · exact ih behind ok
        · split at ok
          · rename_i closer
            split at ok
            · split at ok
              · cases ok
              · cases ok
                refine ⟨cb, ?_, closer⟩
                rw [leadAt, here, Option.bind_some]
                exact atIdx_eq_ok_iff.1 byte
            · exact ih behind ok
          · exact ih behind ok

theorem findValueSpan_ok {v : Nat} {span : Nat × Nat} {b : UInt8}
    (ok : findValueSpan doc v = .ok span) (lead : leadAt doc v = some b)
    (opener : isOpener b = true) : ∃ c, leadAt doc span.1 = some c ∧ (c = 0x7D ∨ c = 0x5D) := by
  obtain ⟨pos, found, byte⟩ := Option.bind_eq_some_iff.1 lead
  have inside := (List.getElem?_eq_some_iff.1 found).1
  rw [findValueSpan, atIdx_of_getElem? found, ok_bind, getOr, byte, okOr_some, ok_bind,
    if_pos (by simpa [isOpener] using opener)] at ok
  exact spanLoop_ok count (by rw [u32_of_lt (by omega)]) ok

end Spans

/-! ## The sums fit -/

/-- An index whose sentinel does not point at a mark. -/
structure Lone (doc : Document) (marks : List Nat) : Prop where
  indices : doc.indices = marks ++ [u32Max]
  few : marks.length ≤ 2 ^ 32 - 2
  real : u32Max ∉ marks
  unmarked : ∀ b, doc.buf[u32Max]? = some b → isMark b = false

section Sums

variable {doc : Document} {marks : List Nat} (lone : Lone doc marks)
include lone

theorem Lone.length : doc.indices.length = marks.length + 1 := by
  rw [lone.indices, List.length_append, List.length_singleton]

theorem Lone.count : doc.indices.length < 2 ^ 32 := by
  have := lone.few
  rw [lone.length]
  omega

omit lone in
theorem lt_of_lead {i : Nat} {b : UInt8} (lead : leadAt doc i = some b) :
    i < doc.indices.length := by
  obtain ⟨pos, found, -⟩ := Option.bind_eq_some_iff.1 lead
  exact (List.getElem?_eq_some_iff.1 found).1

/-- A mark is not the sentinel. -/
theorem Lone.lt_of_mark {i : Nat} {b : UInt8} (lead : leadAt doc i = some b)
    (mark : isMark b = true) : i < marks.length := by
  have inside := lt_of_lead lead
  rw [lone.length] at inside
  by_contra beyond
  obtain rfl : i = marks.length := by omega
  rw [leadAt, lone.indices, List.getElem?_concat_length, Option.bind_some] at lead
  rw [lone.unmarked b lead] at mark
  cases mark

omit lone in
theorem lead_of_opener {cur : Cursor} {b : UInt8}
    (opens : containerOpenerByte doc cur = some b) :
    leadAt doc cur.idxStart = some b ∧ isOpener b = true := by
  unfold containerOpenerByte at opens
  split at opens
  · cases opens
  · rename_i pos found
    split at opens
    · cases opens
    · rename_i c byte
      split at opens
      · rename_i opener
        obtain rfl := Option.some.inj opens
        exact ⟨by rw [leadAt, found, Option.bind_some, byte], by simpa [isOpener] using opener⟩
      · cases opens

omit lone in
theorem isMark_of_isOpener {b : UInt8} (opener : isOpener b = true) : isMark b = true := by
  simp only [isOpener, Bool.or_eq_true, beq_iff_eq] at opener
  rcases opener with rfl | rfl <;> rfl

/-- A container cursor begins and ends at marks. -/
theorem Lone.cursors {cur : Cursor} (cursors : Cursors doc cur) {b : UInt8}
    (opens : containerOpenerByte doc cur = some b) :
    cur.idxStart < marks.length ∧ cur.idxEnd < marks.length := by
  obtain ⟨lead, opener⟩ := lead_of_opener opens
  have begins := lone.lt_of_mark lead (isMark_of_isOpener opener)
  refine ⟨begins, ?_⟩
  cases cursors with
  | root =>
      have some_ : 0 < marks.length := Nat.lt_of_le_of_lt (Nat.zero_le _) begins
      have count := lone.count
      have length := lone.length
      have head : doc.indices.head? ≠ some u32Max := by
        rw [lone.indices, List.head?_append_of_ne_nil _ (List.length_pos_iff.1 some_)]
        exact fun first => lone.real (List.mem_of_head? first)
      have last : u32 (doc.indices.length + 2 ^ 32 - 2) = marks.length - 1 := by
        unfold u32
        omega
      rw [Cursor.root, if_neg head, u32_of_lt count, if_neg (by omega), last]
      exact Nat.sub_lt some_ Nat.one_pos
  | child _ _ _ _ ok =>
      obtain ⟨c, close, closer⟩ := findValueSpan_ok lone.count ok lead opener
      exact lone.lt_of_mark close (by rcases closer with rfl | rfl <;> rfl)

/-- A walk begins children in front of the sentinel. -/
theorem Lone.visits {cur : Cursor} {isObj : Bool} {i : Nat}
    (begins : cur.idxStart < marks.length) (visits : Visits doc isObj cur i) :
    i ≤ marks.length := by
  cases visits with
  | first => exact begins
  | next _ _ _ comma => exact lone.lt_of_mark comma rfl

theorem Lone.spanFits (start : Nat) : SpanFits doc start where
  scalar b lead := by
    have := lt_of_lead lead
    have := lone.count
    omega
  string lead := by
    have := lone.lt_of_mark lead rfl
    have := lone.few
    omega
  container b _ _ k _ inside := by
    have := lone.count
    omega

/-- Without a walk to the last of the largest number of marks, all sums fit. -/
theorem Lone.sumsFit (last : marks.length = 2 ^ 32 - 2 → ¬ WalksToLast doc) : SumsFit doc where
  count := lone.count
  root _ more := by
    have := lone.length
    omega
  enter cur b cursors opens := by
    have := (lone.cursors cursors opens).1
    have := lone.few
    omega
  visit cur b i cursors opens visits := by
    have := lone.visits (lone.cursors cursors opens).1 visits
    have := lone.few
    omega
  value cur i cursors opens visits inside := by
    have few := lone.few
    have ends := (lone.cursors cursors opens).2
    by_contra wraps
    obtain rfl : i = 2 ^ 32 - 3 := by omega
    exact last (by omega) ⟨cur, cursors, opens, visits, inside⟩
  span cur b i _ _ _ _ := lone.spanFits _

end Sums

/-! ## The law -/

section Law

variable {buf : Bytes} {opts : Options} {doc : Document}

/-- On a document that parsing returns the index is exact, and so are all computations with
it, exactly when its marks lie in front of byte `2^32 - 1` and are few enough. -/
theorem exactIndex_iff (scanner : ScanPath) (strings : StringPath)
    (parsed : parseWithOptions (dispatch scanner strings) buf opts = .ok doc) :
    ExactIndex doc scanner ↔ Fits doc scanner := by
  obtain ⟨rfl, scanned⟩ := scanned_of_parse scanner strings parsed
  have out := scanner.out_eq_positions scanned
  have placed := scanner.placed buf
  constructor
  · intro exact_
    have entries := List.append_cancel_right exact_.entries
    have sentinel := exact_.sentinel
    rw [List.dropLast_concat, out] at sentinel
    have count := exact_.sums.count
    simp only [entries, List.length_append, List.length_singleton] at count
    refine ⟨fun p member => ?_, by simp only; omega, fun most walks => ?_⟩
    · have kept : u32 p = p := by
        have same : (scanner.positions buf).map u32 = (scanner.positions buf).map id := by
          rw [List.map_id, ← out, entries]
        exact List.map_inj_left.1 same p member
      have real := sentinel (u32 p) (List.mem_map_of_mem member)
      rw [kept] at real
      have := Nat.mod_lt p (show 0 < 2 ^ 32 by decide)
      unfold u32 at kept
      unfold u32Max at real ⊢
      omega
    · obtain ⟨cur, cursors, opens, visits, inside⟩ := walks
      have fits := exact_.sums.value cur _ cursors opens visits inside
      omega
  · intro fits
    have kept : (scanner.positions buf).map u32 = scanner.positions buf := by
      refine (List.map_congr_left fun p member => ?_).trans (List.map_id _)
      have := fits.before p member
      exact u32_of_lt (by unfold u32Max at this; omega)
    rw [kept] at out
    have lone : Lone ⟨buf, (scanner.scan buf).out ++ [u32Max], opts.isEager⟩
        (scanner.positions buf) := by
      refine ⟨congrArg (· ++ [u32Max]) out, fits.few, fun member => ?_, fun b byte => ?_⟩
      · exact Nat.lt_irrefl _ (fits.before _ member)
      · exact scanner.unmarked_behind scanned fits.before (Nat.le_refl _) byte
    refine ⟨congrArg (· ++ [u32Max]) out, ?_, ?_, ?_, lone.sumsFit fits.last⟩
    · intro i member
      rw [List.dropLast_concat, out] at member
      obtain ⟨k, b, rfl, byte, mark⟩ := placed.mark i member
      exact ⟨b, by rw [Nat.zero_add]; exact byte, mark⟩
    · rw [out]
      refine List.pairwise_append.2 ⟨placed.ascends, List.pairwise_singleton _ _, ?_⟩
      intro p member last isLast
      obtain rfl := List.mem_singleton.1 isLast
      exact fits.before p member
    · intro i member
      rw [List.dropLast_concat, out] at member
      exact Nat.ne_of_lt (fits.before i member)

end Law

theorem exactIndex_iff_nested :
    ExactIndex (nestedDoc true) .scalar ↔ Fits (nestedDoc true) .scalar :=
  @exactIndex_iff nestedText Options.default _ .scalar .scalar (by decide +kernel)

/-- Behind a multiple of `2^32` spaces `{}` is accepted in lazy mode, with entries that wrap. -/
theorem wrapped_of_blank {n : Nat} (long : 2 ≤ n) (zero : u32 n = 0) (one : u32 (n + 1) = 1) :
    parseWithOptions (dispatch .scalar .scalar) (List.replicate n 0x20 ++ [0x7B, 0x7D])
        ⟨modeLazy, 0⟩ =
      .ok ⟨List.replicate n 0x20 ++ [0x7B, 0x7D], [0, 1, u32Max], false⟩ := by
  have plain : IsPlain (List.replicate n 0x20) := fun b member => by
    rw [List.eq_of_mem_replicate member]
    rfl
  have scanned : scanAndValidate (List.replicate n 0x20 ++ [0x7B, 0x7D]) = ⟨[0, 1], .ok ()⟩ := by
    rw [scanAndValidate, scanFrom_plain plain, List.length_replicate]
    simp [scanAndValidateFrom, ScanOut.push, zero, one]
  have blank (i : Nat) (inside : i < n) :
      (atIdx (List.replicate n 0x20 ++ [0x7B, 0x7D]) i : Rust ParseError UInt8) = .ok 0x20 := by
    refine atIdx_of_getElem? ?_
    rw [List.getElem?_append_left (by simpa using inside), List.getElem?_replicate, if_pos inside]
  refine (lazy_ok_iff rfl _).2 ⟨fun isBlank => ?_, congrArg ScanOut.result scanned, ?_, ?_⟩
  · have ink := isBlank 0x7B (List.mem_append_right _ List.mem_cons_self)
    cases ink
  · change validateDepth _ ((scanAndValidate _).out ++ _) _ = _
    rw [scanned]
    simp [validateDepth, depthLoop, blank 0 (by omega), blank 1 (by omega), u32Max]
  · change _ = Document.mk _ ((scanAndValidate _).out ++ _) _
    rw [scanned]
    rfl

/-- There the entries point at spaces. -/
theorem not_exactIndex_of_blank {n : Nat} (long : 2 ≤ n) :
    ¬ ExactIndex ⟨List.replicate n 0x20 ++ [0x7B, 0x7D], [0, 1, u32Max], false⟩ .scalar := by
  intro exact_
  obtain ⟨b, byte, mark⟩ := exact_.marks 0 List.mem_cons_self
  simp only at byte
  rw [List.getElem?_append_left (by rw [List.length_replicate]; omega), List.getElem?_replicate,
    if_pos (by omega)] at byte
  obtain rfl := Option.some.inj byte
  cases mark

/-- 4 GiB of spaces in front of `{}`. -/
theorem not_exactIndex_wide :
    ∃ doc, parseWithOptions (dispatch .scalar .scalar)
        (List.replicate (2 ^ 32) 0x20 ++ [0x7B, 0x7D]) ⟨modeLazy, 0⟩ = .ok doc ∧
      ¬ ExactIndex doc .scalar :=
  have long : 2 ≤ 2 ^ 32 := by decide
  ⟨_, wrapped_of_blank long (by decide) (by decide), not_exactIndex_of_blank long⟩

end QJson.Doc
