import QJson.Doc.Bounds

/-!
# Walks over malformed containers

In a lazily parsed document a container may hold anything between its brackets.  A
walk takes the index of an entry to be its key, and the mark three entries further on
to be its value.  It stays in bounds unless it comes to an entry whose value would lie
behind the index (`IsCut`).
-/

namespace QJson.Doc

open Rfc8259 Validate

/-- The entries that a walk from the entry `first` comes to. -/
inductive Crossed (doc : Document) (isObj : Bool) (stop first : Nat) : Nat → Prop where
  | first : Crossed doc isObj stop first first
  | next {i : Nat} {span : Nat × Nat} :
      Crossed doc isObj stop first i →
      findValueSpan doc (valueMarker isObj i) = .ok span →
      leadAt doc span.2 = some 0x2C → span.2 + 1 ≤ stop →
      Crossed doc isObj stop first (span.2 + 1)

/-- The end of the index cuts an entry off: the mark of its value lies behind the
index, or it is a quotation mark and the last mark of all, or the quotes of its key lie
behind the last mark and a value is found all the same (which takes an index so long
that `i + 3` wraps). -/
def IsCut (doc : Document) (isObj : Bool) (i : Nat) : Prop :=
  doc.indices.length ≤ valueMarker isObj i ∨
    (valueMarker isObj i + 2 = doc.indices.length ∧
      leadAt doc (valueMarker isObj i) = some 0x22) ∨
    (isObj = true ∧ doc.indices.length ≤ i + 2 ∧
      ∃ span, findValueSpan doc (valueMarker isObj i) = .ok span)

/-- No walk from the cursor comes to an entry that is cut off, and the cursor is not
at a quotation mark that is the last mark of all. -/
structure Uncut (doc : Document) (cur : Cursor) : Prop where
  string : leadAt doc cur.idxStart = some 0x22 → cur.idxStart + 2 < doc.indices.length
  entries : ∀ b, leadAt doc cur.idxStart = some b → isOpener b = true →
    isEmptyContainer doc cur.idxStart cur.idxEnd = .ok false →
    ∀ i, Crossed doc (b == 0x7B) cur.idxEnd (cur.idxStart + 1) i →
      ¬ IsCut doc (b == 0x7B) i

theorem Crossed.le {doc : Document} {isObj : Bool} {stop first i : Nat}
    (crossed : Crossed doc isObj stop first i) : i ≤ max first stop := by
  cases crossed with
  | first => exact le_max_left _ _
  | next _ _ _ within => exact le_trans within (le_max_right _ _)

theorem calm_lead {doc : Document} {i after : Nat} (found : doc.indices[i]? = some after)
    (inside : ¬ doc.buf.length ≤ after) :
    Calm (fun b => leadAt doc i = some b) (atIdx doc.buf after : Rust QjsonErr UInt8) := by
  refine (calm_atIdx (by omega)).mono fun b byte => ?_
  rw [leadAt, found, Option.bind_some, byte]

section Rounds

variable {doc : Document} {marks : List Nat} (indexed : Indexed doc marks)
  {isObj : Bool} {i stop : Nat}
include indexed

theorem Indexed.round (whole : ¬ IsCut doc isObj i) :
    Calm (fun span => Doc.findValueSpan doc (valueMarker isObj i) = .ok span ∧
        valueMarker isObj i < marks.length ∧ i ≤ span.2 ∧ span.2 ≤ marks.length ∧
        (isObj = true → valueMarker isObj i = i + 3))
      (Doc.findValueSpan doc (valueMarker isObj i)) := by
  have room := indexed.room
  have length := indexed.length
  have inside : valueMarker isObj i ≤ marks.length := by
    by_contra beyond
    exact whole (.inl (by omega))
  refine (indexed.findValueSpan inside).returns.mono ?_
  rintro span ⟨ok, -⟩
  obtain ⟨below, b, lead, shape⟩ := indexed.span_of_ok ok
  have from_ : i ≤ valueMarker isObj i ∧ (isObj = true → valueMarker isObj i = i + 3) := by
    cases isObj with
    | false => exact ⟨Nat.le_refl i, nofun⟩
    | true =>
        have marker : valueMarker true i = i + 3 := by
          have quotes : ¬ doc.indices.length ≤ i + 2 := fun behind =>
            whole (.inr (.inr ⟨rfl, behind, span, ok⟩))
          exact u32_of_lt (by omega)
        exact ⟨by omega, fun _ => marker⟩
  refine ⟨ok, below, ?_⟩
  unfold SpanShape at shape
  split at shape
  · exact ⟨by omega, by omega, from_.2⟩
  · split at shape
    · rename_i quote
      have notLast : valueMarker isObj i + 1 ≠ marks.length := fun last =>
        whole (.inr (.inl ⟨by omega, quote ▸ lead⟩))
      rw [shape]
      refine ⟨Nat.le_add_right_of_le from_.1, ?_, from_.2⟩
      change valueMarker isObj i + 2 ≤ marks.length
      omega
    · rw [shape]
      exact ⟨from_.1, Nat.le_of_lt below, from_.2⟩

theorem Indexed.keyBytes (inside : i + 1 < marks.length) :
    Calm (fun _ => True) (keyBytes doc i) := by
  have room := indexed.room
  have length := indexed.length
  rw [Doc.keyBytes]
  refine (calm_atIdx (by omega)).bind fun opening first => ?_
  rw [u32_of_lt (by omega)]
  refine (calm_atIdx (by omega)).bind fun closing second => ?_
  have ordered := indexed.lt_of_lt (Nat.lt_succ_self i) first second
  rcases indexed.cases second with ⟨-, real⟩ | ⟨last, -⟩
  · rw [slice, if_pos ⟨ordered, Nat.le_of_lt real⟩]
    trivial
  · omega

theorem Indexed.childMatches {seg : PathSeg} {arrIdx : Nat}
    (inside : isObj = true → i + 3 < marks.length) :
    Calm (fun _ => True) (childMatches doc isObj seg arrIdx i) := by
  have length := indexed.length
  unfold Doc.childMatches
  split
  · rename_i object
    have behind := inside object
    refine (calm_atIdx (by omega)).bind fun keyOpen _ => ?_
    split
    · trivial
    · exact (indexed.keyBytes (by omega)).bind fun key _ => trivial
  · trivial

/-- The empty-container guard. -/
theorem Indexed.isEmptyContainer {start : Nat} (first : start < marks.length)
    (last : stop < marks.length) : Calm (fun _ => True) (isEmptyContainer doc start stop) := by
  have length := indexed.length
  rw [Doc.isEmptyContainer]
  refine (calm_atIdx (by omega)).bind fun openerPos _ => ?_
  refine (calm_atIdx (by omega)).bind fun closerPos found => ?_
  have real : closerPos < doc.buf.length := by
    rcases indexed.cases found with ⟨-, real⟩ | ⟨sentinel, -⟩
    · exact real
    · omega
  have gap : Calm (fun _ => True) (skipGap doc.buf (openerPos + 1) closerPos) := by
    simp only [skipGap]
    rw [if_neg (by omega)]
    trivial
  exact gap.bind fun _ _ => trivial

end Rounds

/-! ## The walks -/

/-- An entry whose value is in the index, and where its cursor ends. -/
def EntryOk (doc : Document) (marks : List Nat) (isObj : Bool) (i idxEnd : Nat) : Prop :=
  (isObj = true → i + 3 < marks.length) ∧ Held doc marks ⟨valueMarker isObj i, idxEnd⟩

section Walks

variable {doc : Document} {marks : List Nat} (indexed : Indexed doc marks)
  {isObj : Bool} {stop first : Nat}
  (whole : ∀ i, Crossed doc isObj stop first i → ¬ IsCut doc isObj i)
include indexed whole

theorem Indexed.walkLoop_calm {seg : PathSeg} (inside : stop < marks.length) :
    ∀ {fuel i arrIdx : Nat} {starts ends : List Nat} {result : Option Cursor},
      (i ≤ stop → Crossed doc isObj stop first i) → i ≤ marks.length + 1 →
      marks.length + 1 < i + fuel → List.Forall₂ (EntryOk doc marks isObj) starts ends →
      (∀ cur, result = some cur → Held doc marks cur) →
      Calm (fun out => List.Forall₂ (EntryOk doc marks isObj) out.1.childStarts
          out.1.childEnds ∧ ∀ cur, out.2 = some cur → Held doc marks cur)
        (walkLoop doc isObj seg stop fuel i arrIdx starts ends result) := by
  have room := indexed.room
  have length := indexed.length
  intro fuel
  induction fuel with
  | zero => intro i _ _ _ _ _ low high; omega
  | succ fuel ih =>
      intro i arrIdx starts ends result crossed low high slots held
      rw [walkLoop]
      split
      · rename_i within
        have here := crossed within
        refine (indexed.round (whole i here)).bind
          fun span ⟨ok, below, ahead, bound, marker⟩ => ?_
        have found := indexed.held_of_span ok
        have key : isObj = true → i + 3 < marks.length := fun object => by
          rw [← marker object]
          exact below
        have matching : Calm (fun _ => True) (matchOnce doc isObj seg arrIdx i result) := by
          unfold matchOnce
          split
          · exact indexed.childMatches key
          · trivial
        refine matching.bind fun matched _ => ?_
        have held' : ∀ cur, (if matched then some (⟨valueMarker isObj i, span.1⟩ : Cursor)
            else result) = some cur → Held doc marks cur := by
          intro cur same
          split at same
          · exact Option.some.inj same ▸ found
          · exact held cur same
        have slots' : List.Forall₂ (EntryOk doc marks isObj) (starts ++ [i])
            (ends ++ [span.1]) :=
          List.rel_append slots (.cons ⟨key, found⟩ .nil)
        refine (calm_atIdx (by omega)).bind fun after afterAt => ?_
        split
        · exact ⟨slots', held'⟩
        · rename_i real
          refine (calm_lead afterAt real).bind fun b lead => ?_
          have next : u32 (span.2 + 1) = span.2 + 1 := u32_of_lt (by omega)
          rw [next]
          split
          · rename_i comma
            refine ih (fun within => ?_) (by omega) (by omega) slots' held'
            exact Crossed.next here ok (comma ▸ lead) within
          · split
            · exact ⟨slots', held'⟩
            · trivial
      · exact ⟨slots, held⟩

theorem Indexed.nthEntryLoop_calm (object : isObj = true) {n : Nat}
    (inside : stop < marks.length) :
    ∀ {fuel i count : Nat}, Crossed doc isObj stop first i → i ≤ marks.length + 1 →
      marks.length + 1 < i + fuel →
      Calm (fun entry => entry.1 + 3 < marks.length ∧ Held doc marks entry.2)
        (nthEntryLoop doc stop n fuel i count) := by
  have room := indexed.room
  have length := indexed.length
  subst object
  intro fuel
  induction fuel with
  | zero => intro i _ _ low high; omega
  | succ fuel ih =>
      intro i count here low high
      rw [nthEntryLoop]
      refine (indexed.round (whole i here)).bind
        fun span ⟨ok, below, ahead, bound, marker⟩ => ?_
      split
      · exact ⟨marker rfl ▸ below, indexed.held_of_span ok⟩
      · refine (calm_atIdx (by omega)).bind fun after afterAt => ?_
        split
        · trivial
        · rename_i real
          refine (calm_lead afterAt real).bind fun b lead => ?_
          have next : u32 (span.2 + 1) = span.2 + 1 := u32_of_lt (by omega)
          rw [next]
          split
          · rename_i comma
            split
            · trivial
            · exact ih (Crossed.next here ok (comma ▸ lead) (by omega)) (by omega) (by omega)
          · split <;> trivial

theorem Indexed.lenLoop_calm (inside : stop < marks.length) :
    ∀ {fuel i count : Nat}, Crossed doc isObj stop first i → i ≤ marks.length + 1 →
      marks.length + 1 < i + fuel →
      Calm (fun _ => True) (lenLoop doc isObj stop fuel i count) := by
  have room := indexed.room
  have length := indexed.length
  intro fuel
  induction fuel with
  | zero => intro i _ _ low high; omega
  | succ fuel ih =>
      intro i count here low high
      rw [lenLoop]
      refine (indexed.round (whole i here)).bind fun span ⟨ok, below, ahead, bound, _⟩ => ?_
      refine (calm_atIdx (by omega)).bind fun after afterAt => ?_
      split
      · trivial
      · rename_i real
        refine (calm_lead afterAt real).bind fun b lead => ?_
        have next : u32 (span.2 + 1) = span.2 + 1 := u32_of_lt (by omega)
        rw [next]
        split
        · rename_i comma
          split
          · trivial
          · exact ih (Crossed.next here ok (comma ▸ lead) (by omega)) (by omega) (by omega)
        · split <;> trivial

end Walks

/-! ## From the cursor of a container -/

section Containers

variable {doc : Document} {marks : List Nat} (indexed : Indexed doc marks) {cur : Cursor}
include indexed

theorem Indexed.lead_of_held (held : Held doc marks cur) :
    (marks = [] ∧ cur.idxStart = 0 ∧ isRootScalarCursor doc cur = true) ∨
      ∃ pos b, doc.indices[cur.idxStart]? = some pos ∧ doc.buf[pos]? = some b ∧
        leadAt doc cur.idxStart = some b ∧ cur.idxStart < marks.length ∧
        (isOpener b = true → cur.idxEnd < marks.length) := by
  rcases held with ⟨empty, start⟩ | ⟨below, -, stop⟩
  · exact .inl ⟨empty, start, by simp [isRootScalarCursor, start, indexed.indices, empty]⟩
  · obtain ⟨pos, b, found, byte⟩ := indexed.getElem?_mark below
    have lead : leadAt doc cur.idxStart = some b := by
      rw [leadAt, found, Option.bind_some, byte]
    exact .inr ⟨pos, b, found, byte, lead, below, fun opener => stop b lead opener⟩

theorem Indexed.cursorLen_calm (held : Held doc marks cur) (uncut : Uncut doc cur) :
    Calm (fun _ => True) (cursorLen doc cur) := by
  have room := indexed.room
  have length := indexed.length
  rw [cursorLen]
  split
  · trivial
  · rename_i plain
    rcases indexed.lead_of_held held with ⟨-, -, special⟩ | ⟨pos, b, found, byte, lead, below, stop⟩
    · exact absurd special plain
    · rw [atIdx_of_getElem? found, ok_bind, getOr, byte, okOr_some, ok_bind]
      split
      · trivial
      · rename_i bracket
        have opener : isOpener b = true := by
          simp only [isOpener, Bool.or_eq_true, beq_iff_eq]
          tauto
        have flag : decide (b = 0x7B) = (b == 0x7B) := by simp [BEq.beq]
        refine (indexed.isEmptyContainer below (stop opener)).returns.bind ?_
        rintro empty ⟨guard, -⟩
        split
        · trivial
        · rename_i nonempty
          have guard' : Doc.isEmptyContainer doc cur.idxStart cur.idxEnd = .ok false := by
            rw [guard]
            simpa using nonempty
          rw [u32_of_lt (by omega), flag]
          exact indexed.lenLoop_calm (uncut.entries b lead opener guard') (stop opener)
            .first (by omega) (by omega)

theorem Indexed.nthObjectEntry_calm {n : Nat} (held : Held doc marks cur)
    (uncut : Uncut doc cur) :
    Calm (fun entry => entry.1 + 3 < marks.length ∧ Held doc marks entry.2)
      (nthObjectEntry doc cur n) := by
  have room := indexed.room
  have length := indexed.length
  rw [nthObjectEntry]
  split
  · trivial
  · rename_i plain
    rcases indexed.lead_of_held held with ⟨-, -, special⟩ | ⟨pos, b, found, byte, lead, below, stop⟩
    · exact absurd special plain
    · rw [atIdx_of_getElem? found, ok_bind, getOr, byte, okOr_some, ok_bind]
      split
      · trivial
      · rename_i object
        obtain rfl : b = 0x7B := not_not.1 object
        refine (indexed.isEmptyContainer below (stop rfl)).returns.bind ?_
        rintro empty ⟨guard, -⟩
        split
        · trivial
        · rename_i nonempty
          have guard' : Doc.isEmptyContainer doc cur.idxStart cur.idxEnd = .ok false := by
            rw [guard]
            simpa using nonempty
          rw [u32_of_lt (by omega)]
          exact indexed.nthEntryLoop_calm (uncut.entries 0x7B lead rfl guard') rfl (stop rfl)
            .first (by omega) (by omega)

theorem Indexed.walkUncached_calm {seg : PathSeg} {b : UInt8} (held : Held doc marks cur)
    (uncut : Uncut doc cur) (lead : leadAt doc cur.idxStart = some b)
    (opener : isOpener b = true) :
    Calm (fun out => List.Forall₂ (EntryOk doc marks (b == 0x7B)) out.1.childStarts
        out.1.childEnds ∧ ∀ next, out.2 = some next → Held doc marks next)
      (walkUncached doc cur (b == 0x7B) seg) := by
  have room := indexed.room
  have length := indexed.length
  have below := indexed.lt_of_lead lead
  have stop : cur.idxEnd < marks.length := by
    rcases held with ⟨empty, -⟩ | ⟨-, -, stop⟩
    · rw [empty] at below
      cases below
    · exact stop b lead opener
  rw [walkUncached]
  refine (indexed.isEmptyContainer below stop).returns.bind ?_
  rintro empty ⟨guard, -⟩
  split
  · exact ⟨.nil, fun _ none => by cases none⟩
  · rename_i nonempty
    have guard' : Doc.isEmptyContainer doc cur.idxStart cur.idxEnd = .ok false := by
      rw [guard]
      simpa using nonempty
    rw [u32_of_lt (by omega)]
    exact indexed.walkLoop_calm (uncut.entries b lead opener guard') stop
      (fun _ => .first) (by omega) (by omega) .nil (fun _ none => by cases none)

/-- The fast path over entries whose values are in the index. -/
theorem Indexed.resolveInKnownChildren_calm {isObj : Bool} {seg : PathSeg}
    {starts ends : List Nat} (entries : List.Forall₂ (EntryOk doc marks isObj) starts ends) :
    ∀ k, Calm (Held doc marks)
      (resolveInKnownChildren doc isObj seg k (starts.zip ends)) := by
  have room := indexed.room
  induction entries with
  | nil => exact fun _ => trivial
  | @cons i idxEnd starts ends here _ ih =>
      intro k
      obtain ⟨below, found⟩ := here
      rw [List.zip_cons_cons, resolveInKnownChildren]
      cases isObj with
      | true =>
          have key := below rfl
          refine (indexed.keyBytes (by omega)).bind fun key _ => ?_
          simp only [ok_bind, if_true]
          split
          · exact found
          · exact ih (k + 1)
      | false =>
          simp only [ok_bind, Bool.false_eq_true, if_false]
          split
          · exact found
          · exact ih (k + 1)

end Containers

end QJson.Doc
