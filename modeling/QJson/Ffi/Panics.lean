import QJson.Doc.Crossing
import QJson.Doc.Lazy
import QJson.Ffi.Live

/-!
# Panics on lazily parsed documents

An accessor call on a lazily parsed document can run past the end of the index: the
walks take the mark three entries behind the start of an entry to be its value,
whether it is there or not.  No call panics as long as no walk comes to an entry that
is cut off there.
-/

namespace QJson.Ffi

open Rfc8259 Validate Doc Decode

/-! ## The reads at a cursor -/

theorem scalarTypeAt_calm (doc : Document) (pos : Nat) :
    Calm (fun _ => True) (scalarTypeAt doc pos) := by
  unfold scalarTypeAt
  split
  · trivial
  · split
    · trivial
    · split
      · trivial
      · split <;> trivial

theorem length_rdropWhile_le (p : UInt8 → Bool) (text : Bytes) :
    (text.rdropWhile p).length ≤ text.length :=
  (List.rdropWhile_prefix p text).length_le

section Reads

variable {doc : Document} {marks : List Nat} (indexed : Indexed doc marks) {cur : Cursor}
include indexed

theorem findScalarStart_calm {idx : Nat} (inside : idx < marks.length) :
    Calm (fun _ => True) (findScalarStart doc idx) := by
  have length := indexed.length
  rw [findScalarStart]
  split
  · trivial
  · exact (calm_atIdx (by omega)).bind fun _ _ => trivial

theorem typeOf_calm (held : Held doc marks cur) : Calm (fun _ => True) (typeOf doc cur) := by
  rw [typeOf]
  split
  · exact scalarTypeAt_calm doc _
  · rename_i plain
    rcases indexed.lead_of_held held with ⟨-, -, special⟩ | ⟨pos, b, found, byte, -, below, -⟩
    · exact absurd special plain
    · rw [found, okOr_some, ok_bind, getOr, byte, okOr_some, ok_bind]
      split
      · trivial
      · split
        · trivial
        · split
          · trivial
          · exact (findScalarStart_calm indexed below).bind fun p _ => scalarTypeAt_calm doc p

theorem scalarByteRange_calm (held : Held doc marks cur) :
    Calm (fun range => range.1 ≤ range.2 ∧ range.2 ≤ doc.buf.length)
      (scalarByteRange doc cur) := by
  have trimmed {start stop : Nat} (within : stop ≤ doc.buf.length) :
      Calm (fun range => range.1 ≤ range.2 ∧ range.2 ≤ doc.buf.length)
        (if stop < start then fail .parseError
        else trimBack doc.buf start stop >>= fun e =>
          (.ok (start, e) : Rust QjsonErr (Nat × Nat))) := by
    split
    · trivial
    · rename_i ordered
      rw [trimBack, if_neg (by omega), ok_bind]
      have short := length_rdropWhile_le isWs ((doc.buf.drop start).take (stop - start))
      rw [List.length_take, List.length_drop] at short
      exact ⟨Nat.le_add_right _ _, by omega⟩
  rw [scalarByteRange]
  by_cases special : isRootScalarCursor doc cur = true
  · simp only [if_pos special, ok_bind]
    exact trimmed (Nat.le_refl _)
  · rcases indexed.lead_of_held held with ⟨-, -, root⟩ | ⟨pos, b, found, byte, -, below, -⟩
    · exact absurd root special
    · simp only [if_neg special, atIdx_of_getElem? found, ok_bind]
      refine (findScalarStart_calm indexed below).bind fun start _ => trimmed ?_
      exact Nat.le_of_lt (List.getElem?_eq_some_iff.1 byte).1

theorem scalarBytes_calm (held : Held doc marks cur) :
    Calm (fun _ => True) (scalarBytes doc cur) := by
  refine (scalarByteRange_calm indexed held).bind fun range within => ?_
  rw [slice, if_pos within]
  trivial

theorem numberBytes_calm (held : Held doc marks cur) :
    Calm (fun _ => True) (numberBytes doc cur) := by
  refine (typeOf_calm indexed held).bind fun type _ => ?_
  split
  · exact scalarBytes_calm indexed held
  · trivial

theorem boolAt_calm (held : Held doc marks cur) : Calm (fun _ => True) (boolAt doc cur) := by
  refine (scalarBytes_calm indexed held).bind fun bytes _ => ?_
  split
  · trivial
  · split <;> trivial

theorem cursorBytes_calm (held : Held doc marks cur) :
    Calm (fun _ => True) (cursorBytes doc cur) := by
  have length := indexed.length
  have range : Calm (fun _ => True) (scalarByteRange doc cur) :=
    (scalarByteRange_calm indexed held).mono fun _ _ => trivial
  rw [cursorBytes]
  split
  · exact range
  · rename_i plain
    rcases indexed.lead_of_held held with ⟨-, -, special⟩ | ⟨pos, b, found, byte, -, below, -⟩
    · exact absurd special plain
    · have stop : cur.idxEnd ≤ marks.length := by
        rcases held with ⟨empty, -⟩ | ⟨-, stop, -⟩
        · rw [empty] at below
          cases below
        · exact stop
      rw [atIdx_of_getElem? found, ok_bind, getOr, byte, okOr_some, ok_bind]
      split
      · refine (calm_atIdx (by omega)).bind fun _ _ => ?_
        split <;> trivial
      · exact range

end Reads

/-! ## Strings and keys -/

section Strings

variable {F : Type} {host : Host F} (validator : IsStringValidator host.validateString)
  {doc : Document} {marks : List Nat} (indexed : Indexed doc marks) {cur : Cursor}
include validator indexed

theorem decodeString_calm {site : Site} {i opening closing : Nat}
    (first : doc.indices[i]? = some opening) (second : doc.indices[i + 1]? = some closing)
    (inside : i + 1 < marks.length) :
    Calm (fun _ => True) (decodeString host doc site opening closing) := by
  have ordered := indexed.lt_of_lt (Nat.lt_succ_self i) first second
  have real : closing < doc.buf.length := by
    rcases indexed.cases second with ⟨-, real⟩ | ⟨last, -⟩
    · exact real
    · omega
  rw [decodeString, slice, if_pos ⟨ordered, Nat.le_of_lt real⟩]
  exact (calm_true_iff.2 (decodeSpan_ne_panic validator _ _)).mapErr

theorem strAt_calm (held : Held doc marks cur) (uncut : Uncut doc cur) :
    Calm (fun _ => True) (strAt host doc cur) := by
  have room := indexed.room
  have length := indexed.length
  rw [strAt]
  rcases indexed.lead_of_held held with ⟨empty, start, -⟩ | ⟨pos, b, found, byte, lead, below, -⟩
  · have sentinel : doc.indices[cur.idxStart]? = some u32Max := by
      have last := indexed.getElem?_sentinel
      rwa [empty, ← show cur.idxStart = ([] : List Nat).length from start] at last
    rw [atIdx_of_getElem? sentinel]
    change Calm _ (if doc.buf[u32Max]? ≠ some 0x22 then _ else _)
    rw [indexed.past]
    trivial
  · rw [atIdx_of_getElem? found]
    change Calm _ (if doc.buf[pos]? ≠ some 0x22 then _ else _)
    split
    · trivial
    · rename_i quote
      have isQuote : leadAt doc cur.idxStart = some 0x22 := by
        rw [lead, ← byte]
        exact not_not.1 quote
      have behind := uncut.string isQuote
      rw [u32_of_lt (by omega)]
      refine (calm_atIdx (by omega)).mapErr.bind fun closing second => ?_
      exact decodeString_calm validator indexed found second (by omega)

theorem objectEntryAt_calm {i : Nat} (held : Held doc marks cur) (uncut : Uncut doc cur) :
    Calm (fun entry => Held doc marks entry.2) (objectEntryAt host doc cur i) := by
  have room := indexed.room
  have length := indexed.length
  refine (indexed.nthObjectEntry_calm held uncut).mapErr.bind fun entry ⟨inside, good⟩ => ?_
  refine (calm_atIdx (by omega)).mapErr.bind fun opening first => ?_
  rw [u32_of_lt (by omega)]
  refine (calm_atIdx (by omega)).mapErr.bind fun closing second => ?_
  exact (decodeString_calm validator indexed first second (by omega)).bind fun _ _ => good

/-- An iterator over entries none of which is cut off. -/
def IterOk (doc : Document) (marks : List Nat) (it : Iter) : Prop :=
  it.idxEnd < marks.length ∧ (it.idxCurrent < it.idxEnd → ∃ first,
    (∀ i, Crossed doc true it.idxEnd first i → ¬ IsCut doc true i) ∧
      Crossed doc true it.idxEnd first it.idxCurrent)

omit validator in
theorem iterInit_calm (held : Held doc marks cur) (uncut : Uncut doc cur) :
    Calm (IterOk doc marks) (iterInit doc cur) := by
  have room := indexed.room
  have length := indexed.length
  rw [iterInit]
  rcases indexed.lead_of_held held with ⟨empty, start, -⟩ | ⟨pos, b, found, byte, lead, below, stop⟩
  · have sentinel : doc.indices[cur.idxStart]? = some u32Max := by
      have last := indexed.getElem?_sentinel
      rwa [empty, ← show cur.idxStart = ([] : List Nat).length from start] at last
    rw [atIdx_of_getElem? sentinel]
    change Calm _ (if doc.buf[u32Max]? ≠ some 0x7B then _ else _)
    rw [indexed.past]
    trivial
  · rw [atIdx_of_getElem? found]
    change Calm _ (if doc.buf[pos]? ≠ some 0x7B then _ else _)
    split
    · trivial
    · rename_i object
      obtain rfl : b = 0x7B := Option.some.inj (byte.symm.trans (not_not.1 object))
      refine (indexed.isEmptyContainer below (stop rfl)).returns.mapErr.bind ?_
      rintro empty ⟨guard, -⟩
      refine ⟨stop rfl, fun ahead => ?_⟩
      cases empty with
      | true => exact absurd ahead (Nat.lt_irrefl _)
      | false =>
          refine ⟨cur.idxStart + 1, uncut.entries 0x7B lead rfl guard, ?_⟩
          simp only [Bool.false_eq_true, if_false, u32_of_lt (show cur.idxStart + 1 < 2 ^ 32 by
            omega)]
          exact .first

theorem iterNext_calm {it : Iter} (good : IterOk doc marks it) :
    Calm (fun out => Held doc marks out.2.1 ∧ IterOk doc marks out.2.2)
      (iterNext host doc it) := by
  have room := indexed.room
  have length := indexed.length
  obtain ⟨stop, ahead⟩ := good
  rw [iterNext]
  split
  · trivial
  · rename_i more
    obtain ⟨first, whole, here⟩ := ahead (by omega)
    have key : Calm (fun quotes => doc.indices[it.idxCurrent]? = some quotes.1 ∧
        doc.indices[it.idxCurrent + 1]? = some quotes.2) (iterKey doc it) := by
      rw [iterKey, u32_of_lt (by omega), u32_of_lt (by omega)]
      refine (calm_atIdx (by omega)).mapErr.bind fun opening opens => ?_
      refine (calm_atIdx (by omega)).mapErr.bind fun closing closes => ?_
      refine (calm_atIdx (by omega)).mapErr.bind fun colon _ => ?_
      split
      · trivial
      · exact ⟨opens, closes⟩
    refine key.bind fun quotes ⟨opens, closes⟩ => ?_
    refine (indexed.round (whole _ here)).mapErr.bind
      fun span ⟨ok, below, behind, bound, _⟩ => ?_
    have found := indexed.held_of_span ok
    refine (calm_atIdx (by omega)).mapErr.bind fun after afterAt => ?_
    have lead : Calm (fun b => leadAt doc span.2 = some b)
        (reportAt Site.nowhere (getOr doc.buf after)) :=
      Calm.mapErr (calm_okOr fun b byte => by rw [leadAt, afterAt, Option.bind_some, byte])
    refine lead.bind fun b lead => ?_
    refine (decodeString_calm validator indexed opens closes (by omega)).bind fun _ _ => ?_
    have next : u32 (span.2 + 1) = span.2 + 1 := u32_of_lt (by omega)
    rw [next]
    split
    · rename_i comma
      refine ⟨found, stop, fun within => ⟨first, whole, ?_⟩⟩
      exact Crossed.next here ok (comma ▸ lead) (Nat.le_of_lt within)
    · split
      · exact ⟨found, stop, fun none => absurd none (Nat.lt_irrefl _)⟩
      · trivial

end Strings

/-! ## Steps and paths -/

/-- A slot of entries whose values are in the index. -/
def SlotOk (doc : Document) (marks : List Nat) (openerIdx : Nat) (slot : SkipSlot) : Prop :=
  ∃ b, leadAt doc openerIdx = some b ∧
    List.Forall₂ (EntryOk doc marks (b == 0x7B)) slot.childStarts slot.childEnds

section Steps

variable {doc : Document} {marks : List Nat} (indexed : Indexed doc marks)
include indexed

theorem step_calm {cache : SkipCache} {cur : Cursor} (held : Held doc marks cur)
    (uncut : Uncut doc cur) (keeps : CacheKeeps doc (SlotOk doc marks) cache) (seg : PathSeg) :
    Calm (Held doc marks) (step doc cache cur seg).1 ∧
      CacheKeeps doc (SlotOk doc marks) (step doc cache cur seg).2 := by
  refine ⟨?_, keeps.step indexed fun b slot result lead opener walked => ⟨b, lead,
    ((indexed.walkUncached_calm held uncut lead opener).of_ok walked).1⟩⟩
  rcases step_cases doc cur seg with mismatch | ⟨b, lead, opener, suits, walks⟩
  · rw [mismatch]
    trivial
  · rw [walks]
    cases cached : cache.get cur.idxStart with
    | some slotN =>
        obtain ⟨slot, found, b', lead', entries⟩ := keeps.sound cur.idxStart slotN cached
        obtain rfl := Option.some.inj (lead.symm.trans lead')
        rw [walkChildren_warm cached, walkCached, SkipCache.slot, atIdx_of_getElem? found,
          ok_bind, suits]
        exact indexed.resolveInKnownChildren_calm entries 0
    | none =>
        have calm := @Indexed.walkUncached_calm _ _ indexed cur seg b held uncut lead opener
        rw [walkChildren_cold cached, suits]
        cases walked : walkUncached doc cur (b == 0x7B) seg with
        | error fault =>
            rw [walked] at calm
            cases fault with
            | err error => trivial
            | panic => exact calm.elim
        | ok out =>
            exact calm_okOr fun next result => (calm.of_ok walked).2 next result

end Steps

section Programs

variable {F : Type} {host : Host F} (validator : IsStringValidator host.validateString)
  {doc : Document} {marks : List Nat} (indexed : Indexed doc marks)
  (uncut : ∀ m, Reached host doc m → ∀ cur ∈ m.cursors, Uncut doc cur)

include uncut in
theorem uncut_of_live {cache : SkipCache} {cur : Cursor} (live : Live host doc cache cur) :
    Uncut doc cur := by
  obtain ⟨m, reached, -, member⟩ := live
  exact uncut m reached cur member

include validator indexed uncut

/-- What holds of every program on a document without cut entries. -/
theorem preserved_uncut : Preserved host doc (CacheKeeps doc (SlotOk doc marks))
    (Held doc marks) (IterOk doc marks) where
  new := CacheKeeps.new doc _
  root := indexed.held_root
  step cache cur seg live keeps held := by
    obtain ⟨calm, keeps'⟩ := step_calm indexed held
      (uncut_of_live uncut live) keeps seg
    exact ⟨keeps', fun next ok => calm.of_ok ok⟩
  entry cache cur i out live held ok :=
    (objectEntryAt_calm validator indexed held
      (uncut_of_live uncut live)).of_ok ok
  init cache cur it live held ok :=
    (iterInit_calm indexed held (uncut_of_live uncut live)).of_ok ok
  next it out good ok := (iterNext_calm validator indexed good).of_ok ok

theorem resolve_calm {cache : SkipCache} {cur : Cursor} (live : Live host doc cache cur)
    (path : Bytes) :
    Calm (fun next => Held doc marks next ∧ Uncut doc next) (resolve doc cache cur path).1 := by
  have kept := preserved_uncut validator indexed uncut
  have walk := @resolve_induction doc (fun cache cur => Live host doc cache cur)
    (fun _ fault => fault ≠ .panic) (fun _ _ _ _ => nofun)
    (fun cache cur seg next live narrow stepped => live.step narrow stepped)
    (fun cache cur seg fault live stepped panicked => by
      obtain ⟨keeps, held⟩ := kept.live live
      have calm := (step_calm indexed held (uncut_of_live uncut live)
        keeps seg).1
      rw [stepped, panicked] at calm
      exact calm)
    path cache cur live
  cases outcome : (resolve doc cache cur path).1 with
  | ok next =>
      rw [outcome] at walk
      exact ⟨(kept.live walk).2, uncut_of_live uncut walk⟩
  | error fault =>
      rw [outcome] at walk
      cases fault with
      | err error => trivial
      | panic => exact walk rfl

omit uncut in
theorem read_calm (lazy : doc.eagerValidated = false) {cur : Cursor}
    (held : Held doc marks cur) (whole : Uncut doc cur) (getter : Getter) :
    Calm (fun _ => True) (getter.read host doc cur) := by
  have numeric {α : Type} {parse : Bytes → Rust QjsonErr α}
      (calm : ∀ bytes, Calm (fun _ => True) (parse bytes)) :
      Calm (fun _ => True) (numberBytes doc cur >>= parse) :=
    (numberBytes_calm indexed held).bind fun bytes _ => calm bytes
  cases getter with
  | typeof => exact (typeOf_calm indexed held).mapErr.bind fun _ _ => trivial
  | len => exact (indexed.cursorLen_calm held whole).mapErr.bind fun _ _ => trivial
  | getStr => exact (strAt_calm validator indexed held whole).bind fun _ _ => trivial
  | getI64 =>
      refine (numeric fun bytes => ?_).mapErr.bind fun _ _ => trivial
      rw [lazy]
      exact parseI64_calm bytes
  | getU64 =>
      refine (numeric fun bytes => ?_).mapErr.bind fun _ _ => trivial
      rw [lazy]
      exact parseU64_calm bytes
  | getF64 =>
      have calm : Calm (fun _ => True) (f64At host doc cur) :=
        (scalarBytes_calm indexed held).bind fun bytes _ => parseF64_calm host.std bytes _
      exact calm.mapErr.bind fun _ _ => trivial
  | getBool => exact (boolAt_calm indexed held).mapErr.bind fun _ _ => trivial
  | «open» => trivial

/-- No call panics. -/
theorem answer_calm (lazy : doc.eagerValidated = false) {m : Machine}
    (reached : Reached host doc m) {access : Access} {result : Located (Output F) × SkipCache}
    (answered : m.answer host doc access = some result) :
    Calm (fun _ => True) result.1 := by
  have kept := preserved_uncut validator indexed uncut
  obtain ⟨keeps, cursors, iters⟩ := kept.reached reached
  have read {cur : Cursor} {site : Site} {path : Bytes} {getter : Getter}
      (live : Live host doc m.cache cur) : Calm (fun _ => True)
        (reportAt site (resolve doc m.cache cur path).1 >>= fun next =>
          getter.read host doc next) :=
    (resolve_calm validator indexed uncut live path).mapErr.bind fun next ⟨held, whole⟩ =>
      read_calm validator indexed lazy held whole getter
  have child {cur : Cursor} {seg : PathSeg} {site : Site} (held : cur ∈ m.cursors) :
      Calm (fun _ => True) (reportAt site (step doc m.cache cur seg).1 >>= fun next =>
        (.ok (.cursor next) : Located (Output F))) :=
    (step_calm indexed (cursors cur held) (uncut m reached cur held) keeps seg).1.mapErr.bind
      fun _ _ => trivial
  cases access with
  | get handle getter path =>
      cases handle with
      | root =>
          obtain rfl := Option.some.inj answered
          rw [Getter.onRoot_eq]
          exact read (Live.root reached)
      | cursor slot =>
          obtain ⟨cur, held, rfl⟩ := Option.map_eq_some_iff.1 answered
          rw [Getter.onCursor_eq]
          exact read (Live.held reached (List.mem_of_getElem? held))
  | isNull path =>
      obtain rfl := Option.some.inj answered
      refine (resolve_calm validator indexed uncut (Live.root reached) path).mapErr.bind
        fun next ⟨held, _⟩ => ?_
      exact (typeOf_calm indexed held).mapErr.bind fun _ _ => trivial
  | field slot key =>
      obtain ⟨cur, held, rfl⟩ := Option.map_eq_some_iff.1 answered
      exact @child cur (.key key) _ (List.mem_of_getElem? held)
  | index slot i =>
      obtain ⟨cur, held, rfl⟩ := Option.map_eq_some_iff.1 answered
      unfold qjsonCursorIndex
      split
      · trivial
      · exact @child cur (.idx i) _ (List.mem_of_getElem? held)
  | bytes slot =>
      obtain ⟨cur, held, rfl⟩ := Option.map_eq_some_iff.1 answered
      exact (cursorBytes_calm indexed (cursors cur (List.mem_of_getElem? held))).mapErr.bind
        fun _ _ => trivial
  | entryAt slot i =>
      obtain ⟨cur, held, rfl⟩ := Option.map_eq_some_iff.1 answered
      have member := List.mem_of_getElem? held
      exact (objectEntryAt_calm validator indexed (cursors cur member)
        (uncut m reached cur member)).bind fun _ _ => trivial
  | iterInit slot =>
      obtain ⟨cur, held, rfl⟩ := Option.map_eq_some_iff.1 answered
      have member := List.mem_of_getElem? held
      exact (iterInit_calm indexed (cursors cur member) (uncut m reached cur member)).bind
        fun _ _ => trivial
  | iterNext slot =>
      obtain ⟨it, held, rfl⟩ := Option.map_eq_some_iff.1 answered
      exact (iterNext_calm validator indexed (iters it (List.mem_of_getElem? held))).bind
        fun _ _ => trivial

end Programs

end QJson.Ffi
