import QJson.Doc.Segments
import QJson.Doc.Slots

/-!
# Paths compose

Resolving a path takes one step for each segment that the iterator yields, so a path of
two parts leads where its parts lead one after the other.
-/

namespace QJson.Doc

open Rfc8259

/-- The steps of `Cursor::resolve` along segments. -/
def stepAll (doc : Document) (cache : SkipCache) (cur : Cursor) :
    List PathSeg → Rust QjsonErr Cursor × SkipCache
  | [] => (.ok cur, cache)
  | seg :: segs =>
      match step doc cache cur seg with
      | (.ok next, cache) => stepAll doc cache next segs
      | (.error fault, cache) => (.error fault, cache)

variable {doc : Document}

theorem stepAll_append (cache : SkipCache) (cur : Cursor) (left right : List PathSeg) :
    stepAll doc cache cur (left ++ right) =
      match stepAll doc cache cur left with
      | (.ok mid, cache) => stepAll doc cache mid right
      | (.error fault, cache) => (.error fault, cache) := by
  induction left generalizing cache cur with
  | nil => rfl
  | cons seg left ih =>
      rw [List.cons_append, stepAll, stepAll]
      cases step doc cache cur seg with
      | mk result cache' =>
          cases result with
          | ok next => exact ih cache' next
          | error fault => rfl

/-- `resolve` takes the steps of the segments. -/
theorem resolve_of_yields {path : Bytes} {segs : List PathSeg} (yields : Yields path segs)
    (cache : SkipCache) (cur : Cursor) :
    resolve doc cache cur path = stepAll doc cache cur segs := by
  induction segs generalizing path cache cur with
  | nil =>
      refine resolve_nil cache cur ?_
      rw [pathNext_eq, show (iterNext path).1 = none from yields 0]
      rfl
  | cons seg segs ih =>
      have first : (iterNext path).1 = some (.ok seg) := yields 0
      have rest : Yields (iterNext path).2 segs := fun n => yields (n + 1)
      rw [resolve_seg cache cur (by rw [pathNext_eq, first]; rfl), stepAll]
      cases step doc cache cur seg with
      | mk result cache' =>
          cases result with
          | ok next => exact ih rest cache' next
          | error fault => rfl

/-- A rendered list of segments is read back in full; resolving it is resolving its first
part and then its second part from where that led. -/
theorem paths_compose :
    (∀ segs : List PathSeg, (∀ seg ∈ segs, seg.Plain) → Yields (renderPath segs) segs) ∧
    ∀ (doc : Document) (cache : SkipCache) (cur : Cursor) (p q : List PathSeg),
      (∀ seg ∈ p, seg.Plain) → (∀ seg ∈ q, seg.Plain) →
        resolve doc cache cur (renderPath (p ++ q)) =
          match resolve doc cache cur (renderPath p) with
          | (.ok mid, cache) => resolve doc cache mid (renderPath q)
          | (.error fault, cache) => (.error fault, cache) := by
  refine ⟨fun segs => yields_renderPath, fun doc cache cur p q left right => ?_⟩
  have both : ∀ seg ∈ p ++ q, seg.Plain := fun seg member =>
    (List.mem_append.1 member).elim (left seg) (right seg)
  rw [resolve_of_yields (yields_renderPath both), resolve_of_yields (yields_renderPath left),
    stepAll_append]
  cases stepAll doc cache cur p with
  | mk result cache' =>
      cases result with
      | ok mid => exact (resolve_of_yields (yields_renderPath right) cache' mid).symm
      | error fault => rfl

/-- `a[4294967295].]7`, in one piece and in two. -/
theorem paths_compose_limit :
    renderPath [.key [0x61], .idx 4294967295, .key [0x5D, 0x37]] =
        [0x61, 0x5B, 0x34, 0x32, 0x39, 0x34, 0x39, 0x36, 0x37, 0x32, 0x39, 0x35, 0x5D, 0x2E,
          0x5D, 0x37] ∧
      Yields (renderPath [.key [0x61], .idx 4294967295, .key [0x5D, 0x37]])
        [.key [0x61], .idx 4294967295, .key [0x5D, 0x37]] ∧
      (let doc : Document := ⟨[0x7B, 0x7D], [0, 1, u32Max], true⟩
       resolve doc SkipCache.new (Cursor.root doc)
          (renderPath ([.key [0x61], .idx 4294967295] ++ [.key [0x5D, 0x37]])) =
        match resolve doc SkipCache.new (Cursor.root doc)
            (renderPath [.key [0x61], .idx 4294967295]) with
        | (.ok mid, cache) => resolve doc cache mid (renderPath [.key [0x5D, 0x37]])
        | (.error fault, cache) => (.error fault, cache)) :=
  ⟨by decide +kernel, paths_compose.1 _ (by decide +kernel),
    paths_compose.2 _ _ _ _ _ (by decide +kernel) (by decide +kernel)⟩

end QJson.Doc
