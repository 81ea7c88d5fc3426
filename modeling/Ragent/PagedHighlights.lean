import Ragent.HybridSearch
import Ragent.MergedBoxes
import Ragent.TableIntegrity

set_option autoImplicit false

/-!
# The highlights of a paged citation

The regions that `chunk_citation_targets` groups by page, and what `PagedHighlight` of
`web/components/CitationViewer.tsx` draws of them. Lengths are in percent of the page.
-/
namespace Ragent.PagedHighlights
open GuardedRuns Consumer SourceTypes PyNumbers DocumentTables Database StageHandlers HybridSearch
  MergedBoxes BlockLinks TableIntegrity

structure Overlay where
  left : ℚ
  top : ℚ
  width : ℚ
  height : ℚ
  deriving DecidableEq

def overlayOf (r : Region) : Overlay where
  left := r.x0 * 100
  top := r.y0 * 100
  width := (r.x1 - r.x0) * 100
  height := (r.y1 - r.y0) * 100

structure Canvas where
  pageNo : ℤ
  overlays : List Overlay
  deriving DecidableEq

/-- One canvas for each page the regions are on, as far as the file has it. -/
def pagedHighlight (numPages : ℤ) (regions : List Region) : List Canvas :=
  let pageNos := (regions.map (·.pageNo)).dedup.insertionSort (· ≤ ·)
  (pageNos.filter fun pageNo => 1 ≤ pageNo ∧ pageNo ≤ numPages).map fun pageNo =>
    { pageNo := pageNo, overlays := (regions.filter (·.pageNo = pageNo)).map overlayOf }

def regionAt (pageNo : ℤ) (b : BBox) : Region := ⟨pageNo, b.x0, b.y0, b.x1, b.y1⟩

/-- The pages that `GROUP BY` finds, in the order of `ORDER BY`. -/
def pagesOf (boxes : List (ℤ × BBox)) : List ℤ :=
  (boxes.map (·.1)).dedup.insertionSort (· ≤ ·)

def boxesOn (boxes : List (ℤ × BBox)) (pageNo : ℤ) : List BBox :=
  (boxes.filter (·.1 = pageNo)).map (·.2)

theorem mem_pagesOf {boxes : List (ℤ × BBox)} {pageNo : ℤ} :
    pageNo ∈ pagesOf boxes ↔ ∃ b, (pageNo, b) ∈ boxes := by
  simp [pagesOf]

theorem mem_boxesOn {boxes : List (ℤ × BBox)} {pageNo : ℤ} {b : BBox} :
    b ∈ boxesOn boxes pageNo ↔ (pageNo, b) ∈ boxes := by
  simp [boxesOn]

theorem pagesOf_increasing (boxes : List (ℤ × BBox)) : (pagesOf boxes).Pairwise (· < ·) := by
  have hsorted : (pagesOf boxes).Pairwise (· ≤ ·) := List.pairwise_insertionSort _ _
  have hnodup : (pagesOf boxes).Nodup :=
    (List.perm_insertionSort _ _).nodup_iff.mpr (List.nodup_dedup _)
  exact (hsorted.and hnodup).imp fun h => lt_of_le_of_ne h.1 h.2

theorem unionOf_coordinates (b : BBox) (others : List BBox) :
    (unionOf b others).x0 = (others.map (·.x0)).foldl min b.x0 ∧
      (unionOf b others).y0 = (others.map (·.y0)).foldl min b.y0 ∧
      (unionOf b others).x1 = (others.map (·.x1)).foldl max b.x1 ∧
      (unionOf b others).y1 = (others.map (·.y1)).foldl max b.y1 := by
  induction others generalizing b with
  | nil => exact ⟨rfl, rfl, rfl, rfl⟩
  | cons other others ih => exact ih (cover b other)

/-- A region is the smallest box around those of its page. -/
theorem regionOf_eq {boxes : List (ℤ × BBox)} {pageNo : ℤ} (h : pageNo ∈ pagesOf boxes) :
    ∃ u : BBox, regionOf boxes pageNo = regionAt pageNo u ∧
      ∀ box, Contains box u ↔ ∀ b, (pageNo, b) ∈ boxes → Contains box b := by
  obtain ⟨b, hb⟩ := mem_pagesOf.mp h
  obtain ⟨first, others, hcons⟩ := List.exists_cons_of_ne_nil
    (List.ne_nil_of_mem (mem_boxesOn.mpr hb))
  refine ⟨unionOf first others, ?_, fun box => ?_⟩
  · obtain ⟨hx0, hy0, hx1, hy1⟩ := unionOf_coordinates first others
    unfold regionOf regionAt
    change (⟨pageNo, ((boxesOn boxes pageNo).map (·.x0)).min?.getD 0,
      ((boxesOn boxes pageNo).map (·.y0)).min?.getD 0,
      ((boxesOn boxes pageNo).map (·.x1)).max?.getD 0,
      ((boxesOn boxes pageNo).map (·.y1)).max?.getD 0⟩ : Region) = _
    rw [hcons, hx0, hy0, hx1, hy1]
    rfl
  · rw [contains_unionOf_iff, ← hcons]
    exact forall_congr' fun b => by rw [mem_boxesOn]

theorem regions_eq (db : Database) (chunkId : String) :
    regions db chunkId =
      (pagesOf (linkedBoxes db chunkId)).map (regionOf (linkedBoxes db chunkId)) := rfl

theorem sorted_pages {pages : List ℤ} (h : pages.Pairwise (· < ·)) :
    pages.dedup.insertionSort (· ≤ ·) = pages := by
  rw [List.dedup_eq_self.mpr (h.imp fun hlt => hlt.ne)]
  exact (h.imp fun hlt => hlt.le).insertionSort_eq

theorem filter_regions {boxes : List (ℤ × BBox)} {pageNo : ℤ} (h : pageNo ∈ pagesOf boxes) :
    ((pagesOf boxes).map (regionOf boxes)).filter (·.pageNo = pageNo) =
      [regionOf boxes pageNo] := by
  have hnodup : (pagesOf boxes).Nodup := (pagesOf_increasing boxes).imp fun hlt => hlt.ne
  have hpages : (pagesOf boxes).filter (fun p => (regionOf boxes p).pageNo = pageNo) =
      [pageNo] := by
    change (pagesOf boxes).filter (· = pageNo) = [pageNo]
    rw [List.filter_eq, List.count_eq_one_of_mem hnodup h]
    rfl
  rw [List.filter_map]
  exact congrArg (List.map (regionOf boxes)) hpages

theorem pagedHighlight_regions (db : Database) (chunkId : String) (numPages : ℤ) :
    pagedHighlight numPages (regions db chunkId) =
      ((pagesOf (linkedBoxes db chunkId)).filter fun pageNo => 1 ≤ pageNo ∧ pageNo ≤ numPages).map
        fun pageNo => ⟨pageNo, [overlayOf (regionOf (linkedBoxes db chunkId) pageNo)]⟩ := by
  have hpages : (regions db chunkId).map (·.pageNo) = pagesOf (linkedBoxes db chunkId) := by
    rw [regions_eq, List.map_map]
    exact List.map_id _
  unfold pagedHighlight
  simp only [hpages, sorted_pages (pagesOf_increasing _)]
  apply List.map_congr_left
  intro pageNo hpageNo
  rw [regions_eq, filter_regions (List.mem_of_mem_filter hpageNo)]
  rfl

section
variable {db : Database} {c : ChunkRow}

def DrawnOn (db : Database) (c : ChunkRow) (pageNo : ℤ) (b : BBox) : Prop :=
  ∃ row ∈ db.blocks, row.block.id ∈ c.chunk.blockIds ∧ row.block.pageNo = pageNo ∧
    row.block.bbox = some b

theorem mem_linkedBoxes (hids : (db.blocks.map (·.block.id)).Nodup) {chunkId : String} {pageNo : ℤ}
    {b : BBox} : (pageNo, b) ∈ linkedBoxes db chunkId ↔
      ∃ row ∈ db.blocks, (∃ link ∈ linksOf db.chunkBlocks chunkId, link.blockId = row.block.id) ∧
        row.block.pageNo = pageNo ∧ row.block.bbox = some b := by
  unfold linkedBoxes
  rw [List.mem_filterMap]
  constructor
  · intro h
    obtain ⟨link, hlink, hrow⟩ := h
    obtain ⟨row, hfind, hbox⟩ := Option.bind_eq_some_iff.mp hrow
    obtain ⟨box, hown, heq⟩ := Option.map_eq_some_iff.mp hbox
    obtain ⟨hpage, rfl⟩ := Prod.mk.inj heq
    have hid : row.block.id = link.blockId := by simpa using List.find?_some hfind
    exact ⟨row, List.mem_of_find?_eq_some hfind, ⟨link, hlink, hid.symm⟩, hpage, hown⟩
  · intro h
    obtain ⟨row, hrow, ⟨link, hlink, hid⟩, hpage, hbox⟩ := h
    refine ⟨link, hlink, ?_⟩
    have hfind : db.blocks.find? (·.block.id = link.blockId) = some row := by
      rw [hid]
      exact Keyed.find_key hids hrow
    rw [hfind, Option.bind_some, hbox, hpage]
    rfl

theorem exists_storedLink {blockId : String} :
    (∃ link ∈ storedLinks c, link.blockId = blockId) ↔ blockId ∈ c.chunk.blockIds := by
  unfold storedLinks
  constructor
  · intro h
    obtain ⟨link, hlink, rfl⟩ := h
    obtain ⟨l, hl, -, hid⟩ := mem_insertLinks.mp ⟨link, hlink, rfl, rfl⟩
    exact mem_linkRows.mp ⟨l, hl, hid⟩
  · intro h
    obtain ⟨l, hl, rfl⟩ := mem_linkRows.mpr h
    obtain ⟨link, hlink, -, hid⟩ := mem_insertLinks.mpr ⟨l, List.mem_append_right [] hl, rfl, rfl⟩
    exact ⟨link, hlink, hid⟩

/-- What is drawn of a chunk: for each page of the file with blocks of the chunk one overlay, the
    smallest that covers them, on the page itself. -/
structure Framed (db : Database) (c : ChunkRow) (numPages : ℤ) (canvases : List Canvas) : Prop where
  present : ∀ id ∈ c.chunk.blockIds, ∃ row ∈ db.blocks, row.block.id = id ∧
    row.documentId = c.documentId
  increasing : (canvases.map (·.pageNo)).Pairwise (· < ·)
  pages : ∀ pageNo, pageNo ∈ canvases.map (·.pageNo) ↔
    (1 ≤ pageNo ∧ pageNo ≤ numPages) ∧ ∃ b, DrawnOn db c pageNo b
  overlay : ∀ canvas ∈ canvases, ∃ u : BBox,
    canvas.overlays = [⟨100 * u.x0, 100 * u.y0, 100 * (u.x1 - u.x0), 100 * (u.y1 - u.y0)⟩] ∧
      ∀ box, Contains box u ↔ ∀ b, DrawnOn db c canvas.pageNo b → Contains box b

theorem overlayOf_regionAt (pageNo : ℤ) (u : BBox) : overlayOf (regionAt pageNo u) =
    ⟨100 * u.x0, 100 * u.y0, 100 * (u.x1 - u.x0), 100 * (u.y1 - u.y0)⟩ := by
  simp only [overlayOf, regionAt, mul_comm]

theorem framed_of_links (h : Sound db) (hc : c ∈ db.chunks)
    (hlinks : linksOf db.chunkBlocks c.id = storedLinks c) (numPages : ℤ) : Framed db c numPages (pagedHighlight numPages (regions db c.id)) := by
  have hboxes : ∀ pageNo b, (pageNo, b) ∈ linkedBoxes db c.id ↔ DrawnOn db c pageNo b := by
    intro pageNo b
    rw [mem_linkedBoxes h.blockIds, hlinks]
    simp only [exists_storedLink]
    rfl
  have hpages : (pagedHighlight numPages (regions db c.id)).map (·.pageNo) =
      (pagesOf (linkedBoxes db c.id)).filter fun pageNo => 1 ≤ pageNo ∧ pageNo ≤ numPages := by
    rw [pagedHighlight_regions, List.map_map]
    exact List.map_id _
  constructor
  · intro id hid
    obtain ⟨link, hlink, rfl⟩ := exists_storedLink.mpr hid
    rw [← hlinks] at hlink
    obtain ⟨hmem, hown⟩ := List.mem_filter.mp hlink
    obtain ⟨c', hc', row, hrow, hchunk, hblock, hsame⟩ := h.sameDocument link hmem
    rw [decide_eq_true_eq] at hown
    rw [← List.inj_on_of_nodup_map h.chunkKeys.nodup hc' hc (hchunk.trans hown)]
    exact ⟨row, hrow, hblock, hsame⟩
  · rw [hpages]
    exact (pagesOf_increasing _).filter _
  · intro pageNo
    rw [hpages, List.mem_filter, mem_pagesOf, decide_eq_true_eq, and_comm]
    simp only [hboxes]
  · intro canvas hcanvas
    rw [pagedHighlight_regions] at hcanvas
    obtain ⟨pageNo, hpageNo, rfl⟩ := List.mem_map.mp hcanvas
    obtain ⟨u, hregion, hleast⟩ := regionOf_eq (List.mem_of_mem_filter hpageNo)
    refine ⟨u, ?_, fun box => ?_⟩
    · rw [hregion, overlayOf_regionAt]
    · rw [hleast]
      simp only [hboxes]

theorem regions_of_unlinked (hlinks : linksOf db.chunkBlocks c.id = []) : regions db c.id = [] := by
  have hboxes : linkedBoxes db c.id = [] := by
    unfold linkedBoxes
    change (linksOf db.chunkBlocks c.id).filterMap _ = []
    rw [hlinks]
    rfl
  rw [regions_eq, hboxes]
  rfl

end

section
variable {F : Type} [PyFloat F] {settings : Settings F}

/-- In whatever state the ingest of its document is, a stored chunk is cited by the smallest boxes
    around the blocks it was made of, page by page; or it has lost its blocks, and has no region. -/
theorem overlays_frame_the_blocks {s : System World Execution}
    (h : Reachable Untouched (exec (handlers settings)) (fun _ _ => True) s) {c : ChunkRow}
    (hc : c ∈ s.world.db.chunks) (numPages : ℤ) :
    Framed s.world.db c numPages (pagedHighlight numPages (regions s.world.db c.id)) ∨
      ((∀ b ∈ s.world.db.chunkBlocks, b.chunkId ≠ c.id) ∧ regions s.world.db c.id = []) := by
  have hsound := (sound_of_reachable h).1
  cases hsound.links c hc with
  | inl hstored => exact .inl (framed_of_links hsound hc hstored numPages)
  | inr hlost =>
    refine .inr ⟨fun link hlink hid => ?_, regions_of_unlinked hlost⟩
    have hmem : link ∈ linksOf s.world.db.chunkBlocks c.id :=
      List.mem_filter.mpr ⟨hlink, decide_eq_true hid⟩
    rw [hlost] at hmem
    exact List.not_mem_nil hmem

end

def upperHalf : BBox where
  x0 := 1 / 10
  y0 := 1 / 10
  x1 := 9 / 10
  y1 := 1 / 2
  nondegenerate := by norm_num
  inside := by norm_num

def heading : SourceBlock Char where
  id := "tmp-0"
  pageNo := 1
  readingOrder := 0
  kind := "paragraph"
  text := "Hello.".toList
  bbox := some upperHalf
  locatable := Or.inl rfl

def untilChunked : List (Event Choice) :=
  [.upload "document" "run" "v1" "trace", .start 0 everyStage] ++
    onMessage 0 [.deliver 0, .call, .work (.format (some .pdf)), .finish, .call, .call, .call,
      .call] ++
    onMessage 0 [.deliver 0, .call, .work (.parsed [1] ["p1"] [heading] ["b1"]), .finish, .call,
      .call, .call, .call] ++
    onMessage 0 [.deliver 0, .call, .work .next, .finish, .call, .call, .call, .call, .call] ++
    onMessage 0 [.deliver 0, .call, .work .next, .finish, .call, .call] ++
    onMessage 0 [.deliver 0, .call, .work .next, .finish, .call, .call, .call, .call] ++
    onMessage 0 [.deliver 0, .call, .work .next, .work (.drawn ["c1"])]

theorem the_heading_is_framed :
    ∃ s, Reachable Untouched (exec (handlers oneStrategy)) (fun _ _ => True) s ∧
      pagedHighlight 3 (regions s.world.db "c1") = [⟨1, [⟨10, 10, 80, 40⟩]⟩] ∧
        ∃ c ∈ s.world.db.chunks,
          Framed s.world.db c 3 (pagedHighlight 3 (regions s.world.db c.id)) := by
  have hend : (run (exec (handlers oneStrategy)) uploaded untilChunked).map (fun s =>
      (s.world.db.chunks.map (·.id), pagedHighlight 3 (regions s.world.db "c1"))) =
        some (["c1"], [⟨1, [⟨10, 10, 80, 40⟩]⟩]) := by
    decide +kernel
  obtain ⟨s, hrun, heq⟩ := Option.map_eq_some_iff.mp hend
  obtain ⟨hchunks, hdrawn⟩ := Prod.mk.inj heq
  have hreach : Reachable Untouched (exec (handlers oneStrategy)) (fun _ _ => True) s :=
    reachable_of_run (.start uploaded_untouched) (fun _ _ _ => trivial) hrun
  obtain ⟨c, hc, hid⟩ := List.mem_map.mp (hchunks ▸ List.mem_singleton_self "c1")
  refine ⟨s, hreach, hdrawn, c, hc, ?_⟩
  cases overlays_frame_the_blocks hreach hc 3 with
  | inl hframed => exact hframed
  | inr hlost =>
    rw [hid] at hlost
    rw [hlost.2] at hdrawn
    exact absurd hdrawn (by decide)

end Ragent.PagedHighlights
