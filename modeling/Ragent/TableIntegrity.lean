import Ragent.BlockLinks
import Ragent.ChunkOrder
import Ragent.Keyed

set_option autoImplicit false

/-!
# What always holds of the tables

`parse` may replace the blocks under chunks that are already stored, at any time. The keys, the
references and the numbers of the chunks survive that, and of the links of a chunk there are all or
none.
-/
namespace Ragent.TableIntegrity
open Formats Stages Runner GuardedRuns Consumer PyText PyNumbers SourceTypes FlattenedDocument
  FixedChunks RecursiveChunks LayoutChunks SemanticChunks ChunkCoverage ChunkDocument ChunkOrder
  DocumentTables Database StageHandlers Executions BlockLinks

section
variable {α F : Type} [Glyph α] [PyFloat F]

def Numbered (chunks : List (Chunk α)) : Prop := chunks.map (·.seq) = List.range chunks.length

omit [Glyph α] in
theorem numbered_withPrevious {f : Chunk α → Chunk α → Chunk α} {chunks : List (Chunk α)}
    (h : Numbered chunks) (hf : ∀ prev cur, (f prev cur).seq = cur.seq) :
    Numbered (withPrevious f chunks) := by
  have hkept : (withPrevious f chunks).map (·.seq) = chunks.map (·.seq) := by
    cases chunks with
    | nil => rfl
    | cons first rest =>
      rw [withPrevious, List.map_cons, List.map_cons, List.cons_inj_right]
      apply List.ext_getElem
      · simp
      · intro i hi hi'
        simp [hf]
  have hlength := congrArg List.length hkept
  rw [List.length_map, List.length_map] at hlength
  unfold Numbered
  rw [hkept, hlength]
  exact h

theorem chunkDocument_numbered {strategy : String} {blocks : List (SourceBlock α)}
    (hids : (blocks.map (·.id)).Nodup) {o : ChunkOptions F} {chunks : List (Chunk α)}
    (h : chunkDocument strategy blocks o = .ok chunks) : Numbered chunks := by
  obtain ⟨fn, -, hchunks⟩ := chunkDocument_eq_ok h
  cases fn with
  | fixed =>
    cases hchunks
    obtain ⟨rs, -, heq⟩ := chunkFixed_covering F o.countTokens o.targetTokens o.overlapTokens blocks
    rw [heq]
    exact ranges_seq "fixed" o.countTokens rs
  | recursive =>
    cases hchunks
    obtain ⟨rs, -, heq⟩ := packedChunks_tiles o.countTokens o.targetTokens blocks
    have hpacked : Numbered (packedChunks o.countTokens o.targetTokens blocks) := by
      rw [heq]
      exact ranges_seq "recursive" o.countTokens rs
    unfold chunkRecursive
    simp only
    split_ifs
    · exact numbered_withPrevious hpacked (overlapChunk_seq o.countTokens o.overlapTokens)
    · exact hpacked
  | layout =>
    cases hchunks
    obtain ⟨groups, -, -, -, heq⟩ := chunkLayout_groups o.countTokens o.targetTokens
      o.overlapTokens hids
    rw [heq]
    exact seq_mapIdx (groupChunk_seq o.countTokens) _
  | semantic =>
    obtain ⟨rs, -, rfl⟩ := chunkSemantic_tiles o.countTokens o.targetTokens hchunks
    exact ranges_seq "semantic" o.countTokens rs

end

def linksOf (links : List LinkRow) (chunkId : String) : List LinkRow :=
  links.filter (·.chunkId = chunkId)

def storedLinks (c : ChunkRow) : List LinkRow := (linkRows c).foldl insertLink []

variable {links new : List LinkRow} {db db' : Database} {d σ : String}

theorem filter_insertLinks (p : String → String → Bool) :
    (new.foldl insertLink links).filter (fun l => p l.chunkId l.blockId) =
      (new.filter fun l => p l.chunkId l.blockId).foldl insertLink
        (links.filter fun l => p l.chunkId l.blockId) := by
  induction new generalizing links with
  | nil => rfl
  | cons link new ih =>
    rw [List.foldl_cons, ih, List.filter_cons]
    cases hp : p link.chunkId link.blockId with
    | false =>
      have hsame : (insertLink links link).filter (fun l => p l.chunkId l.blockId) =
          links.filter fun l => p l.chunkId l.blockId := by
        unfold insertLink
        split_ifs
        · rfl
        · simp [hp]
      rw [hsame]
      rfl
    | true =>
      have hthere : ((links.filter fun l => p l.chunkId l.blockId).any fun l =>
          l.chunkId = link.chunkId ∧ l.blockId = link.blockId) =
            links.any fun l => l.chunkId = link.chunkId ∧ l.blockId = link.blockId := by
        rw [Bool.eq_iff_iff, List.any_eq_true, List.any_eq_true]
        refine exists_congr fun l => ?_
        rw [List.mem_filter, decide_eq_true_eq]
        constructor
        · rintro ⟨⟨hl, -⟩, hkeys⟩
          exact ⟨hl, hkeys⟩
        · rintro ⟨hl, hkeys⟩
          refine ⟨⟨hl, ?_⟩, hkeys⟩
          rw [hkeys.1, hkeys.2, hp]
      have hcommutes : (insertLink links link).filter (fun l => p l.chunkId l.blockId) =
          insertLink (links.filter fun l => p l.chunkId l.blockId) link := by
        unfold insertLink
        rw [hthere]
        split_ifs
        · rfl
        · simp [hp]
      rw [hcommutes]
      rfl

theorem nodup_insertLinks (h : (links.map fun l => (l.chunkId, l.blockId)).Nodup) :
    ((new.foldl insertLink links).map fun l => (l.chunkId, l.blockId)).Nodup := by
  induction new generalizing links with
  | nil => exact h
  | cons link new ih =>
    apply ih
    unfold insertLink
    split_ifs with hthere
    · exact h
    · apply Keyed.nodup_concat h
      intro hmem
      obtain ⟨l, hl, hkeys⟩ := List.mem_map.mp hmem
      obtain ⟨hchunk, hblock⟩ := Prod.mk.inj hkeys
      exact hthere (List.any_eq_true.mpr ⟨l, hl, decide_eq_true ⟨hchunk, hblock⟩⟩)

theorem linksOf_insertLinks (chunkId : String) :
    linksOf (new.foldl insertLink links) chunkId =
      (linksOf new chunkId).foldl insertLink (linksOf links chunkId) :=
  filter_insertLinks fun c _ => c = chunkId

theorem linksOf_eq_nil (h : ∀ l ∈ links, l.chunkId ≠ d) : linksOf links d = [] := by
  simpa [linksOf] using h

theorem linksOf_flatMap {rows : List ChunkRow} (hids : (rows.map (·.id)).Nodup) {c : ChunkRow}
    (hc : c ∈ rows) : linksOf (rows.flatMap linkRows) c.id = linkRows c := by
  have hown : linksOf (linkRows c) c.id = linkRows c := by
    apply List.filter_eq_self.mpr
    exact fun l hl => decide_eq_true (chunkId_of_linkRows hl)
  induction rows with
  | nil => cases hc
  | cons row rows ih =>
    obtain ⟨hrow, hrows⟩ := List.nodup_cons.mp hids
    have hsplit : linksOf ((row :: rows).flatMap linkRows) c.id =
        linksOf (linkRows row) c.id ++ linksOf (rows.flatMap linkRows) c.id := by
      rw [List.flatMap_cons]
      exact List.filter_append _ _
    rw [hsplit]
    rcases List.mem_cons.mp hc with rfl | hlater
    · have hnone : linksOf (rows.flatMap linkRows) c.id = [] := by
        apply linksOf_eq_nil
        rintro l hl heq
        obtain ⟨row, hmem, hlink⟩ := List.mem_flatMap.mp hl
        exact hrow (List.mem_map.mpr ⟨row, hmem, (chunkId_of_linkRows hlink).symm.trans heq⟩)
      rw [hown, hnone, List.append_nil]
    · have hnone : linksOf (linkRows row) c.id = [] := by
        apply linksOf_eq_nil
        rintro l hl heq
        exact hrow (List.mem_map.mpr ⟨c, hlater, heq.symm.trans (chunkId_of_linkRows hl)⟩)
      rw [hnone, ih hrows hlater, List.nil_append]

structure Sound (db : Database) : Prop where
  blockIds : (db.blocks.map (·.block.id)).Nodup
  blocksIssued : ∀ b ∈ db.blocks, b.block.id ∈ db.issued
  /-- `page_id` refers to a page of the document. -/
  pages : ∀ b ∈ db.blocks, ∀ id ∈ b.pageId, ∃ p ∈ db.pages, p.id = id ∧
    p.documentId = b.documentId
  chunkKeys : db.Keys
  /-- No two chunks of a document and strategy share a number, and none is left out. -/
  numbered : ∀ d σ, Numbered ((db.loadChunks d σ).map (·.chunk))
  linkKeys : (db.chunkBlocks.map fun l => (l.chunkId, l.blockId)).Nodup
  sameDocument : ∀ link ∈ db.chunkBlocks, ∃ c ∈ db.chunks, ∃ b ∈ db.blocks,
    c.id = link.chunkId ∧ b.block.id = link.blockId ∧ b.documentId = c.documentId
  /-- A chunk has the links it was stored with, or none any more. -/
  links : ∀ c ∈ db.chunks, linksOf db.chunkBlocks c.id = storedLinks c ∨
    linksOf db.chunkBlocks c.id = []

theorem Sound.setDocumentStatus (h : Sound db) (d : String) (status : DocStatus) :
    Sound (db.setDocumentStatus d status) :=
  ⟨h.blockIds, h.blocksIssued, h.pages, ⟨h.chunkKeys.nodup, h.chunkKeys.issued⟩, h.numbered,
    h.linkKeys, h.sameDocument, h.links⟩

/-- The cascade takes all links of the chunks of the document, and no others. -/
theorem linksOf_deleteBlocks (h : Sound db) {c : ChunkRow} (hc : c ∈ db.chunks) :
    linksOf (db.deleteBlocks d).chunkBlocks c.id =
      if c.documentId = d then [] else linksOf db.chunkBlocks c.id := by
  have hdocument : ∀ link ∈ db.chunkBlocks, link.chunkId = c.id → ∃ b ∈ db.blocks,
      b.block.id = link.blockId ∧ b.documentId = c.documentId := by
    intro link hlink hid
    obtain ⟨c', hc', b, hb, hchunk, hblock, hsame⟩ := h.sameDocument link hlink
    rw [List.inj_on_of_nodup_map h.chunkKeys.nodup hc' hc (hchunk.trans hid)] at hsame
    exact ⟨b, hb, hblock, hsame⟩
  split_ifs with hd
  · apply linksOf_eq_nil
    intro link hlink hid
    obtain ⟨b, hb, hblock, hsame⟩ := hdocument link (List.mem_of_mem_filter hlink) hid
    exact ((mem_deleteBlocks_links h.blockIds hb hblock).mp hlink).2 (hsame.trans hd)
  · unfold linksOf Database.deleteBlocks
    rw [List.filter_filter]
    apply List.filter_congr
    intro link hlink
    by_cases hid : link.chunkId = c.id
    · obtain ⟨b, hb, hblock, hsame⟩ := hdocument link hlink hid
      have hspared : link ∈ (db.deleteBlocks d).chunkBlocks :=
        (mem_deleteBlocks_links h.blockIds hb hblock).mpr ⟨hlink, fun heq => hd (hsame ▸ heq)⟩
      have hkept := (List.mem_filter.mp hspared).2
      simp only [hid, decide_true, Bool.true_and]
      exact hkept
    · simp [hid]

theorem Sound.deleteBlocks (h : Sound db) (d : String) : Sound (db.deleteBlocks d) := by
  constructor
  · exact h.blockIds.sublist (List.filter_sublist.map _)
  · exact fun b hb => h.blocksIssued b (mem_deleteBlocks.mp hb).1
  · exact fun b hb => h.pages b (mem_deleteBlocks.mp hb).1
  · exact ⟨h.chunkKeys.nodup, h.chunkKeys.issued⟩
  · exact h.numbered
  · exact h.linkKeys.sublist (List.filter_sublist.map _)
  · intro link hlink
    obtain ⟨c, hc, b, hb, hchunk, hblock, hsame⟩ :=
      h.sameDocument link (List.mem_of_mem_filter hlink)
    have hne := ((mem_deleteBlocks_links h.blockIds hb hblock).mp hlink).2
    exact ⟨c, hc, b, mem_deleteBlocks.mpr ⟨hb, hne⟩, hchunk, hblock, hsame⟩
  · intro c hc
    rw [linksOf_deleteBlocks h hc]
    split_ifs
    · exact .inr rfl
    · exact h.links c hc

theorem Sound.insertPages (h : Sound db) (d : String) (pages : List ℤ) (ids : List String) :
    Sound (db.insertPages d pages ids) := by
  constructor
  · exact h.blockIds
  · exact fun b hb => List.mem_append_left _ (h.blocksIssued b hb)
  · intro b hb id hid
    obtain ⟨p, hp, hkeys⟩ := h.pages b hb id hid
    exact ⟨p, List.mem_append_left _ hp, hkeys⟩
  · exact ⟨h.chunkKeys.nodup, fun c hc => List.mem_append_left _ (h.chunkKeys.issued c hc)⟩
  · exact h.numbered
  · exact h.linkKeys
  · exact h.sameDocument
  · exact h.links

theorem page_of_pageId {pageNo : ℤ} {id : String} (h : id ∈ db.pageId d pageNo) :
    ∃ p ∈ db.pages, p.id = id ∧ p.documentId = d := by
  obtain ⟨p, hfind, rfl⟩ := Option.map_eq_some_iff.mp h
  have hkeys := List.find?_some hfind
  rw [decide_eq_true_eq] at hkeys
  exact ⟨p, List.mem_of_find?_eq_some hfind, rfl, hkeys.1⟩

theorem Sound.insertBlocks (h : Sound db) {blocks : List (SourceBlock Char)} {ids : List String}
    (hdraws : db.Draws ids blocks.length) : Sound (db.insertBlocks d blocks ids) := by
  rcases hdraws with ⟨hlength, hnodup, hfresh⟩
  constructor
  · have hids : (db.insertBlocks d blocks ids).blocks.map (·.block.id) =
        db.blocks.map (·.block.id) ++ ids := by
      unfold Database.insertBlocks
      rw [List.map_append, List.map_map]
      exact congrArg _ (List.map_snd_zip (by omega))
    rw [hids]
    refine h.blockIds.append hnodup fun id hid hid' => hfresh id hid' ?_
    obtain ⟨row, hrow, rfl⟩ := List.mem_map.mp hid
    exact h.blocksIssued row hrow
  · intro row hrow
    rcases mem_insertBlocks hrow with hold | ⟨hnew, -⟩
    · exact List.mem_append_left _ (h.blocksIssued row hold)
    · exact List.mem_append_right _ hnew
  · intro row hrow id hid
    rcases List.mem_append.mp hrow with hold | hnew
    · exact h.pages row hold id hid
    · obtain ⟨b, -, rfl⟩ := List.mem_map.mp hnew
      exact page_of_pageId hid
  · exact ⟨h.chunkKeys.nodup, fun c hc => List.mem_append_left _ (h.chunkKeys.issued c hc)⟩
  · exact h.numbered
  · exact h.linkKeys
  · intro link hlink
    obtain ⟨c, hc, b, hb, hkeys⟩ := h.sameDocument link hlink
    exact ⟨c, hc, b, List.mem_append_left _ hb, hkeys⟩
  · exact h.links

section
variable {chunks : List (Chunk Char)} {ids : List String}

def newRows (d σ : String) (chunks : List (Chunk Char)) (ids : List String) : List ChunkRow :=
  (chunks.zip ids).map fun c => ⟨c.2, d, σ, c.1⟩

theorem newRows_ids (hlength : ids.length = chunks.length) :
    (newRows d σ chunks ids).map (·.id) = ids := by
  unfold newRows
  rw [List.map_map]
  exact List.map_snd_zip (by omega)

theorem newRows_chunks (hlength : ids.length = chunks.length) :
    (newRows d σ chunks ids).map (·.chunk) = chunks := by
  unfold newRows
  rw [List.map_map]
  exact List.map_fst_zip (by omega)

theorem replaceChunks_eq (h : db.replaceChunks d σ chunks ids = some db') :
    db'.chunks = (db.chunks.filter fun c => ¬(c.documentId = d ∧ c.strategy = σ)) ++
        newRows d σ chunks ids ∧
      db'.chunkBlocks = ((newRows d σ chunks ids).flatMap linkRows).foldl insertLink
        (db.chunkBlocks.filter fun l =>
          l.chunkId ∉ (db.chunks.filter fun c => c.documentId = d ∧ c.strategy = σ).map (·.id)) ∧
      db'.blocks = db.blocks ∧ db'.pages = db.pages := by
  unfold Database.replaceChunks at h
  simp only [Option.ite_none_right_eq_some, Option.some.injEq] at h
  obtain ⟨-, rfl⟩ := h
  exact ⟨rfl, rfl, rfl, rfl⟩

theorem loadChunks_of_replaceChunks (hlength : ids.length = chunks.length)
    (hchunks : Numbered chunks) (h : db.replaceChunks d σ chunks ids = some db') :
    (db'.loadChunks d σ).map (·.chunk) = chunks := by
  obtain ⟨hrows, -⟩ := replaceChunks_eq h
  have hkept : db.chunks.filter (fun c => decide (c.documentId = d ∧ c.strategy = σ) &&
      decide ¬(c.documentId = d ∧ c.strategy = σ)) = [] := by
    simp
  have hnew : (newRows d σ chunks ids).filter
      (fun c => c.documentId = d ∧ c.strategy = σ) = newRows d σ chunks ids := by
    apply List.filter_eq_self.mpr
    intro c hc
    obtain ⟨p, -, rfl⟩ := List.mem_map.mp hc
    exact decide_eq_true ⟨rfl, rfl⟩
  have hsorted : (newRows d σ chunks ids).Pairwise fun c c' => c.chunk.seq ≤ c'.chunk.seq := by
    have hseq : ((newRows d σ chunks ids).map (·.chunk.seq)).Pairwise (· ≤ ·) := by
      have hmap : (newRows d σ chunks ids).map (·.chunk.seq) = chunks.map (·.seq) := by
        conv_rhs => rw [← newRows_chunks (d := d) (σ := σ) hlength]
        rw [List.map_map]
        rfl
      rw [hmap, hchunks]
      exact List.pairwise_le_range
    exact List.pairwise_map.mp hseq
  unfold loadChunks
  rw [hrows, List.filter_append, List.filter_filter, hkept, hnew, List.nil_append,
    hsorted.insertionSort_eq]
  exact newRows_chunks hlength

theorem loadChunks_replaceChunks (hlength : ids.length = chunks.length) (hchunks : Numbered chunks)
    (h : db.replaceChunks d σ chunks ids = some db') (d' σ' : String) :
    (d' = d ∧ σ' = σ ∧ (db'.loadChunks d' σ').map (·.chunk) = chunks) ∨
      db'.loadChunks d' σ' = db.loadChunks d' σ' := by
  by_cases hkeys : d' = d ∧ σ' = σ
  · obtain ⟨rfl, rfl⟩ := hkeys
    exact .inl ⟨rfl, rfl, loadChunks_of_replaceChunks hlength hchunks h⟩
  · right
    have hkept : db.chunks.filter (fun c => decide (c.documentId = d' ∧ c.strategy = σ') &&
        decide ¬(c.documentId = d ∧ c.strategy = σ)) =
          db.chunks.filter fun c => c.documentId = d' ∧ c.strategy = σ' := by
      apply List.filter_congr
      intro c _
      by_cases hc : c.documentId = d' ∧ c.strategy = σ'
      · have hother : ¬(c.documentId = d ∧ c.strategy = σ) := by
          rintro ⟨hd, hσ⟩
          exact hkeys ⟨hc.1.symm.trans hd, hc.2.symm.trans hσ⟩
        simp [hother]
      · simp [hc]
    have hnew : (newRows d σ chunks ids).filter
        (fun c => c.documentId = d' ∧ c.strategy = σ') = [] := by
      apply List.filter_eq_nil_iff.mpr
      intro c hc heq
      obtain ⟨p, -, rfl⟩ := List.mem_map.mp hc
      obtain ⟨hd, hσ⟩ := of_decide_eq_true heq
      exact hkeys ⟨hd.symm, hσ.symm⟩
    obtain ⟨hrows, -⟩ := replaceChunks_eq h
    unfold loadChunks
    rw [hrows, List.filter_append, List.filter_filter, hkept, hnew, List.append_nil]

theorem Sound.chunk_of_link (h : Sound db) {link : LinkRow} (hlink : link ∈ db.chunkBlocks) :
    ∃ c ∈ db.chunks, c.id = link.chunkId := by
  obtain ⟨c, hc, -, -, hid, -⟩ := h.sameDocument link hlink
  exact ⟨c, hc, hid⟩

/-- A chunk that stays keeps its links, and a new one has all it was stored with. -/
theorem linksOf_replaceChunks (h : Sound db) (hdraws : db.Draws ids chunks.length)
    (hdb : db.replaceChunks d σ chunks ids = some db') {c : ChunkRow} (hc : c ∈ db'.chunks) :
    (c ∈ db.chunks ∧ linksOf db'.chunkBlocks c.id = linksOf db.chunkBlocks c.id) ∨
      linksOf db'.chunkBlocks c.id = storedLinks c := by
  rcases hdraws with ⟨hlength, hnodup, hfresh⟩
  obtain ⟨hrows, hlinks, -⟩ := replaceChunks_eq hdb
  rw [hlinks, linksOf_insertLinks]
  rw [hrows] at hc
  rcases List.mem_append.mp hc with hkept | hnew
  · obtain ⟨hold, hother⟩ := List.mem_filter.mp hkept
    rw [decide_eq_true_eq] at hother
    left
    have hnone : linksOf ((newRows d σ chunks ids).flatMap linkRows) c.id = [] := by
      apply linksOf_eq_nil
      intro l hl heq
      obtain ⟨row, hrow, hlink⟩ := List.mem_flatMap.mp hl
      have hid : row.id ∈ ids := by
        rw [← newRows_ids (d := d) (σ := σ) hlength]
        exact List.mem_map_of_mem hrow
      rw [← chunkId_of_linkRows hlink, heq] at hid
      exact hfresh _ hid (h.chunkKeys.issued c hold)
    have hspared : c.id ∉
        (db.chunks.filter fun c => c.documentId = d ∧ c.strategy = σ).map (·.id) := by
      intro hgone
      obtain ⟨c', hc', hid⟩ := List.mem_map.mp hgone
      obtain ⟨hmem, hkeys⟩ := List.mem_filter.mp hc'
      rw [List.inj_on_of_nodup_map h.chunkKeys.nodup hmem hold hid, decide_eq_true_eq] at hkeys
      exact hother hkeys
    refine ⟨hold, ?_⟩
    rw [hnone, List.foldl_nil]
    unfold linksOf
    rw [List.filter_filter]
    apply List.filter_congr
    intro l _
    by_cases hid : l.chunkId = c.id
    · rw [hid, decide_eq_true hspared, Bool.and_true]
    · simp [hid]
  · right
    have hid : c.id ∈ ids := by
      rw [← newRows_ids (d := d) (σ := σ) hlength]
      exact List.mem_map_of_mem hnew
    have hnone : linksOf (db.chunkBlocks.filter fun l =>
        l.chunkId ∉ (db.chunks.filter fun c => c.documentId = d ∧ c.strategy = σ).map (·.id))
          c.id = [] := by
      apply linksOf_eq_nil
      intro l hl heq
      obtain ⟨c', hc', hid'⟩ := h.chunk_of_link (List.mem_of_mem_filter hl)
      exact hfresh _ hid (heq ▸ hid' ▸ h.chunkKeys.issued c' hc')
    rw [hnone, linksOf_flatMap ((newRows_ids hlength).symm ▸ hnodup) hnew]
    rfl

theorem Sound.replaceChunks (h : Sound db) (hdraws : db.Draws ids chunks.length)
    (hdb : db.replaceChunks d σ chunks ids = some db') (hchunks : Numbered chunks)
    (hblocks : ∀ c ∈ chunks, ∀ id ∈ c.blockIds, ∀ row ∈ db.blocks, row.block.id = id →
      row.documentId = d) : Sound db' := by
  have hreplaced := replaced_of_replaceChunks hdb
  obtain ⟨-, hlinks, hsameBlocks, hpages⟩ := replaceChunks_eq hdb
  constructor
  · rw [hsameBlocks]
    exact h.blockIds
  · rw [hsameBlocks, hreplaced.issued]
    exact fun b hb => List.mem_append_left _ (h.blocksIssued b hb)
  · rw [hsameBlocks, hpages]
    exact h.pages
  · exact h.chunkKeys.replaceChunks hdraws hdb
  · intro d' σ'
    rcases loadChunks_replaceChunks hdraws.1 hchunks hdb d' σ' with ⟨-, -, heq⟩ | heq
    · rw [heq]
      exact hchunks
    · rw [heq]
      exact h.numbered d' σ'
  · rw [hlinks]
    exact nodup_insertLinks (h.linkKeys.sublist (List.filter_sublist.map _))
  · intro link hlink
    rw [hsameBlocks]
    rcases (hreplaced.links _ _).mp ⟨link, hlink, rfl, rfl⟩ with
      ⟨l, hl, ⟨hchunk, hblock⟩, hkept⟩ | ⟨c, hnew, hchunk, hblock⟩
    · obtain ⟨c, hc, b, hb, hid, hid', hdocument⟩ := h.sameDocument l hl
      refine ⟨c, (hreplaced.mem_chunks c).mpr (.inl ⟨hc, ?_⟩), b, hb, hid.trans hchunk,
        hid'.trans hblock, hdocument⟩
      exact fun hgone => hkept c hc hgone (hid.trans hchunk)
    · obtain ⟨b, hb, hid⟩ := hreplaced.exist c hnew _ hblock
      refine ⟨c, (hreplaced.mem_chunks c).mpr (.inr hnew), b, hb, hchunk, hid, ?_⟩
      rw [hnew.1]
      exact hblocks c.chunk (List.of_mem_zip hnew.2.2).1 _ hblock b hb hid
  · intro c hc
    rcases linksOf_replaceChunks h hdraws hdb hc with ⟨hold, heq⟩ | heq
    · rw [heq]
      exact h.links c hold
    · exact .inl heq

end

section
variable {F : Type} [PyFloat F] {settings : Settings F} {w w' : World} {m : StageMessage}
  {c : Choice} {k k' : Execution}

theorem holds_of_sound (h : Sound w.db) (d : String) : Holds w.db d (w.db.loadBlocks d) := by
  refine ⟨loadBlocks_ids_nodup h.blockIds d, ?_, ?_⟩
  · intro b hb
    obtain ⟨row, hrow, -, rfl⟩ := mem_loadBlocks.mp hb
    exact h.blocksIssued row hrow
  · intro row hrow hid
    obtain ⟨b, hb, heq⟩ := List.mem_map.mp hid
    obtain ⟨row', hrow', hd, rfl⟩ := mem_loadBlocks.mp hb
    rw [← List.inj_on_of_nodup_map h.blockIds hrow' hrow heq]
    exact hd

theorem documentId_of_holds {d : String} {db : Database} {blocks : List (SourceBlock Char)}
    {chunks : List (Chunk Char)} {o : ChunkOptions F} (hholds : Holds db d blocks)
    (hchunks : chunkDocument σ blocks o = .ok chunks) :
    ∀ c ∈ chunks, ∀ id ∈ c.blockIds, ∀ row ∈ db.blocks, row.block.id = id →
      row.documentId = d := by
  intro c hc id hid row hrow heq
  have hcovers := chunkDocument_covers hholds.1 hchunks
  obtain ⟨b, hb, -, -, hbid⟩ := (hcovers.blockIds id).mp ⟨c, hc, hid⟩
  exact hholds.2.2 row hrow (List.mem_map.mpr ⟨b, hb, hbid.trans heq.symm⟩)

theorem draws_behind_pages {db : Database} {pageIds blockIds : List String} {pages : List ℤ}
    {blocks : List (SourceBlock Char)}
    (hdraws : db.Draws (pageIds ++ blockIds) (pages.length + blocks.length))
    (hpages : pageIds.length = pages.length) (d : String) :
    ((db.deleteBlocks d).insertPages d pages pageIds).Draws blockIds blocks.length := by
  rcases hdraws with ⟨hlength, hnodup, hfresh⟩
  rw [List.length_append] at hlength
  obtain ⟨-, hblocks, hdisjoint⟩ := List.nodup_append'.mp hnodup
  refine ⟨by omega, hblocks, fun id hid hmem => ?_⟩
  rcases List.mem_append.mp hmem with hold | hpage
  · exact hfresh id (List.mem_append_right _ hid) hold
  · exact hdisjoint hpage hid

theorem sound_of_step (h : Sound w.db) (hrelies : Relies w m k)
    (hstep : Step settings m w c k k' w') : Sound w'.db ∧ Relies w' m k' ∧ Grows w.db w'.db := by
  cases hstep with
  | detects | refuses | embedded =>
    exact ⟨h.setDocumentStatus _ _, trivial, grows_setDocumentStatus _ _ _⟩
  | parses _ _ hdraws hpages =>
    have hbehind := draws_behind_pages hdraws hpages m.documentId
    refine ⟨?_, trivial, ?_⟩
    · apply Sound.setDocumentStatus
      exact ((h.deleteBlocks _).insertPages _ _ _).insertBlocks hbehind
    · apply Grows.trans _ (grows_setDocumentStatus _ _ _)
      apply Grows.trans _ (grows_insertBlocks hbehind.2.2)
      exact (grows_deleteBlocks _ _).trans (grows_insertPages _ _ _ _)
  | parsesFlow _ _ _ hdraws =>
    refine ⟨(h.deleteBlocks _).insertBlocks hdraws, trivial, ?_⟩
    exact (grows_deleteBlocks _ _).trans (grows_insertBlocks hdraws.2.2)
  | loadsBlocks => exact ⟨h, holds_of_sound h _, Grows.refl _⟩
  | skips => exact ⟨h, hrelies, Grows.refl _⟩
  | stores _ _ hchunks hdraws hdb =>
    have hholds : Holds w.db m.documentId _ := hrelies
    have hgrows := grows_replaceChunks hdb
    have hnumbered := chunkDocument_numbered hholds.1 hchunks
    exact ⟨h.replaceChunks hdraws hdb hnumbered (documentId_of_holds hholds hchunks),
      Holds.grows hholds hgrows, hgrows⟩
  | passes | chunked | contextualizes => exact ⟨h, trivial, Grows.refl _⟩
  | embeds | embedsNothing | loadsChunks | noEmbeddings => exact ⟨h, trivial, Grows.refl _⟩
  | clears | upserts => exact ⟨h, trivial, Grows.refl _⟩

theorem sound_of_untouched {s : System World Execution} (h : Untouched s) : Sound s.world.db := by
  obtain ⟨-, documents, -, hworld⟩ := h
  rw [hworld]
  constructor
  · exact List.nodup_nil
  · exact List.forall_mem_nil _
  · exact List.forall_mem_nil _
  · exact ⟨List.nodup_nil, List.forall_mem_nil _⟩
  · exact fun _ _ => rfl
  · exact List.nodup_nil
  · exact List.forall_mem_nil _
  · exact List.forall_mem_nil _

theorem sound_of_reachable {ok : System World Execution → Event Choice → Prop}
    {s : System World Execution} (h : Reachable Untouched (exec (handlers settings)) ok s) :
    Sound s.world.db ∧ ∀ m k, Executing s m k → Relies s.world m k := by
  refine world_invariant (I := fun w => Sound w.db) (P := Relies) ?_ ?_ ?_ ?_ h
  · intro s hs
    refine ⟨sound_of_untouched hs, ?_⟩
    rintro m k ⟨run, w, hmem⟩
    simp [hs.1.2] at hmem
  · exact fun world m => trivial
  · intro s run i c m w k k' world' _ hat hsound hrelies hmove
    obtain ⟨hsound', hown, hgrows⟩ := sound_of_step hsound hrelies (step_of_move hmove)
    exact ⟨hsound', hown, fun m' l hl => hl.grows hgrows⟩
  · intro world documentId hsound
    exact ⟨hsound.setDocumentStatus _ _, fun m k hk => hk.grows (grows_setDocumentStatus _ _ _)⟩

/-- Whatever crashes, is redelivered or interleaved, the keys and references of the tables hold, the
    chunks of a document and strategy are numbered without a gap, and a chunk has all the links it was
    stored with or none. -/
theorem tables_stay_sound {s : System World Execution}
    (h : Reachable Untouched (exec (handlers settings)) (fun _ _ => True) s) : Sound s.world.db :=
  (sound_of_reachable h).1

end

theorem an_unlinked_chunk_is_sound :
    ∃ s, Reachable Untouched (exec (handlers oneStrategy)) (fun _ _ => True) s ∧
      s.world.db.chunks.map (·.id) = ["c1"] ∧ s.world.db.chunkBlocks.length = 0 ∧
        Sound s.world.db := by
  have hend : (run (exec (handlers oneStrategy)) uploaded
      (crashAfterPublish ++ onMessage 0 [.deliver 1, .call, .work (parsedAs "b2")])).map (fun s =>
        (s.world.db.chunks.map (·.id), s.world.db.chunkBlocks.length)) = some (["c1"], 0) := by
    decide +kernel
  obtain ⟨s, hrun, heq⟩ := Option.map_eq_some_iff.mp hend
  obtain ⟨hchunks, hlinks⟩ := Prod.mk.inj heq
  have hreach : Reachable Untouched (exec (handlers oneStrategy)) (fun _ _ => True) s :=
    reachable_of_run (.start uploaded_untouched) (fun _ _ _ => trivial) hrun
  exact ⟨s, hreach, hchunks, hlinks, tables_stay_sound hreach⟩

end Ragent.TableIntegrity
