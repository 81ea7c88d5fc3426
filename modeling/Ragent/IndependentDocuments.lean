import Ragent.StageOrder
import Ragent.TableIntegrity

set_option autoImplicit false

/-!
# Documents do not meet

The tables and the collections of the vector index are shared. What a handler reads and writes there
is of its document, and the cascades stay within it: for each document, a run of the system is one in
which no other was uploaded.
-/
namespace Ragent.IndependentDocuments
open Formats Stages Runner GuardedRuns Consumer PyNumbers SourceTypes FlattenedDocument ChunkDocument
  DocumentTables Database StageHandlers Executions BlockLinks TableIntegrity

/-- What the tables and the index hold of a document. -/
structure DocumentView where
  status : Option DocStatus
  pages : List PageRow
  blocks : List BlockRow
  chunks : List ChunkRow
  /-- The links to its blocks. -/
  links : List LinkRow
  points : String → Finset String

def linksTo (db : Database) (d : String) : List LinkRow :=
  db.chunkBlocks.filter fun l => ∃ b ∈ db.blocks, b.documentId = d ∧ b.block.id = l.blockId

def viewOf (w : World) (d : String) : DocumentView where
  status := w.db.documents d
  pages := w.db.pages.filter (·.documentId = d)
  blocks := w.db.blocks.filter (·.documentId = d)
  chunks := w.db.chunks.filter (·.documentId = d)
  links := linksTo w.db d
  points σ := w.points σ d

/-- The second database holds what the first has of a document, and nothing of others. -/
structure Mirrors (d : String) (db db' : Database) : Prop where
  status : db'.documents d = db.documents d
  pages : db'.pages = db.pages.filter (·.documentId = d)
  blocks : db'.blocks = db.blocks.filter (·.documentId = d)
  chunks : db'.chunks = db.chunks.filter (·.documentId = d)
  links : db'.chunkBlocks = linksTo db d
  issued : db'.issued ⊆ db.issued

structure Reflects (d : String) (w w' : World) : Prop where
  db : Mirrors d w.db w'.db
  points : ∀ σ, w'.points σ d = w.points σ d

variable {db db' db₁ : Database} {d d' σ : String}

theorem viewOf_eq {w w' : World} (h : Reflects d w w') : viewOf w' d = viewOf w d := by
  have hpages : w'.db.pages.filter (·.documentId = d) = w.db.pages.filter (·.documentId = d) := by
    rw [h.db.pages, List.filter_filter]
    simp only [Bool.and_self]
  have hblocks : w'.db.blocks.filter (·.documentId = d) =
      w.db.blocks.filter (·.documentId = d) := by
    rw [h.db.blocks, List.filter_filter]
    simp only [Bool.and_self]
  have hchunks : w'.db.chunks.filter (·.documentId = d) =
      w.db.chunks.filter (·.documentId = d) := by
    rw [h.db.chunks, List.filter_filter]
    simp only [Bool.and_self]
  have hlinks : linksTo w'.db d = linksTo w.db d := by
    unfold linksTo
    rw [h.db.links, linksTo, List.filter_filter]
    apply List.filter_congr
    intro l _
    rw [h.db.blocks, Bool.and_eq_right_iff_imp, decide_eq_true_eq, decide_eq_true_eq]
    rintro ⟨b, hb, hkeys⟩
    exact ⟨b, List.mem_filter.mpr ⟨hb, decide_eq_true hkeys.1⟩, hkeys⟩
  unfold viewOf
  rw [h.db.status, hpages, hblocks, hchunks, hlinks]
  simp only [h.points]

theorem mem_linksTo {l : LinkRow} : l ∈ linksTo db d ↔
    l ∈ db.chunkBlocks ∧ ∃ b ∈ db.blocks, b.documentId = d ∧ b.block.id = l.blockId := by
  unfold linksTo
  rw [List.mem_filter, decide_eq_true_eq]

theorem Mirrors.draws (h : Mirrors d db db') {ids : List String} {n : ℕ} (hdraws : db.Draws ids n) :
    db'.Draws ids n :=
  ⟨hdraws.1, hdraws.2.1, fun id hid hmem => hdraws.2.2 id hid (h.issued hmem)⟩

theorem Mirrors.pageId (h : Mirrors d db db') (pageNo : ℤ) :
    db'.pageId d pageNo = db.pageId d pageNo := by
  unfold Database.pageId
  rw [h.pages, List.find?_filter]
  congr 2
  funext p
  simp

theorem Mirrors.loadBlocks (h : Mirrors d db db') : db'.loadBlocks d = db.loadBlocks d := by
  unfold Database.loadBlocks
  rw [h.blocks, List.filter_filter]
  simp only [Bool.and_self]

theorem Mirrors.loadChunks (h : Mirrors d db db') (σ : String) :
    db'.loadChunks d σ = db.loadChunks d σ := by
  unfold Database.loadChunks
  rw [h.chunks, List.filter_filter]
  congr 2
  funext c
  by_cases hc : c.documentId = d <;> simp [hc]

theorem Mirrors.setDocumentStatus (h : Mirrors d db db') (status : DocStatus) :
    Mirrors d (db.setDocumentStatus d status) (db'.setDocumentStatus d status) := by
  refine ⟨?_, h.pages, h.blocks, h.chunks, h.links, h.issued⟩
  change Function.update db'.documents d _ d = Function.update db.documents d _ d
  rw [Function.update_self, Function.update_self, h.status]

theorem Mirrors.deleteBlocks (h : Mirrors d db db') :
    Mirrors d (db.deleteBlocks d) (db'.deleteBlocks d) := by
  constructor
  · exact h.status
  · exact h.pages
  · change db'.blocks.filter _ = (db.blocks.filter _).filter _
    rw [h.blocks, List.filter_filter, List.filter_filter]
    simp only [Bool.and_comm]
  · exact h.chunks
  · have hgone : (db'.deleteBlocks d).chunkBlocks = [] := by
      apply List.filter_eq_nil_iff.mpr
      intro l hl hkept
      rw [h.links] at hl
      obtain ⟨-, b, hb, hd, hid⟩ := mem_linksTo.mp hl
      refine of_decide_eq_true hkept (List.mem_map.mpr ⟨b, ?_, hid⟩)
      rw [h.blocks, List.filter_filter]
      exact List.mem_filter.mpr ⟨hb, by simp [hd]⟩
    have hnone : linksTo (db.deleteBlocks d) d = [] := by
      apply List.filter_eq_nil_iff.mpr
      intro l _ hkept
      obtain ⟨b, hb, hd, -⟩ := of_decide_eq_true hkept
      exact (mem_deleteBlocks.mp hb).2 hd
    rw [hgone, hnone]
  · exact h.issued

theorem Mirrors.insertPages (h : Mirrors d db db') (pages : List ℤ) (ids : List String) :
    Mirrors d (db.insertPages d pages ids) (db'.insertPages d pages ids) := by
  constructor
  · exact h.status
  · unfold Database.insertPages
    simp only [h.pageId]
    rw [h.pages, List.filter_append]
    congr 1
    symm
    apply List.filter_eq_self.mpr
    intro p hp
    obtain ⟨x, -, hx⟩ := List.mem_filterMap.mp hp
    rw [Option.ite_none_left_eq_some] at hx
    rw [← Option.some.inj hx.2]
    exact decide_eq_true rfl
  · exact h.blocks
  · exact h.chunks
  · exact h.links
  · exact List.append_subset.mpr ⟨List.subset_append_of_subset_left _ h.issued,
      List.subset_append_right _ _⟩

theorem linksTo_insertBlocks (hsound : Sound db) {blocks : List (SourceBlock Char)}
    {ids : List String} (hfresh : ∀ id ∈ ids, id ∉ db.issued) :
    linksTo (db.insertBlocks d' blocks ids) d = linksTo db d := by
  apply List.filter_congr
  intro l hl
  rw [decide_eq_decide]
  constructor
  · rintro ⟨b, hb, hd, hid⟩
    rcases mem_insertBlocks hb with hold | ⟨hnew, -⟩
    · exact ⟨b, hold, hd, hid⟩
    · obtain ⟨c, -, b', hb', -, hid', -⟩ := hsound.sameDocument l hl
      rw [hid, ← hid'] at hnew
      exact absurd (hsound.blocksIssued b' hb') (hfresh _ hnew)
  · rintro ⟨b, hb, hkeys⟩
    exact ⟨b, List.mem_append_left _ hb, hkeys⟩

theorem Mirrors.insertBlocks (h : Mirrors d db db') (hsound : Sound db)
    {blocks : List (SourceBlock Char)} {ids : List String}
    (hfresh : ∀ id ∈ ids, id ∉ db.issued) :
    Mirrors d (db.insertBlocks d blocks ids) (db'.insertBlocks d blocks ids) := by
  constructor
  · exact h.status
  · exact h.pages
  · unfold Database.insertBlocks
    simp only [h.pageId]
    rw [h.blocks, List.filter_append]
    congr 1
    symm
    apply List.filter_eq_self.mpr
    intro row hrow
    obtain ⟨b, -, rfl⟩ := List.mem_map.mp hrow
    exact decide_eq_true rfl
  · exact h.chunks
  · rw [linksTo_insertBlocks hsound hfresh]
    exact h.links
  · exact List.append_subset.mpr ⟨List.subset_append_of_subset_left _ h.issued,
      List.subset_append_right _ _⟩

section
variable {chunks : List (Chunk Char)} {ids : List String}

theorem block_of_newLink (hdb : db.replaceChunks d σ chunks ids = some db₁)
    (hblocks : ∀ c ∈ chunks, ∀ id ∈ c.blockIds, ∀ row ∈ db.blocks, row.block.id = id →
      row.documentId = d) :
    ∀ l ∈ (newRows d σ chunks ids).flatMap linkRows,
      ∃ b ∈ db.blocks, b.documentId = d ∧ b.block.id = l.blockId := by
  intro l hl
  obtain ⟨c, hc, hlink⟩ := List.mem_flatMap.mp hl
  have hnew := mem_newRows.mp hc
  have hblock := mem_linkRows.mp ⟨l, hlink, rfl⟩
  obtain ⟨b, hb, hid⟩ := (replaced_of_replaceChunks hdb).exist c hnew l.blockId hblock
  exact ⟨b, hb, hblocks c.chunk (List.of_mem_zip hnew.2.2).1 l.blockId hblock b hb hid, hid⟩

theorem linksTo_replaceChunks (hdb : db.replaceChunks d' σ chunks ids = some db₁) :
    linksTo db₁ d =
      (((newRows d' σ chunks ids).flatMap linkRows).filter fun l =>
          ∃ b ∈ db.blocks, b.documentId = d ∧ b.block.id = l.blockId).foldl insertLink
        ((linksTo db d).filter fun l =>
          l.chunkId ∉ (db.chunks.filter fun c => c.documentId = d' ∧ c.strategy = σ).map (·.id)) := by
  obtain ⟨-, hlinks, hsame, -⟩ := replaceChunks_eq hdb
  unfold linksTo
  rw [hlinks, hsame, filter_insertLinks fun _ blockId =>
    ∃ b ∈ db.blocks, b.documentId = d ∧ b.block.id = blockId]
  congr 1
  rw [List.filter_filter, List.filter_filter]
  simp only [Bool.and_comm]

theorem Mirrors.replaceChunks (h : Mirrors d db db')
    (hdb : db.replaceChunks d σ chunks ids = some db₁)
    (hblocks : ∀ c ∈ chunks, ∀ id ∈ c.blockIds, ∀ row ∈ db.blocks, row.block.id = id →
      row.documentId = d) :
    ∃ db₁', db'.replaceChunks d σ chunks ids = some db₁' ∧ Mirrors d db₁ db₁' := by
  have hnewLinks := block_of_newLink hdb hblocks
  have hexist : ∀ l ∈ (newRows d σ chunks ids).flatMap linkRows,
      l.blockId ∈ db'.blocks.map (·.block.id) := by
    intro l hl
    obtain ⟨b, hb, hd, hid⟩ := hnewLinks l hl
    rw [h.blocks]
    exact List.mem_map.mpr ⟨b, List.mem_filter.mpr ⟨hb, decide_eq_true hd⟩, hid⟩
  have hsome : ∃ db₁', db'.replaceChunks d σ chunks ids = some db₁' := by
    unfold Database.replaceChunks
    exact ⟨_, if_pos hexist⟩
  obtain ⟨db₁', hdb'⟩ := hsome
  refine ⟨db₁', hdb', ?_⟩
  have hreplaced := replaced_of_replaceChunks hdb
  have hreplaced' := replaced_of_replaceChunks hdb'
  obtain ⟨hrows, -, hsame, hpages⟩ := replaceChunks_eq hdb
  obtain ⟨hrows', hlinks', hsame', hpages'⟩ := replaceChunks_eq hdb'
  constructor
  · rw [hreplaced'.documents, hreplaced.documents]
    exact h.status
  · rw [hpages', hpages]
    exact h.pages
  · rw [hsame', hsame]
    exact h.blocks
  · have hnew : (newRows d σ chunks ids).filter (·.documentId = d) = newRows d σ chunks ids := by
      apply List.filter_eq_self.mpr
      intro c hc
      exact decide_eq_true (mem_newRows.mp hc).1
    rw [hrows', hrows, List.filter_append, hnew, h.chunks, List.filter_filter, List.filter_filter]
    simp only [Bool.and_comm]
  · have hall : (((newRows d σ chunks ids).flatMap linkRows).filter fun l =>
        ∃ b ∈ db.blocks, b.documentId = d ∧ b.block.id = l.blockId) =
          (newRows d σ chunks ids).flatMap linkRows := by
      apply List.filter_eq_self.mpr
      exact fun l hl => decide_eq_true (hnewLinks l hl)
    have hgone : (db'.chunks.filter fun c => c.documentId = d ∧ c.strategy = σ) =
        db.chunks.filter fun c => c.documentId = d ∧ c.strategy = σ := by
      rw [h.chunks, List.filter_filter]
      apply List.filter_congr
      intro c _
      by_cases hc : c.documentId = d <;> simp [hc]
    rw [hlinks', linksTo_replaceChunks hdb, hall, hgone, h.links]
  · rw [hreplaced'.issued, hreplaced.issued]
    exact List.append_subset.mpr ⟨List.subset_append_of_subset_left _ h.issued,
      List.subset_append_right _ _⟩

end

theorem Mirrors.setDocumentStatus_other (h : Mirrors d db db') (hne : d' ≠ d)
    (status : DocStatus) : Mirrors d (db.setDocumentStatus d' status) db' := by
  refine ⟨?_, h.pages, h.blocks, h.chunks, h.links, h.issued⟩
  change db'.documents d = Function.update db.documents d' _ d
  rw [Function.update_of_ne hne.symm]
  exact h.status

theorem Mirrors.deleteBlocks_other (h : Mirrors d db db') (hsound : Sound db) (hne : d' ≠ d) :
    Mirrors d (db.deleteBlocks d') db' := by
  refine ⟨h.status, h.pages, ?_, h.chunks, ?_, h.issued⟩
  · rw [h.blocks]
    change _ = (db.blocks.filter _).filter _
    rw [List.filter_filter]
    apply List.filter_congr
    intro b _
    by_cases hb : b.documentId = d
    · simp [hb, hne.symm]
    · simp [hb]
  · rw [h.links]
    have hkept : ∀ l, l ∈ db.chunkBlocks →
        (∃ b ∈ db.blocks, b.documentId = d ∧ b.block.id = l.blockId) →
          l ∈ (db.deleteBlocks d').chunkBlocks := by
      rintro l hl ⟨b, hb, hd, hid⟩
      exact (mem_deleteBlocks_links hsound.blockIds hb hid).mpr ⟨hl, fun heq => hne (heq ▸ hd)⟩
    unfold linksTo
    change _ = (db.chunkBlocks.filter _).filter _
    rw [List.filter_filter]
    apply List.filter_congr
    intro l hl
    rw [Bool.eq_iff_iff, Bool.and_eq_true, decide_eq_true_eq, decide_eq_true_eq]
    constructor
    · rintro ⟨b, hb, hd, hid⟩
      refine ⟨⟨b, mem_deleteBlocks.mpr ⟨hb, fun heq => hne (heq ▸ hd)⟩, hd, hid⟩, ?_⟩
      exact (List.mem_filter.mp (hkept l hl ⟨b, hb, hd, hid⟩)).2
    · rintro ⟨⟨b, hb, hkeys⟩, -⟩
      exact ⟨b, (mem_deleteBlocks.mp hb).1, hkeys⟩

theorem Mirrors.insertPages_other (h : Mirrors d db db') (hne : d' ≠ d) (pages : List ℤ)
    (ids : List String) : Mirrors d (db.insertPages d' pages ids) db' := by
  refine ⟨h.status, ?_, h.blocks, h.chunks, h.links, List.subset_append_of_subset_left _ h.issued⟩
  unfold Database.insertPages
  simp only
  rw [List.filter_append, h.pages, List.self_eq_append_right]
  apply List.filter_eq_nil_iff.mpr
  intro p hp
  obtain ⟨x, -, hx⟩ := List.mem_filterMap.mp hp
  rw [Option.ite_none_left_eq_some] at hx
  rw [← Option.some.inj hx.2]
  simpa using hne

theorem Mirrors.insertBlocks_other (h : Mirrors d db db') (hsound : Sound db) (hne : d' ≠ d)
    {blocks : List (SourceBlock Char)} {ids : List String}
    (hfresh : ∀ id ∈ ids, id ∉ db.issued) : Mirrors d (db.insertBlocks d' blocks ids) db' := by
  refine ⟨h.status, h.pages, ?_, h.chunks, ?_, List.subset_append_of_subset_left _ h.issued⟩
  · unfold Database.insertBlocks
    simp only
    rw [List.filter_append, h.blocks, List.self_eq_append_right]
    apply List.filter_eq_nil_iff.mpr
    intro row hrow
    obtain ⟨b, -, rfl⟩ := List.mem_map.mp hrow
    simpa using hne
  · rw [linksTo_insertBlocks hsound hfresh]
    exact h.links

theorem Mirrors.replaceChunks_other (h : Mirrors d db db') (hsound : Sound db) (hne : d' ≠ d)
    {chunks : List (Chunk Char)} {ids : List String}
    (hdb : db.replaceChunks d' σ chunks ids = some db₁)
    (hblocks : ∀ c ∈ chunks, ∀ id ∈ c.blockIds, ∀ row ∈ db.blocks, row.block.id = id →
      row.documentId = d') : Mirrors d db₁ db' := by
  have hreplaced := replaced_of_replaceChunks hdb
  obtain ⟨hrows, -, hsame, hpages⟩ := replaceChunks_eq hdb
  constructor
  · rw [hreplaced.documents]
    exact h.status
  · rw [hpages]
    exact h.pages
  · rw [hsame]
    exact h.blocks
  · have hnew : (newRows d' σ chunks ids).filter (·.documentId = d) = [] := by
      apply List.filter_eq_nil_iff.mpr
      intro c hc
      rw [(mem_newRows.mp hc).1]
      simpa using hne
    rw [hrows, List.filter_append, hnew, List.append_nil, h.chunks, List.filter_filter]
    apply List.filter_congr
    intro c _
    by_cases hc : c.documentId = d
    · simp [hc, hne.symm]
    · simp [hc]
  · have hnone : (((newRows d' σ chunks ids).flatMap linkRows).filter fun l =>
        ∃ b ∈ db.blocks, b.documentId = d ∧ b.block.id = l.blockId) = [] := by
      apply List.filter_eq_nil_iff.mpr
      intro l hl hown
      obtain ⟨b, hb, hd, hid⟩ := of_decide_eq_true hown
      obtain ⟨b', hb', hd', hid'⟩ := block_of_newLink hdb hblocks l hl
      rw [List.inj_on_of_nodup_map hsound.blockIds hb hb' (hid.trans hid'.symm), hd'] at hd
      exact hne hd
    have hspared : (linksTo db d).filter (fun l =>
        l.chunkId ∉ (db.chunks.filter fun c => c.documentId = d' ∧ c.strategy = σ).map (·.id)) =
          linksTo db d := by
      apply List.filter_eq_self.mpr
      intro l hl
      obtain ⟨hlink, b, hb, hd, hid⟩ := mem_linksTo.mp hl
      apply decide_eq_true
      intro hgone
      obtain ⟨c, hc, hcid⟩ := List.mem_map.mp hgone
      obtain ⟨hmem, hkeys⟩ := List.mem_filter.mp hc
      obtain ⟨c', hc', b', hb', hchunk, hblock, hdocument⟩ := hsound.sameDocument l hlink
      rw [List.inj_on_of_nodup_map hsound.blockIds hb' hb (hblock.trans hid.symm),
        List.inj_on_of_nodup_map hsound.chunkKeys.nodup hc' hmem (hchunk.trans hcid.symm),
        hd, (of_decide_eq_true hkeys).1] at hdocument
      exact hne hdocument.symm
    rw [linksTo_replaceChunks hdb, hnone, hspared]
    exact h.links
  · rw [hreplaced.issued]
    exact List.subset_append_of_subset_left _ h.issued

section
variable {F : Type} [PyFloat F] {settings : Settings F} {w w' v : World} {m : StageMessage}
  {c : Choice} {k k' : Execution}

theorem Reflects.setDocumentStatus (h : Reflects d w v) (status : DocStatus) :
    Reflects d (w.setDocumentStatus d status) (v.setDocumentStatus d status) :=
  ⟨h.db.setDocumentStatus status, h.points⟩

theorem Reflects.setDocumentStatus_other (h : Reflects d w v) (hne : d' ≠ d)
    (status : DocStatus) : Reflects d (w.setDocumentStatus d' status) v :=
  ⟨h.db.setDocumentStatus_other hne status, h.points⟩

theorem Reflects.deleteDocument (h : Reflects d w v) (σ : String) :
    Reflects d (w.deleteDocument σ d) (v.deleteDocument σ d) := by
  refine ⟨h.db, fun τ => ?_⟩
  by_cases hτ : τ = σ
  · subst hτ
    simp [World.deleteDocument]
  · simpa [World.deleteDocument, Function.update_of_ne hτ] using h.points τ

theorem Reflects.upsertChunks (h : Reflects d w v) (σ : String) (ids : List String) :
    Reflects d (w.upsertChunks σ d ids) (v.upsertChunks σ d ids) := by
  refine ⟨h.db, fun τ => ?_⟩
  by_cases hτ : τ = σ
  · subst hτ
    simp [World.upsertChunks, h.points τ]
  · simpa [World.upsertChunks, Function.update_of_ne hτ] using h.points τ

theorem Reflects.update_other (h : Reflects d w v) (hne : d' ≠ d) (σ : String)
    (ids : Finset String) :
    Reflects d { w with
      points := Function.update w.points σ (Function.update (w.points σ) d' ids) } v := by
  refine ⟨h.db, fun τ => ?_⟩
  by_cases hτ : τ = σ
  · subst hτ
    simpa [Function.update_of_ne hne.symm] using h.points τ
  · simpa [Function.update_of_ne hτ] using h.points τ

theorem move_of_step (h : Step settings m w c k k' w') :
    move settings m c (k, w) = some (k', w') := by
  unfold move
  cases h with
  | detects hstage => simp [hstage, detectStage]
  | refuses hstage => simp [hstage, detectStage]
  | passes hstage =>
    simp only [handled, List.mem_cons, List.not_mem_nil, or_false, not_or] at hstage
    obtain ⟨hdetect, hparse, hflow, hchunk, hcontextualize, hembed⟩ := hstage
    split <;> first | contradiction | rfl
  | parses hstage hrow hdraws hpages =>
    simp only [hstage, parseStage]
    rw [if_pos ⟨hrow, hdraws, hpages⟩]
  | parsesFlow hstage hrow hblocks hdraws =>
    simp only [hstage, parseFlowStage]
    rw [if_pos ⟨hrow, hblocks, hdraws⟩]
  | loadsBlocks hstage hblocks =>
    simp only [hstage, chunkStage]
    rw [if_neg hblocks]
  | skips hstage => simp [hstage, chunkStage]
  | stores hstage hσ hchunks hdraws hdb =>
    simp only [hstage, chunkStage]
    rw [if_neg hσ, hchunks]
    simp only
    rw [if_pos hdraws, hdb]
    rfl
  | chunked hstage => simp [hstage, chunkStage]
  | contextualizes hstage hstrategies hchunks =>
    simp only [hstage, contextualizeStage, hstrategies]
    rw [if_neg hchunks]
  | embeds hstage => simp [hstage, embedStage]
  | embedsNothing hstage hnil => simp [hstage, embedStage, hnil]
  | loadsChunks hstage hchunks =>
    simp only [hstage, embedStage]
  | noEmbeddings hstage => simp [hstage, embedStage]
  | clears hstage => simp [hstage, embedStage]
  | upserts hstage => simp [hstage, embedStage]
  | embedded hstage => simp [hstage, embedStage]

/-- A step for the document is one without the others. -/
theorem step_alone (hsound : Sound w.db) (hrelies : Relies w m k) (hm : m.documentId = d)
    (h : Reflects d w v) (hstep : Step settings m w c k k' w') :
    ∃ v', Step settings m v c k k' v' ∧ Reflects d w' v' := by
  subst hm
  have hrow : w.db.documents m.documentId ≠ none → v.db.documents m.documentId ≠ none := by
    rw [h.db.status]
    exact id
  cases hstep with
  | detects hstage family => exact ⟨_, .detects hstage family, h.setDocumentStatus _⟩
  | refuses hstage => exact ⟨_, .refuses hstage, h.setDocumentStatus _⟩
  | passes hstage => exact ⟨_, .passes hstage, h⟩
  | parses hstage hexists hdraws hpages =>
    have hbehind := draws_behind_pages hdraws hpages m.documentId
    refine ⟨_, .parses hstage (hrow hexists) (h.db.draws hdraws) hpages, ?_, h.points⟩
    apply Mirrors.setDocumentStatus
    exact (h.db.deleteBlocks.insertPages _ _).insertBlocks
      ((hsound.deleteBlocks _).insertPages _ _ _) hbehind.2.2
  | parsesFlow hstage hexists hblocks hdraws =>
    refine ⟨_, .parsesFlow hstage (hrow hexists) hblocks (h.db.draws hdraws), ?_, h.points⟩
    exact h.db.deleteBlocks.insertBlocks (hsound.deleteBlocks _) hdraws.2.2
  | loadsBlocks hstage hblocks =>
    rw [← h.db.loadBlocks] at hblocks ⊢
    exact ⟨_, .loadsBlocks hstage hblocks, h⟩
  | skips hstage => exact ⟨_, .skips hstage, h⟩
  | stores hstage hσ hchunks hdraws hdb =>
    obtain ⟨db', hdb', hmirrors⟩ := h.db.replaceChunks hdb (documentId_of_holds hrelies hchunks)
    exact ⟨_, .stores hstage hσ hchunks (h.db.draws hdraws) hdb', hmirrors, h.points⟩
  | chunked hstage => exact ⟨_, .chunked hstage, h⟩
  | contextualizes hstage hstrategies hchunks =>
    rw [← h.db.loadChunks] at hchunks
    exact ⟨_, .contextualizes hstage hstrategies hchunks, h⟩
  | embeds hstage => exact ⟨_, .embeds hstage, h⟩
  | embedsNothing hstage hnil =>
    rw [← h.db.loadChunks] at hnil
    exact ⟨_, .embedsNothing hstage hnil, h⟩
  | loadsChunks hstage hchunks =>
    rw [← h.db.loadChunks] at hchunks ⊢
    exact ⟨_, .loadsChunks hstage hchunks, h⟩
  | noEmbeddings hstage => exact ⟨_, .noEmbeddings hstage, h⟩
  | clears hstage => exact ⟨_, .clears hstage, h.deleteDocument _⟩
  | upserts hstage => exact ⟨_, .upserts hstage, h.upsertChunks _ _⟩
  | embedded hstage => exact ⟨_, .embedded hstage, h.setDocumentStatus _⟩

/-- A step for another document is none for this one. -/
theorem step_other (hsound : Sound w.db) (hrelies : Relies w m k) (hne : m.documentId ≠ d)
    (h : Reflects d w v) (hstep : Step settings m w c k k' w') : Reflects d w' v := by
  cases hstep with
  | detects | refuses | embedded => exact h.setDocumentStatus_other hne _
  | parses hstage hexists hdraws hpages =>
    have hbehind := draws_behind_pages hdraws hpages m.documentId
    have hdeleted := h.db.deleteBlocks_other hsound hne
    refine ⟨?_, h.points⟩
    apply Mirrors.setDocumentStatus_other _ hne
    exact (hdeleted.insertPages_other hne _ _).insertBlocks_other
      ((hsound.deleteBlocks _).insertPages _ _ _) hne hbehind.2.2
  | parsesFlow hstage hexists hblocks hdraws =>
    have hdeleted := h.db.deleteBlocks_other hsound hne
    exact ⟨hdeleted.insertBlocks_other (hsound.deleteBlocks _) hne hdraws.2.2, h.points⟩
  | stores hstage hσ hchunks hdraws hdb =>
    exact ⟨h.db.replaceChunks_other hsound hne hdb (documentId_of_holds hrelies hchunks),
      h.points⟩
  | clears => exact h.update_other hne _ _
  | upserts => exact h.update_other hne _ _
  | passes | loadsBlocks | skips | chunked | contextualizes => exact h
  | embeds | embedsNothing | loadsChunks | noEmbeddings => exact h

variable {record : Record} {phase : Phase Execution} {worker : WorkerId}
  {e : Effect World Execution} {t : Token Execution} {a : Act Choice}

theorem call_alone (hm : m.documentId = d) (h : Reflects d w v)
    (hcall : callReturns (handlers settings) m worker record w phase = some e) :
    ∃ v', callReturns (handlers settings) m worker record v phase = some { e with world := v' } ∧
      Reflects d e.world v' := by
  subst hm
  cases phase with
  | failing exc =>
    unfold callReturns at hcall ⊢
    simp only at hcall ⊢
    split at hcall <;> cases hcall <;> exact ⟨v, rfl, h⟩
  | handling k => cases hcall
  | condemning reason =>
    cases hcall
    exact ⟨_, rfl, h.setDocumentStatus .failed⟩
  | _ =>
    cases hcall
    exact ⟨v, rfl, h⟩

theorem call_other (hne : m.documentId ≠ d) (h : Reflects d w v)
    (hcall : callReturns (handlers settings) m worker record w phase = some e) :
    Reflects d e.world v := by
  cases phase with
  | failing exc =>
    unfold callReturns at hcall
    simp only at hcall
    split at hcall <;> cases hcall <;> exact h
  | handling k => cases hcall
  | condemning reason =>
    cases hcall
    exact h.setDocumentStatus_other hne .failed
  | _ =>
    cases hcall
    exact h

variable {live : WorkerId → Option (List String)}

def Grounded (w : World) (t : Token Execution) : Prop :=
  ∀ worker k, t.place = .inHand worker (.handling k) → Relies w t.message k

theorem act_alone (hsound : Sound w.db) (hgrounded : Grounded w t) (hm : t.message.documentId = d)
    (h : Reflects d w v) (hact : act (handlers settings) live t record w a = some e) :
    ∃ v', act (handlers settings) live t record v a = some { e with world := v' } ∧
      Reflects d e.world v' := by
  cases turn_of_act hact with
  | deliver hlive hstage =>
    refine ⟨v, ?_, h⟩
    simp only [act, hlive]
    rw [if_pos hstage]
  | @work m worker c k k' w' hmove =>
    obtain ⟨v', hstep, hreflects⟩ :=
      step_alone hsound (hgrounded worker k rfl) hm h (step_of_move hmove)
    refine ⟨v', Option.map_eq_some_iff.mpr ⟨_, move_of_step hstep, rfl⟩, hreflects⟩
  | finish hresult => exact ⟨v, Option.map_eq_some_iff.mpr ⟨_, hresult, rfl⟩, h⟩
  | fail exc => exact ⟨v, rfl, h⟩
  | call hcall => exact call_alone hm h hcall
  | @raises m worker phase e' done hcall =>
    obtain ⟨v', hcall', hreflects⟩ := call_alone hm h hcall
    cases done with
    | false => exact ⟨v, Option.map_eq_some_iff.mpr ⟨_, hcall', rfl⟩, h⟩
    | true => exact ⟨v', Option.map_eq_some_iff.mpr ⟨_, hcall', rfl⟩, hreflects⟩
  | expire => exact ⟨v, rfl, h⟩

theorem act_other (hsound : Sound w.db) (hgrounded : Grounded w t)
    (hne : t.message.documentId ≠ d) (h : Reflects d w v)
    (hact : act (handlers settings) live t record w a = some e) : Reflects d e.world v := by
  cases turn_of_act hact with
  | @work m worker c k k' w' hmove =>
    exact step_other hsound (hgrounded worker k rfl) hne h (step_of_move hmove)
  | call hcall => exact call_other hne h hcall
  | @raises m worker phase e' done hcall =>
    cases done with
    | false => exact h
    | true =>
      have hreflects : Reflects d e'.world v := call_other hne h hcall
      exact hreflects
  | deliver | finish | fail | expire => exact h

def runOf (d : String) (r : RunState Execution) : RunState Execution :=
  if ∀ first ∈ r.record.published.head?, first.documentId = d then r else {}

structure Alone (d : String) (s s' : System World Execution) : Prop where
  live : s'.live = s.live
  runs : ∀ run, s'.runs run = runOf d (s.runs run)
  world : Reflects d s.world s'.world

def OnlyUploads (d : String) : Event Choice → Prop
  | .upload documentId _ _ _ => documentId = d
  | _ => True

theorem runOf_of_head {r : RunState Execution} {first : StageMessage}
    (h : r.record.published.head? = some first) :
    runOf d r = if first.documentId = d then r else {} := by
  unfold runOf
  rw [h]
  by_cases hd : first.documentId = d
  · rw [if_pos hd, if_pos]
    rintro _ ⟨⟩
    exact hd
  · rw [if_neg hd, if_neg]
    exact fun hall => hd (hall first rfl)

theorem runOf_of_unpublished {r : RunState Execution} (h : r.record.published = []) :
    runOf d r = r := by
  unfold runOf
  rw [h]
  exact if_pos nofun

theorem runOf_release (r : RunState Execution) (worker : WorkerId) :
    runOf d (r.release worker) = (runOf d r).release worker := by
  unfold runOf
  change (if ∀ first ∈ r.record.published.head?, first.documentId = d then _ else _) = _
  split_ifs <;> rfl

section
variable {runs runs' : String → RunState Execution} {r r' : RunState Execution} {run : String}

theorem runs_update (h : ∀ run, runs' run = runOf d (runs run)) (hr : r' = runOf d r)
    (run' : String) :
    Function.update runs' run r' run' = runOf d (Function.update runs run r run') := by
  by_cases hrun : run' = run
  · subst hrun
    rw [Function.update_self, Function.update_self]
    exact hr
  · rw [Function.update_of_ne hrun, Function.update_of_ne hrun]
    exact h run'

theorem runs_update_other (h : ∀ run, runs' run = runOf d (runs run)) (hr : runs' run = runOf d r)
    (run' : String) : runs' run' = runOf d (Function.update runs run r run') := by
  by_cases hrun : run' = run
  · subst hrun
    rw [Function.update_self]
    exact hr
  · rw [Function.update_of_ne hrun]
    exact h run'

end

theorem head_of_token {ok : System World Execution → Event Choice → Prop}
    {s : System World Execution} (h : Reachable Untouched (exec (handlers settings)) ok s)
    {run : String} {i : ℕ} (ht : (s.runs run).tokens[i]? = some t) :
    ∃ first, (s.runs run).record.published.head? = some first ∧
      t.message.documentId = first.documentId ∧
      ∀ a e, Turn (handlers settings) s.live (s.runs run).record s.world t a e →
        e.record.published.head? = some first := by
  have hlogged : ∃ log, Reachable StageOrder.Start
      (recorded (exec (handlers settings)) StageOrder.noteCompletion) (fun s e => ok s.1 e) (s, log) :=
    exists_recorded (fun s hs => ⟨fun _ => [], hs.1, rfl⟩) h
  obtain ⟨log, hlog⟩ := hlogged
  have hinOrder := StageOrder.inOrder_of_reachable (hlog.mono fun _ _ _ => trivial) run
  have hplaced := hinOrder.tokens t (List.mem_of_getElem? ht)
  obtain ⟨first, hhead, hid, -⟩ := hplaced.own_origin
  refine ⟨first, hhead, hid, fun a e hturn => ?_⟩
  obtain ⟨more, hmore⟩ := (StageOrder.left_of_turn hturn hinOrder.logged hplaced).published
  rw [← hmore, List.head?_append]
  exact congrArg (Option.or · _) hhead

theorem run_of_unpublished {ok : System World Execution → Event Choice → Prop}
    {s : System World Execution} (h : Reachable Untouched (exec (handlers settings)) ok s)
    {run : String} (hnone : (s.runs run).record.published = []) : s.runs run = {} := by
  induction h with
  | start hinit => rw [hinit.1.2]
  | @next s s' e hreach _ hexec ih =>
    rcases run_cases hexec run with ⟨heq, -⟩ | ⟨_, _, _, -, -, heq⟩ | ⟨w, -, heq⟩ |
      ⟨i, a, t, eff, -, ht, hturn, heq⟩
    · rw [heq] at hnone ⊢
      exact ih hnone
    · rw [heq] at hnone
      exact absurd hnone (List.append_ne_nil_of_right_ne_nil _ (List.cons_ne_nil _ _))
    · rw [heq] at hnone ⊢
      rw [ih hnone]
      rfl
    · obtain ⟨first, -, -, hstays⟩ := head_of_token hreach ht
      have hhead : (s'.runs run).record.published.head? = some first := by
        rw [heq]
        exact hstays a eff hturn
      rw [hnone] at hhead
      cases hhead

theorem alone_step {s s' u : System World Execution} {e : Event Choice}
    (h : Reachable Untouched (exec (handlers settings)) (fun _ _ => True) s)
    (hexec : exec (handlers settings) s e = some s') (halone : Alone d s u) :
    Alone d s' u ∨ ∃ u', OnlyUploads d e ∧ exec (handlers settings) u e = some u' ∧
      Alone d s' u' := by
  obtain ⟨hsound, hrelies⟩ := sound_of_reachable h
  obtain ⟨hlive, hruns, hworld⟩ := halone
  cases e with
  | upload documentId run pipelineVersion traceId =>
    simp only [exec, Option.ite_none_right_eq_some, Option.some.injEq] at hexec
    obtain ⟨hnew, rfl⟩ := hexec
    have hown : u.runs run = s.runs run := (hruns run).trans (runOf_of_unpublished hnew)
    have hhead : ((s.runs run).upload (uploadMessage documentId run pipelineVersion
        traceId)).record.published.head? =
          some (uploadMessage documentId run pipelineVersion traceId) := by
      change ((s.runs run).record.published ++ _).head? = _
      rw [hnew]
      rfl
    by_cases hd : documentId = d
    · right
      refine ⟨_, hd, if_pos (hown ▸ hnew), hlive, runs_update hruns ?_, hworld⟩
      rw [runOf_of_head hhead, hown]
      exact (if_pos hd).symm
    · left
      refine ⟨hlive, runs_update_other hruns ?_, hworld⟩
      rw [runOf_of_head hhead, hown, run_of_unpublished h hnew]
      exact (if_neg hd).symm
  | start worker stages =>
    simp only [exec, Option.ite_none_right_eq_some, Option.some.injEq] at hexec
    obtain ⟨hnone, rfl⟩ := hexec
    right
    refine ⟨_, trivial, if_pos (hlive ▸ hnone), ?_, hruns, hworld⟩
    change Function.update u.live worker _ = Function.update s.live worker _
    rw [hlive]
  | crash worker =>
    simp only [exec, Option.ite_none_left_eq_some, Option.some.injEq] at hexec
    obtain ⟨hsome, rfl⟩ := hexec
    right
    refine ⟨_, trivial, if_neg (hlive ▸ hsome), ?_, fun run => ?_, hworld⟩
    · change Function.update u.live worker _ = Function.update s.live worker _
      rw [hlive]
    · change (u.runs run).release worker = runOf d ((s.runs run).release worker)
      rw [hruns run, runOf_release]
  | act run i a =>
    obtain ⟨t, ht, hact⟩ := Option.bind_eq_some_iff.mp hexec
    obtain ⟨eff, heff, rfl⟩ := Option.map_eq_some_iff.mp hact
    obtain ⟨first, hhead, hid, hstays⟩ := head_of_token h ht
    have hafter : ((s.runs run).replace i eff).record.published.head? = some first :=
      hstays a eff (turn_of_act heff)
    have hgrounded : Grounded s.world t := by
      intro worker k hplace
      refine hrelies t.message k ⟨run, worker, ?_⟩
      rw [← hplace]
      exact List.mem_of_getElem? ht
    by_cases hd : first.documentId = d
    · right
      have hown : u.runs run = s.runs run := by
        rw [hruns run, runOf_of_head hhead, if_pos hd]
      obtain ⟨v', hact', hreflects⟩ := act_alone hsound hgrounded (hid.trans hd) hworld heff
      rw [← hlive] at hact'
      have hexec' : exec (handlers settings) u (.act run i a) = some
          { u with
            runs := Function.update u.runs run ((s.runs run).replace i eff)
            world := v' } := by
        change (u.runs run).tokens[i]?.bind _ = _
        rw [hown, ht, Option.bind_some, hact']
        rfl
      refine ⟨_, trivial, hexec', hlive, runs_update hruns ?_, hreflects⟩
      rw [runOf_of_head hafter, if_pos hd]
    · left
      have hworld' := act_other hsound hgrounded (fun heq => hd (hid.symm.trans heq)) hworld heff
      refine ⟨hlive, runs_update_other hruns ?_, hworld'⟩
      rw [runOf_of_head hafter, if_neg hd, hruns run, runOf_of_head hhead, if_neg hd]

/-- Whatever happens to other documents, a document fares as in a run of the system where it is the
    only one that is uploaded: the same rows and messages, and the same rows and points of its own. -/
theorem documents_are_independent (d : String) {s : System World Execution}
    (h : Reachable Untouched (exec (handlers settings)) (fun _ _ => True) s) :
    ∃ u, Reachable Untouched (exec (handlers settings)) (fun _ e => OnlyUploads d e) u ∧
      u.live = s.live ∧ (∀ run, u.runs run = runOf d (s.runs run)) ∧
        viewOf u.world d = viewOf s.world d := by
  have hinit : ∀ s, Untouched s → ∃ u, Untouched u ∧ Alone d s u := by
    intro s hs
    refine ⟨s, hs, rfl, fun run => ?_, ⟨rfl, ?_, ?_, ?_, ?_, List.Subset.refl _⟩, fun _ => rfl⟩
    · rw [hs.1.2]
      exact (runOf_of_unpublished rfl).symm
    all_goals
      obtain ⟨-, documents, -, hworld⟩ := hs
      rw [hworld]
      rfl
  obtain ⟨u, hu, halone⟩ := Reachable.simulated hinit
    (fun s t e u hreach _ hexec halone => (alone_step hreach hexec halone).imp_right
      fun ⟨u', hok, hexec', hnext⟩ => ⟨e, u', hok, hexec', hnext⟩) h
  exact ⟨u, hu, halone.live, halone.runs, viewOf_eq halone.world⟩

end

def parsedFlow (run blockId : String) : List (Event Choice) :=
  ([.deliver 0, .call, .work (.format (some .flow)), .finish, .call, .call, .call, .call,
    .deliver 0, .call, .work (parsedAs blockId)] : List (Act Choice)).map (.act run 0)

theorem two_documents_side_by_side :
    ∃ s u, Reachable Untouched (exec (handlers oneStrategy)) (fun _ _ => True) s ∧
      s.world.db.blocks.map (·.documentId) = ["other", "document"] ∧
      Reachable Untouched (exec (handlers oneStrategy)) (fun _ e => OnlyUploads "document" e) u ∧
      viewOf u.world "document" = viewOf s.world "document" := by
  have hend : (run (exec (handlers oneStrategy)) uploaded
      ([.upload "document" "run" "v1" "trace", .upload "other" "run2" "v1" "trace",
        .start 0 everyStage] ++ parsedFlow "run2" "b1" ++ parsedFlow "run" "b2")).map (fun s =>
          s.world.db.blocks.map (·.documentId)) = some ["other", "document"] := by
    decide +kernel
  obtain ⟨s, hrun, hblocks⟩ := Option.map_eq_some_iff.mp hend
  have hreach : Reachable Untouched (exec (handlers oneStrategy)) (fun _ _ => True) s :=
    reachable_of_run (.start uploaded_untouched) (fun _ _ _ => trivial) hrun
  obtain ⟨u, hu, -, -, hview⟩ := documents_are_independent "document" hreach
  exact ⟨s, u, hreach, hblocks, hu, hview⟩

end Ragent.IndependentDocuments
