import Ragent.Executions
import Ragent.StageHandlers

set_option autoImplicit false

/-!
# Chunks and their blocks

`chunk_blocks` ties every chunk to the blocks it was made of. Each handler keeps the tie on its own,
but `parse` replaces all blocks of the document, and the cascade takes the links of the chunks that
are already there.
-/
namespace Ragent.BlockLinks
open Formats Stages Runner GuardedRuns Consumer SourceTypes FlattenedDocument ChunkCoverage
  ChunkDocument PyNumbers DocumentTables StageHandlers Executions

/-- Every chunk has a block, and all of its blocks exist and are of its document. -/
def ChunksLinked (db : Database) : Prop :=
  ∀ c ∈ db.chunks, (∃ link ∈ db.chunkBlocks, link.chunkId = c.id) ∧
    ∀ link ∈ db.chunkBlocks, link.chunkId = c.id →
      ∃ b ∈ db.blocks, b.block.id = link.blockId ∧ b.documentId = c.documentId

structure Linked (db : Database) : Prop where
  blockIds : (db.blocks.map (·.block.id)).Nodup
  blocksIssued : ∀ b ∈ db.blocks, b.block.id ∈ db.issued
  chunkIds : (db.chunks.map (·.id)).Nodup
  chunksIssued : ∀ c ∈ db.chunks, c.id ∈ db.issued
  linked : ∀ c ∈ db.chunks, ∃ link ∈ db.chunkBlocks, link.chunkId = c.id
  sameDocument : ∀ link ∈ db.chunkBlocks, ∃ c ∈ db.chunks, ∃ b ∈ db.blocks,
    c.id = link.chunkId ∧ b.block.id = link.blockId ∧ b.documentId = c.documentId

/-- Blocks that `chunk_stage` holds are of its document, as far as they are still there. -/
def Holds (db : Database) (documentId : String) (blocks : List (SourceBlock Char)) : Prop :=
  (blocks.map (·.id)).Nodup ∧ (∀ b ∈ blocks, b.id ∈ db.issued) ∧
    ∀ row ∈ db.blocks, row.block.id ∈ blocks.map (·.id) → row.documentId = documentId

structure Grows (db db' : Database) : Prop where
  issued : db.issued ⊆ db'.issued
  blocks : ∀ row ∈ db'.blocks, row ∈ db.blocks ∨ row.block.id ∉ db.issued

variable {db db' : Database} {d σ : String}

theorem Linked.chunksLinked (h : Linked db) : ChunksLinked db := by
  intro c hc
  refine ⟨h.linked c hc, fun link hlink hid => ?_⟩
  obtain ⟨c', hc', b, hb, hchunk, hblock, hdocument⟩ := h.sameDocument link hlink
  obtain rfl : c' = c := List.inj_on_of_nodup_map h.chunkIds hc' hc (hchunk.trans hid)
  exact ⟨b, hb, hblock, hdocument⟩

theorem Grows.refl (db : Database) : Grows db db :=
  ⟨List.Subset.refl _, fun _ hrow => Or.inl hrow⟩

theorem Grows.trans {db'' : Database} (h : Grows db db') (h' : Grows db' db'') : Grows db db'' := by
  refine ⟨List.Subset.trans h.issued h'.issued, fun row hrow => ?_⟩
  rcases h'.blocks row hrow with hrow | hnew
  · exact h.blocks row hrow
  · exact Or.inr fun hold => hnew (h.issued hold)

theorem Holds.grows {blocks : List (SourceBlock Char)} (h : Holds db d blocks) (hg : Grows db db') :
    Holds db' d blocks := by
  obtain ⟨hnodup, hissued, hdocument⟩ := h
  refine ⟨hnodup, fun b hb => hg.issued (hissued b hb), fun row hrow hid => ?_⟩
  rcases hg.blocks row hrow with hold | hnew
  · exact hdocument row hold hid
  · obtain ⟨b, hb, heq⟩ := List.mem_map.mp hid
    exact absurd (heq ▸ hissued b hb) hnew

theorem Linked.setDocumentStatus (h : Linked db) (d : String) (status : DocStatus) :
    Linked (db.setDocumentStatus d status) :=
  ⟨h.blockIds, h.blocksIssued, h.chunkIds, h.chunksIssued, h.linked, h.sameDocument⟩

theorem mem_deleteBlocks {row : BlockRow} :
    row ∈ (db.deleteBlocks d).blocks ↔ row ∈ db.blocks ∧ row.documentId ≠ d := by
  simp [Database.deleteBlocks]

theorem mem_deleteBlocks_links (hids : (db.blocks.map (·.block.id)).Nodup) {link : LinkRow}
    {b : BlockRow} (hb : b ∈ db.blocks) (hid : b.block.id = link.blockId) :
    link ∈ (db.deleteBlocks d).chunkBlocks ↔ link ∈ db.chunkBlocks ∧ b.documentId ≠ d := by
  simp only [Database.deleteBlocks, List.mem_filter, decide_eq_true_eq, List.mem_map, not_exists,
    not_and]
  refine and_congr_right fun _ => ⟨fun h hd => h b ⟨hb, hd⟩ hid, fun hd row hrow heq => ?_⟩
  rw [List.inj_on_of_nodup_map hids hrow.1 hb (heq.trans hid.symm)] at hrow
  exact hd hrow.2

theorem Linked.deleteBlocks (h : Linked db) (hnone : ∀ c ∈ db.chunks, c.documentId ≠ d) :
    Linked (db.deleteBlocks d) := by
  have hkept : ∀ link ∈ db.chunkBlocks, link ∈ (db.deleteBlocks d).chunkBlocks ∧
      ∃ c ∈ db.chunks, ∃ b ∈ (db.deleteBlocks d).blocks,
        c.id = link.chunkId ∧ b.block.id = link.blockId ∧ b.documentId = c.documentId := by
    intro link hlink
    obtain ⟨c, hc, b, hb, hchunk, hblock, hdocument⟩ := h.sameDocument link hlink
    have hne : b.documentId ≠ d := hdocument ▸ hnone c hc
    exact ⟨(mem_deleteBlocks_links h.blockIds hb hblock).mpr ⟨hlink, hne⟩, c, hc, b,
      mem_deleteBlocks.mpr ⟨hb, hne⟩, hchunk, hblock, hdocument⟩
  constructor
  · exact h.blockIds.sublist (List.filter_sublist.map _)
  · exact fun b hb => h.blocksIssued b (mem_deleteBlocks.mp hb).1
  · exact h.chunkIds
  · exact h.chunksIssued
  · intro c hc
    obtain ⟨link, hlink, hid⟩ := h.linked c hc
    exact ⟨link, (hkept link hlink).1, hid⟩
  · exact fun link hlink => (hkept link (List.mem_of_mem_filter hlink)).2

/-- The transaction of `parse` cuts off exactly the chunks of its document. -/
theorem deleteBlocks_keeps_links_iff (h : Linked db) :
    (∀ c ∈ db.chunks, ∃ link ∈ (db.deleteBlocks d).chunkBlocks, link.chunkId = c.id) ↔
      ∀ c ∈ db.chunks, c.documentId ≠ d := by
  constructor
  · intro hkept c hc hd
    obtain ⟨link, hlink, hid⟩ := hkept c hc
    obtain ⟨c', hc', b, hb, hchunk, hblock, hdocument⟩ :=
      h.sameDocument link (List.mem_of_mem_filter hlink)
    obtain rfl : c' = c := List.inj_on_of_nodup_map h.chunkIds hc' hc (hchunk.trans hid)
    exact ((mem_deleteBlocks_links h.blockIds hb hblock).mp hlink).2 (hdocument.trans hd)
  · intro hnone
    exact (h.deleteBlocks hnone).linked

theorem Linked.insertPages (h : Linked db) (d : String) (pages : List ℤ) (ids : List String) :
    Linked (db.insertPages d pages ids) :=
  ⟨h.blockIds, fun b hb => List.mem_append_left _ (h.blocksIssued b hb), h.chunkIds,
    fun c hc => List.mem_append_left _ (h.chunksIssued c hc), h.linked, h.sameDocument⟩

theorem mem_insertBlocks {blocks : List (SourceBlock Char)} {ids : List String} {row : BlockRow}
    (hrow : row ∈ (db.insertBlocks d blocks ids).blocks) :
    row ∈ db.blocks ∨ (row.block.id ∈ ids ∧ row.documentId = d) := by
  rcases List.mem_append.mp hrow with hold | hnew
  · exact Or.inl hold
  · obtain ⟨b, hb, rfl⟩ := List.mem_map.mp hnew
    exact Or.inr ⟨(List.of_mem_zip hb).2, rfl⟩

theorem Linked.insertBlocks (h : Linked db) {blocks : List (SourceBlock Char)} {ids : List String}
    (hdraws : db.Draws ids blocks.length) : Linked (db.insertBlocks d blocks ids) := by
  obtain ⟨hlen, hnodup, hfresh⟩ := hdraws
  constructor
  · have hids : (db.insertBlocks d blocks ids).blocks.map (·.block.id) =
        db.blocks.map (·.block.id) ++ ids := by
      unfold Database.insertBlocks
      rw [List.map_append, List.map_map]
      exact congrArg _ (List.map_snd_zip (by omega))
    rw [hids]
    refine h.blockIds.append hnodup fun id hid hid' => hfresh id hid' ?_
    obtain ⟨row, hrow, rfl⟩ := List.mem_map.mp hid
    exact h.blocksIssued row hrow
  · intro row hrow
    rcases mem_insertBlocks hrow with hold | ⟨hnew, -⟩
    · exact List.mem_append_left _ (h.blocksIssued row hold)
    · exact List.mem_append_right _ hnew
  · exact h.chunkIds
  · exact fun c hc => List.mem_append_left _ (h.chunksIssued c hc)
  · exact h.linked
  · intro link hlink
    obtain ⟨c, hc, b, hb, hkeys⟩ := h.sameDocument link hlink
    exact ⟨c, hc, b, List.mem_append_left _ hb, hkeys⟩

theorem grows_insertBlocks {blocks : List (SourceBlock Char)} {ids : List String}
    (hfresh : ∀ id ∈ ids, id ∉ db.issued) : Grows db (db.insertBlocks d blocks ids) := by
  refine ⟨fun id hid => List.mem_append_left _ hid, fun row hrow => ?_⟩
  exact (mem_insertBlocks hrow).imp_right fun hnew => hfresh _ hnew.1

theorem grows_setDocumentStatus (db : Database) (d : String) (status : DocStatus) :
    Grows db (db.setDocumentStatus d status) :=
  ⟨List.Subset.refl _, fun _ hrow => Or.inl hrow⟩

theorem grows_deleteBlocks (db : Database) (d : String) : Grows db (db.deleteBlocks d) :=
  ⟨List.Subset.refl _, fun _ hrow => Or.inl (mem_deleteBlocks.mp hrow).1⟩

theorem grows_insertPages (db : Database) (d : String) (pages : List ℤ) (ids : List String) :
    Grows db (db.insertPages d pages ids) :=
  ⟨fun _ hid => List.mem_append_left _ hid, fun _ hrow => Or.inl hrow⟩

theorem Linked.replaceChunks (h : Linked db) {chunks : List (Chunk Char)} {ids : List String}
    (hdraws : db.Draws ids chunks.length) (hdb : db.replaceChunks d σ chunks ids = some db')
    (hnonempty : ∀ c ∈ chunks, c.blockIds ≠ [])
    (hblocks : ∀ c ∈ chunks, ∀ id ∈ c.blockIds, ∀ row ∈ db.blocks, row.block.id = id →
      row.documentId = d) : Linked db' := by
  have hkeys := Database.Keys.replaceChunks ⟨h.chunkIds, h.chunksIssued⟩ hdraws hdb
  have hreplaced := Database.replaced_of_replaceChunks hdb
  constructor
  · rw [hreplaced.blocks]
    exact h.blockIds
  · rw [hreplaced.blocks, hreplaced.issued]
    exact fun b hb => List.mem_append_left _ (h.blocksIssued b hb)
  · exact hkeys.nodup
  · exact hkeys.issued
  · intro c hc
    have hlink : ∃ blockId, ∃ l ∈ db'.chunkBlocks, l.chunkId = c.id ∧ l.blockId = blockId := by
      rcases (hreplaced.mem_chunks c).mp hc with ⟨hold, hother⟩ | hnew
      · obtain ⟨link, hlink, hid⟩ := h.linked c hold
        refine ⟨link.blockId, (hreplaced.links _ _).mpr (.inl ⟨link, hlink, ⟨hid, rfl⟩, ?_⟩)⟩
        intro c' hc' hgone heq
        exact hother (List.inj_on_of_nodup_map h.chunkIds hc' hold heq ▸ hgone)
      · have hchunk := (List.of_mem_zip hnew.2.2).1
        obtain ⟨id, hid⟩ := List.exists_mem_of_ne_nil _ (hnonempty _ hchunk)
        exact ⟨id, (hreplaced.links _ _).mpr (.inr ⟨c, hnew, rfl, hid⟩)⟩
    obtain ⟨blockId, l, hl, hid, -⟩ := hlink
    exact ⟨l, hl, hid⟩
  · intro link hlink
    rw [hreplaced.blocks]
    rcases (hreplaced.links _ _).mp ⟨link, hlink, rfl, rfl⟩ with
      ⟨l, hl, ⟨hchunk, hblock⟩, hkept⟩ | ⟨c, hnew, hchunk, hblock⟩
    · obtain ⟨c, hc, b, hb, hid, hid', hdocument⟩ := h.sameDocument l hl
      refine ⟨c, (hreplaced.mem_chunks c).mpr (.inl ⟨hc, ?_⟩), b, hb, hid.trans hchunk,
        hid'.trans hblock, hdocument⟩
      exact fun hgone => hkept c hc hgone (hid.trans hchunk)
    · obtain ⟨b, hb, hid⟩ := hreplaced.exist c hnew _ hblock
      refine ⟨c, (hreplaced.mem_chunks c).mpr (.inr hnew), b, hb, hchunk, hid, ?_⟩
      rw [hnew.1]
      exact hblocks c.chunk (List.of_mem_zip hnew.2.2).1 _ hblock b hb hid

theorem grows_replaceChunks {chunks : List (Chunk Char)} {ids : List String}
    (hdb : db.replaceChunks d σ chunks ids = some db') : Grows db db' := by
  have hreplaced := Database.replaced_of_replaceChunks hdb
  constructor
  · rw [hreplaced.issued]
    exact List.subset_append_left _ _
  · rw [hreplaced.blocks]
    exact fun row hrow => .inl hrow

section
variable {F : Type} [PyFloat F] {settings : Settings F}

def Relies (w : World) (m : StageMessage) : Execution → Prop
  | .chunking blocks _ => Holds w.db m.documentId blocks
  | _ => True

theorem Relies.grows {w w' : World} {m : StageMessage} {h : Execution} (hr : Relies w m h)
    (hg : Grows w.db w'.db) : Relies w' m h := by
  cases h with
  | chunking blocks left => exact Holds.grows hr hg
  | _ => trivial

/-- The step of a handler: the tables keep their links, and only grow by new blocks. -/
def Keeps (w w' : World) (m : StageMessage) (h' : Execution) : Prop :=
  Linked w'.db ∧ Relies w' m h' ∧ Grows w.db w'.db

variable {w w' : World} {m : StageMessage} {c : Choice} {h h' : Execution}

theorem Keeps.same (hlinked : Linked w.db) (hrelies : Relies w m h') : Keeps w w m h' :=
  ⟨hlinked, hrelies, Grows.refl _⟩

theorem Keeps.setDocumentStatus (hlinked : Linked w.db) {d : String} {status : DocStatus}
    (hrelies : Relies (w.setDocumentStatus d status) m h') :
    Keeps w (w.setDocumentStatus d status) m h' :=
  ⟨hlinked.setDocumentStatus d status, hrelies, grows_setDocumentStatus _ _ _⟩

theorem keeps_parses (hlinked : Linked w.db)
    (hspares : ∀ chunk ∈ w.db.chunks, chunk.documentId ≠ m.documentId) {pages : List ℤ}
    {pageIds blockIds : List String} {blocks : List (SourceBlock Char)}
    (hdraws : w.db.Draws (pageIds ++ blockIds) (pages.length + blocks.length))
    (hpages : pageIds.length = pages.length) (status : DocStatus) :
    Keeps w { w with
      db := (((w.db.deleteBlocks m.documentId).insertPages m.documentId pages pageIds).insertBlocks
        m.documentId blocks blockIds).setDocumentStatus m.documentId status } m .returned := by
  obtain ⟨hlen, hnodup, hfresh⟩ := hdraws
  rw [List.length_append] at hlen
  obtain ⟨-, hnodup, hdisjoint⟩ := List.nodup_append'.mp hnodup
  have hnew : ∀ id ∈ blockIds, id ∉ w.db.issued ++ pageIds := by
    intro id hid hmem
    rcases List.mem_append.mp hmem with hold | hpage
    · exact hfresh id (List.mem_append_right _ hid) hold
    · exact hdisjoint hpage hid
  refine ⟨?_, trivial, ?_⟩
  · apply Linked.setDocumentStatus
    apply Linked.insertBlocks
    · exact (hlinked.deleteBlocks hspares).insertPages _ _ _
    · exact ⟨by omega, hnodup, hnew⟩
  · have hpaged : Grows w.db ((w.db.deleteBlocks m.documentId).insertPages m.documentId pages pageIds) :=
      (grows_deleteBlocks _ _).trans (grows_insertPages _ _ _ _)
    exact (hpaged.trans (grows_insertBlocks hnew)).trans (grows_setDocumentStatus _ _ _)

theorem holds_loadBlocks (hlinked : Linked w.db) (d : String) :
    Holds w.db d (w.db.loadBlocks d) := by
  refine ⟨Database.loadBlocks_ids_nodup hlinked.blockIds _, ?_, ?_⟩
  · intro b hb
    obtain ⟨row, hrow, -, rfl⟩ := Database.mem_loadBlocks.mp hb
    exact hlinked.blocksIssued row hrow
  · intro row hrow hid
    obtain ⟨b, hb, heq⟩ := List.mem_map.mp hid
    obtain ⟨row', hrow', hd, rfl⟩ := Database.mem_loadBlocks.mp hb
    rw [← List.inj_on_of_nodup_map hlinked.blockIds hrow' hrow heq]
    exact hd

theorem keeps_stores (hlinked : Linked w.db) {blocks : List (SourceBlock Char)}
    (hholds : Holds w.db m.documentId blocks) {left ids : List String} {chunks : List (Chunk Char)}
    {db : Database} (hchunks : chunkDocument σ blocks settings.options = .ok chunks)
    (hdraws : w.db.Draws ids chunks.length)
    (hdb : w.db.replaceChunks m.documentId σ chunks ids = some db) :
    Keeps w { w with db := db } m (.chunking blocks left) := by
  have hcovers := chunkDocument_covers hholds.1 hchunks
  have hgrows : Grows w.db db := grows_replaceChunks hdb
  refine ⟨hlinked.replaceChunks hdraws hdb hcovers.nonempty ?_, Holds.grows hholds hgrows, hgrows⟩
  intro chunk hchunk id hid row hrow heq
  obtain ⟨b, hb, -, -, hbid⟩ := (hcovers.blockIds id).mp ⟨chunk, hchunk, hid⟩
  exact hholds.2.2 row hrow (List.mem_map.mpr ⟨b, hb, hbid.trans heq.symm⟩)

theorem move_keeps (hlinked : Linked w.db) (hrelies : Relies w m h)
    (hspares : ∀ pages pageIds blocks blockIds, c = .parsed pages pageIds blocks blockIds →
      ∀ chunk ∈ w.db.chunks, chunk.documentId ≠ m.documentId)
    (hmove : move settings m c (h, w) = some (h', w')) : Keeps w w' m h' := by
  cases step_of_move hmove with
  | detects _ family => exact .setDocumentStatus hlinked (by trivial)
  | refuses => exact .setDocumentStatus hlinked (by trivial)
  | parses _ _ hdraws hpages =>
    exact keeps_parses hlinked (hspares _ _ _ _ rfl) hdraws hpages .processing
  | parsesFlow _ _ _ hdraws =>
    refine ⟨(hlinked.deleteBlocks (hspares _ _ _ _ rfl)).insertBlocks hdraws, trivial, ?_⟩
    exact (grows_deleteBlocks _ _).trans (grows_insertBlocks hdraws.2.2)
  | loadsBlocks => exact .same hlinked (holds_loadBlocks hlinked _)
  | skips => exact .same hlinked hrelies
  | stores _ _ hchunks hdraws hdb => exact keeps_stores hlinked hrelies hchunks hdraws hdb
  | passes | chunked | contextualizes => exact .same hlinked trivial
  | embeds | embedsNothing | loadsChunks | noEmbeddings => exact .same hlinked trivial
  | clears | upserts => exact ⟨hlinked, trivial, Grows.refl _⟩
  | embedded => exact .setDocumentStatus hlinked (by trivial)

/-- No transaction of `parse` or `parse_flow` commits while its document has chunks. -/
def SparesChunks (s : System World Execution) : Event Choice → Prop
  | .act run i (.work (.parsed _ _ _ _)) => ∀ m w h,
      (s.runs run).tokens[i]? = some ⟨m, .inHand w (.handling h)⟩ →
        ∀ chunk ∈ s.world.db.chunks, chunk.documentId ≠ m.documentId
  | _ => True

theorem chunks_linked_of_spared {s : System World Execution}
    (hreach : Reachable Untouched (exec (handlers settings)) SparesChunks s) :
    ChunksLinked s.world.db := by
  have hinv := world_invariant (I := fun w => Linked w.db) (P := Relies) ?_ ?_ ?_ ?_ hreach
  · exact hinv.1.chunksLinked
  · rintro s ⟨hinit, documents, -, hworld⟩
    rw [hworld]
    refine ⟨by constructor <;> simp, ?_⟩
    rintro m h ⟨run, w, hmem⟩
    simp [hinit.2] at hmem
  · exact fun world m => trivial
  · intro s run i c m w h h' world' hok hat hlinked hrelies hmove
    obtain ⟨hlinked', hown, hgrows⟩ := move_keeps hlinked hrelies
      (by rintro _ _ _ _ rfl; exact hok m w h hat) hmove
    exact ⟨hlinked', hown, fun m' k hk => hk.grows hgrows⟩
  · intro world documentId hlinked
    exact ⟨hlinked.setDocumentStatus _ _, fun m k hk => hk.grows (grows_setDocumentStatus _ _ _)⟩

end

/-- Up to the transaction of the `chunk` handler, with the worker of `parse_flow` dying after it has
    published `chunk`. -/
def crashAfterPublish : List (Event Choice) :=
  [.upload "document" "run" "v1" "trace", .start 0 everyStage] ++
    onMessage 0 [.deliver 0, .call, .work (.format (some .flow)), .finish, .call, .call, .call,
      .call] ++
    onMessage 0 [.deliver 0, .call, .work (parsedAs "b1"), .finish, .call, .call, .call] ++
    [.crash 0, .start 1 everyStage] ++
    onMessage 1 [.deliver 1, .call, .work .next, .work (.drawn ["c1"])]

/-- `parse_flow` is delivered again and replaces the blocks under the chunk. -/
theorem redelivery_unlinks_a_chunk :
    ¬ ∀ s, Reachable Untouched (exec (handlers oneStrategy)) (fun _ _ => True) s →
      ChunksLinked s.world.db := by
  have hend : (run (exec (handlers oneStrategy)) uploaded
      (crashAfterPublish ++ onMessage 0 [.deliver 1, .call, .work (parsedAs "b2")])).map (fun s =>
        (s.world.db.chunks.map (·.id), s.world.db.chunkBlocks.length)) = some (["c1"], 0) := by
    decide +kernel
  obtain ⟨s, hrun, heq⟩ := Option.map_eq_some_iff.mp hend
  obtain ⟨hchunks, hlinks⟩ := Prod.mk.inj heq
  intro hall
  have hlinked := hall s
    (reachable_of_run (.start uploaded_untouched) (fun _ _ _ => trivial) hrun)
  obtain ⟨c, hc, -⟩ := List.mem_map.mp (hchunks ▸ List.mem_singleton_self "c1")
  obtain ⟨⟨link, hlink, -⟩, -⟩ := hlinked c hc
  rw [List.length_eq_zero_iff.mp hlinks] at hlink
  exact List.not_mem_nil hlink

theorem a_chunk_is_linked :
    ∃ s, Reachable Untouched (exec (handlers oneStrategy)) SparesChunks s ∧
      s.world.db.chunks.map (·.id) = ["c1"] ∧ ChunksLinked s.world.db := by
  let check : System World Execution → Event Choice → Bool := fun s e => match e with
    | .act _ _ (.work (.parsed _ _ _ _)) => s.world.db.chunks.isEmpty
    | _ => true
  have hcheck : ∀ s e, True → check s e = true → SparesChunks s e := by
    intro s e _ h
    unfold SparesChunks
    split
    · intro m w h' _ chunk hchunk
      rw [List.isEmpty_iff.mp h] at hchunk
      cases hchunk
    · trivial
  have hend : (run (guarded (exec (handlers oneStrategy)) check) uploaded crashAfterPublish).map
      (fun s => s.world.db.chunks.map (·.id)) = some ["c1"] := by
    decide +kernel
  obtain ⟨s, hrun, hchunks⟩ := Option.map_eq_some_iff.mp hend
  obtain ⟨hreach, -⟩ := reachable_of_guarded_run (fun _ _ _ _ _ _ => trivial) hcheck
    (.start uploaded_untouched) trivial hrun
  exact ⟨s, hreach, hchunks, chunks_linked_of_spared hreach⟩

end Ragent.BlockLinks
