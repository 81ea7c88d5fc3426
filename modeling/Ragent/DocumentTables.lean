import Ragent.FlattenedDocument

set_option autoImplicit false

/-!
# The tables of a document

`documents`, `pages`, `blocks`, `chunks` and `chunk_blocks` of `infra/postgres/init.sql`, and the
statements of `ragent/db/repo.py` that write and read them. A row that goes takes the rows along
that refer to it. Rows carry an id that was never drawn before; the database remembers all of those.
-/
namespace Ragent.DocumentTables
open SourceTypes FlattenedDocument

inductive DocStatus
  | pending
  | processing
  | ready
  | failed
  | quarantined
  deriving DecidableEq, Repr

structure PageRow where
  id : String
  documentId : String
  pageNo : ℤ

/-- The columns of the block proper are kept as the block that `load_blocks` makes of them. -/
structure BlockRow where
  documentId : String
  pageId : Option String
  block : SourceBlock Char

structure ChunkRow where
  id : String
  documentId : String
  strategy : String
  chunk : Chunk Char

structure LinkRow where
  chunkId : String
  blockId : String
  ordinal : ℕ
  deriving DecidableEq

structure Database where
  /-- The status of the documents that have a row. -/
  documents : String → Option DocStatus := fun _ => none
  pages : List PageRow := []
  blocks : List BlockRow := []
  chunks : List ChunkRow := []
  chunkBlocks : List LinkRow := []
  issued : List String := []

namespace Database

/-- What `n` calls of `uuid4` may return. -/
def Draws (db : Database) (ids : List String) (n : ℕ) : Prop :=
  ids.length = n ∧ ids.Nodup ∧ ∀ id ∈ ids, id ∉ db.issued

instance (db : Database) (ids : List String) (n : ℕ) : Decidable (db.Draws ids n) :=
  inferInstanceAs (Decidable (_ ∧ _ ∧ _))

def setDocumentStatus (db : Database) (documentId : String) (status : DocStatus) : Database :=
  { db with
    documents := Function.update db.documents documentId
      ((db.documents documentId).map fun _ => status) }

/-- `DELETE FROM blocks WHERE document_id = $1` -/
def deleteBlocks (db : Database) (documentId : String) : Database :=
  let gone := (db.blocks.filter (·.documentId = documentId)).map (·.block.id)
  { db with
    blocks := db.blocks.filter (·.documentId ≠ documentId)
    chunkBlocks := db.chunkBlocks.filter (·.blockId ∉ gone) }

def pageId (db : Database) (documentId : String) (pageNo : ℤ) : Option String :=
  (db.pages.find? fun p => p.documentId = documentId ∧ p.pageNo = pageNo).map (·.id)

/-- A page that exists keeps its row. The ids are those the other rows get by default. -/
def insertPages (db : Database) (documentId : String) (pages : List ℤ) (ids : List String) :
    Database :=
  let rows := (pages.zip ids).filterMap fun p =>
    if (db.pageId documentId p.1).isSome then none else some ⟨p.2, documentId, p.1⟩
  { db with pages := db.pages ++ rows, issued := db.issued ++ ids }

/-- The page number is only stored along with a bbox, and read back as 0 without one. -/
def stored (block : SourceBlock Char) (id : String) : SourceBlock Char :=
  { block with id := id, pageNo := if block.bbox.isSome then block.pageNo else 0 }

def insertBlocks (db : Database) (documentId : String) (blocks : List (SourceBlock Char))
    (ids : List String) : Database :=
  let rows := (blocks.zip ids).map fun b => ⟨documentId, db.pageId documentId b.1.pageNo, stored b.1 b.2⟩
  { db with blocks := db.blocks ++ rows, issued := db.issued ++ ids }

def loadBlocks (db : Database) (documentId : String) : List (SourceBlock Char) :=
  ((db.blocks.filter (·.documentId = documentId)).map (·.block)).insertionSort inOrder

/-- `INSERT INTO chunk_blocks ... ON CONFLICT DO NOTHING` -/
def insertLink (links : List LinkRow) (link : LinkRow) : List LinkRow :=
  if links.any fun l => l.chunkId = link.chunkId ∧ l.blockId = link.blockId then links
  else links ++ [link]

def linkRows (chunk : ChunkRow) : List LinkRow :=
  chunk.chunk.blockIds.zipIdx.map fun b => ⟨chunk.id, b.1, b.2⟩

/-- One transaction, which fails on a link to a block that does not exist. -/
def replaceChunks (db : Database) (documentId strategy : String) (chunks : List (Chunk Char))
    (ids : List String) : Option Database :=
  let gone := (db.chunks.filter fun c => c.documentId = documentId ∧ c.strategy = strategy).map (·.id)
  let rows := (chunks.zip ids).map fun c => ⟨c.2, documentId, strategy, c.1⟩
  let links := rows.flatMap linkRows
  if ∀ link ∈ links, link.blockId ∈ db.blocks.map (·.block.id) then
    some
      { db with
        chunks := db.chunks.filter (fun c => ¬(c.documentId = documentId ∧ c.strategy = strategy))
          ++ rows
        chunkBlocks := links.foldl insertLink (db.chunkBlocks.filter (·.chunkId ∉ gone))
        issued := db.issued ++ ids }
  else none

def loadChunks (db : Database) (documentId strategy : String) : List ChunkRow :=
  (db.chunks.filter fun c => c.documentId = documentId ∧ c.strategy = strategy).insertionSort
    fun c c' => c.chunk.seq ≤ c'.chunk.seq

variable {db db' : Database} {d σ : String}

theorem mem_loadBlocks {b : SourceBlock Char} :
    b ∈ db.loadBlocks d ↔ ∃ row ∈ db.blocks, row.documentId = d ∧ row.block = b := by
  simp [loadBlocks, and_assoc]

theorem loadBlocks_ids_nodup (h : (db.blocks.map (·.block.id)).Nodup) (d : String) :
    ((db.loadBlocks d).map (·.id)).Nodup := by
  have hperm : (db.loadBlocks d).Perm ((db.blocks.filter (·.documentId = d)).map (·.block)) :=
    List.perm_insertionSort _ _
  rw [(hperm.map _).nodup_iff, List.map_map]
  exact h.sublist (List.filter_sublist.map _)

def storedBlocks (blocks : List (SourceBlock Char)) (ids : List String) : List (SourceBlock Char) :=
  (blocks.zip ids).map fun b => stored b.1 b.2

theorem blocks_insertBlocks {blocks : List (SourceBlock Char)} {ids : List String}
    (hnone : ∀ row ∈ db.blocks, row.documentId ≠ d) :
    ((db.insertBlocks d blocks ids).blocks.filter (·.documentId = d)).map (·.block) =
      storedBlocks blocks ids := by
  have hold : db.blocks.filter (·.documentId = d) = [] :=
    List.filter_eq_nil_iff.mpr fun row hrow heq => hnone row hrow (of_decide_eq_true heq)
  have hnew : ∀ row ∈ (blocks.zip ids).map (fun b =>
      (⟨d, db.pageId d b.1.pageNo, stored b.1 b.2⟩ : BlockRow)),
      decide (row.documentId = d) = true := by
    intro row hrow
    obtain ⟨b, -, rfl⟩ := List.mem_map.mp hrow
    exact decide_eq_true rfl
  change ((db.blocks ++ (blocks.zip ids).map fun b =>
    (⟨d, db.pageId d b.1.pageNo, stored b.1 b.2⟩ : BlockRow)).filter
      fun row : BlockRow => row.documentId = d).map (fun row : BlockRow => row.block) = _
  rw [List.filter_append, hold, List.nil_append, List.filter_eq_self.mpr hnew, List.map_map]
  rfl

theorem documentId_of_deleteBlocks : ∀ row ∈ (db.deleteBlocks d).blocks, row.documentId ≠ d :=
  fun _ hrow => of_decide_eq_true (List.mem_filter.mp hrow).2

theorem mem_loadChunks {c : ChunkRow} :
    c ∈ db.loadChunks d σ ↔ c ∈ db.chunks ∧ c.documentId = d ∧ c.strategy = σ := by
  simp [loadChunks]

theorem mem_insertLinks {links new : List LinkRow} {chunkId blockId : String} :
    (∃ l ∈ new.foldl insertLink links, l.chunkId = chunkId ∧ l.blockId = blockId) ↔
      ∃ l ∈ links ++ new, l.chunkId = chunkId ∧ l.blockId = blockId := by
  induction new generalizing links with
  | nil => simp
  | cons link new ih =>
    rw [List.foldl_cons, ih]
    unfold insertLink
    split_ifs with h
    · obtain ⟨l, hl, hkeys⟩ := List.any_eq_true.mp h
      rw [decide_eq_true_eq] at hkeys
      constructor
      · rintro ⟨k, hk, hkkeys⟩
        refine ⟨k, ?_, hkkeys⟩
        simp only [List.mem_append, List.mem_cons] at hk ⊢
        tauto
      · rintro ⟨k, hk, hkkeys⟩
        simp only [List.mem_append, List.mem_cons] at hk
        rcases hk with hk | rfl | hk
        · exact ⟨k, List.mem_append_left _ hk, hkkeys⟩
        · exact ⟨l, List.mem_append_left _ hl, hkeys.1.trans hkkeys.1, hkeys.2.trans hkkeys.2⟩
        · exact ⟨k, List.mem_append_right _ hk, hkkeys⟩
    · simp

theorem mem_linkRows {c : ChunkRow} {blockId : String} :
    (∃ l ∈ linkRows c, l.blockId = blockId) ↔ blockId ∈ c.chunk.blockIds := by
  simp only [linkRows, List.mem_map]
  constructor
  · rintro ⟨l, ⟨p, hp, rfl⟩, rfl⟩
    exact List.mem_of_getElem? (List.mem_zipIdx_iff_getElem?.mp hp)
  · intro h
    obtain ⟨i, hi⟩ := List.mem_iff_getElem?.mp h
    exact ⟨_, ⟨(blockId, i), List.mem_zipIdx_iff_getElem?.mpr hi, rfl⟩, rfl⟩

theorem chunkId_of_linkRows {c : ChunkRow} {l : LinkRow} (h : l ∈ linkRows c) : l.chunkId = c.id := by
  obtain ⟨p, -, rfl⟩ := List.mem_map.mp h
  rfl

def NewChunk (documentId strategy : String) (chunks : List (Chunk Char)) (ids : List String)
    (c : ChunkRow) : Prop :=
  c.documentId = documentId ∧ c.strategy = strategy ∧ (c.chunk, c.id) ∈ chunks.zip ids

structure Replaced (db db' : Database) (d σ : String) (chunks : List (Chunk Char))
    (ids : List String) : Prop where
  documents : db'.documents = db.documents
  blocks : db'.blocks = db.blocks
  issued : db'.issued = db.issued ++ ids
  chunkIds : db'.chunks.map (·.id) =
    (db.chunks.filter fun c => ¬(c.documentId = d ∧ c.strategy = σ)).map (·.id) ++
      (chunks.zip ids).map (·.2)
  mem_chunks : ∀ c, c ∈ db'.chunks ↔
    (c ∈ db.chunks ∧ ¬(c.documentId = d ∧ c.strategy = σ)) ∨ NewChunk d σ chunks ids c
  links : ∀ chunkId blockId, (∃ l ∈ db'.chunkBlocks, l.chunkId = chunkId ∧ l.blockId = blockId) ↔
    (∃ l ∈ db.chunkBlocks, (l.chunkId = chunkId ∧ l.blockId = blockId) ∧
      ∀ c ∈ db.chunks, c.documentId = d ∧ c.strategy = σ → c.id ≠ chunkId) ∨
    ∃ c, NewChunk d σ chunks ids c ∧ c.id = chunkId ∧ blockId ∈ c.chunk.blockIds
  exist : ∀ c, NewChunk d σ chunks ids c → ∀ blockId ∈ c.chunk.blockIds,
    ∃ b ∈ db.blocks, b.block.id = blockId

theorem mem_newRows {chunks : List (Chunk Char)} {ids : List String} {c : ChunkRow} :
    c ∈ ((chunks.zip ids).map fun c => ⟨c.2, d, σ, c.1⟩) ↔ NewChunk d σ chunks ids c := by
  rw [List.mem_map]
  constructor
  · rintro ⟨p, hp, rfl⟩
    exact ⟨rfl, rfl, hp⟩
  · rintro ⟨rfl, rfl, hp⟩
    exact ⟨_, hp, rfl⟩

theorem replaced_of_replaceChunks {chunks : List (Chunk Char)} {ids : List String}
    (hdb : db.replaceChunks d σ chunks ids = some db') : Replaced db db' d σ chunks ids := by
  unfold replaceChunks at hdb
  simp only [Option.ite_none_right_eq_some, Option.some.injEq] at hdb
  obtain ⟨hexist, rfl⟩ := hdb
  constructor
  · rfl
  · rfl
  · rfl
  · rw [List.map_append, List.map_map]
    rfl
  · intro c
    rw [List.mem_append, List.mem_filter, decide_eq_true_eq, mem_newRows]
  · intro chunkId blockId
    rw [mem_insertLinks]
    simp only [List.mem_append, List.mem_flatMap, mem_newRows]
    simp only [List.mem_filter, decide_eq_true_eq, List.mem_map, not_exists, not_and]
    constructor
    · rintro ⟨l, ⟨hl, hgone⟩ | ⟨c, hc, hl⟩, rfl, rfl⟩
      · exact .inl ⟨l, hl, ⟨rfl, rfl⟩, fun c hc hkeys => hgone c ⟨hc, hkeys⟩⟩
      · exact .inr ⟨c, hc, (chunkId_of_linkRows hl).symm, mem_linkRows.mp ⟨l, hl, rfl⟩⟩
    · rintro (⟨l, hl, ⟨rfl, rfl⟩, hkept⟩ | ⟨c, hc, rfl, hblock⟩)
      · exact ⟨l, .inl ⟨hl, fun c hc => hkept c hc.1 hc.2⟩, rfl, rfl⟩
      · obtain ⟨l, hl, hid⟩ := mem_linkRows.mpr hblock
        exact ⟨l, .inr ⟨c, hc, hl⟩, chunkId_of_linkRows hl, hid⟩
  · intro c hc blockId hblock
    obtain ⟨l, hl, rfl⟩ := mem_linkRows.mpr hblock
    exact List.mem_map.mp (hexist l (List.mem_flatMap.mpr ⟨c, mem_newRows.mpr hc, hl⟩))

structure Keys (db : Database) : Prop where
  nodup : (db.chunks.map (·.id)).Nodup
  issued : ∀ row ∈ db.chunks, row.id ∈ db.issued

theorem Keys.replaceChunks {chunks : List (Chunk Char)} {ids : List String} (h : db.Keys)
    (hdraws : db.Draws ids chunks.length)
    (hdb : db.replaceChunks d σ chunks ids = some db') : db'.Keys := by
  rcases hdraws with ⟨hlength, hnodup, hfresh⟩
  have hreplaced := replaced_of_replaceChunks hdb
  constructor
  · rw [hreplaced.chunkIds, List.map_snd_zip (by omega)]
    refine (h.nodup.sublist (List.filter_sublist.map _)).append hnodup fun id hid hid' => ?_
    rcases List.mem_map.mp hid with ⟨row, hrow, rfl⟩
    exact hfresh _ hid' (h.issued row (List.mem_of_mem_filter hrow))
  · intro row hrow
    rw [hreplaced.issued]
    rcases (hreplaced.mem_chunks row).mp hrow with hold | hnew
    · exact List.mem_append_left _ (h.issued row hold.1)
    · exact List.mem_append_right _ (List.of_mem_zip hnew.2.2).2

end Database
end Ragent.DocumentTables
