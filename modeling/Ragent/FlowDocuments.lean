import Ragent.CitationViewer
import Ragent.CsvBlocks
import Ragent.FlowCitations
import Ragent.HybridSearch
import Ragent.SourceObjects

set_option autoImplicit false

/-!
# A flow document from its bytes to its highlight

`parse_flow_stage` with `split_flow`, the tables the blocks go through, `chunk_stage`, the citation
of a chunk, and what `FlowHighlight` marks in the text that `document_text` sends.
-/
namespace Ragent.FlowDocuments
open SpacedWords PyText PyNumbers SourceTypes Formats FlattenedDocument FlowText FlowBlocks
  CsvBlocks ChunkDocument FlowCitations DocumentTables Database HybridSearch CitationViewer

/-- `split_flow`, with the text of an exception. -/
def splitFlow (text : List Char) (extension : String) : Except String (List (FlowBlock Char)) :=
  if strip text = [] then .ok []
  else if extension = "md" ∨ extension = "markdown" then .ok (splitMarkdown text)
  else if extension = "csv" then splitCsv text
  else if extension = "tsv" then splitCsv text 40 '\t'
  else .ok (splitPlain text)

inductive ParseError
  | permanent (text : String)
  | unsupported (e : DetectError)
  | raised (text : String)

def parseFlow (py : Platform) (data : Bytes) (name : String) :
    Except ParseError (List (SourceBlock Char)) :=
  match decodeUtf8 data with
  | none => .error (.permanent "flow document is not valid UTF-8")
  | some text =>
    match detectFormat py (data.take SourceObjects.SNIFF_BYTES) name with
    | .error e => .error (.unsupported e)
    | .ok fmt =>
      match splitFlow text fmt.extension with
      | .error e => .error (.raised e)
      | .ok [] => .error (.permanent "document contains no extractable text")
      | .ok (b :: bs) => .ok (flowSourceBlocks (b :: bs))

/-- `document_text`. What `errors="replace"` makes of other bytes is a parameter. -/
def documentText (replaced : Bytes → List Char) (provenance : Option String) (data : Bytes) :
    Except String (List Char) :=
  if provenance ≠ some "flow" then .error "document is paged; request its pages instead"
  else .ok ((decodeUtf8 data).getD (replaced data))

theorem flowSplit_of_splitFlow {text : List Char} {extension : String} {bs : List (FlowBlock Char)}
    (h : splitFlow text extension = .ok bs) (hrows : extension ≠ "csv" ∧ extension ≠ "tsv")
    (hne : bs ≠ []) : FlowSplit text bs := by
  unfold splitFlow at h
  split_ifs at h with hblank hmarkdown hcsv htsv
  · cases h
    exact absurd rfl hne
  · cases h
    exact splitMarkdown_flowSplit text
  · exact absurd hcsv hrows.1
  · exact absurd htsv hrows.2
  · cases h
    exact splitPlain_flowSplit text

def InLines (py : Platform) (data : Bytes) (name : String) : Prop :=
  ∀ fmt, detectFormat py (data.take SourceObjects.SNIFF_BYTES) name = .ok fmt →
    fmt.extension ≠ "csv" ∧ fmt.extension ≠ "tsv"

theorem of_parseFlow {py : Platform} {data : Bytes} {name : String}
    {blocks : List (SourceBlock Char)} (h : parseFlow py data name = .ok blocks)
    (hlines : InLines py data name) :
    ∃ text bs, decodeUtf8 data = some text ∧ FlowSplit text bs ∧ blocks = flowSourceBlocks bs := by
  unfold parseFlow at h
  split at h
  · cases h
  · next text htext =>
    split at h
    · cases h
    · next fmt hfmt =>
      split at h
      · cases h
      · cases h
      · next b bs hsplit =>
        cases h
        exact ⟨text, b :: bs, htext,
          flowSplit_of_splitFlow hsplit (hlines fmt hfmt) (List.cons_ne_nil b bs), rfl⟩

theorem loadBlocks_insertBlocks {db : Database} {d : String} {blocks : List (SourceBlock Char)}
    {ids : List String} (hsorted : (storedBlocks blocks ids).Pairwise inOrder) :
    ((db.deleteBlocks d).insertBlocks d blocks ids).loadBlocks d = storedBlocks blocks ids := by
  unfold loadBlocks
  rw [blocks_insertBlocks documentId_of_deleteBlocks]
  exact hsorted.insertionSort_eq

section
variable {source : List Char} {blocks : List (SourceBlock Char)} {ids : List String}

theorem exists_stored {b : SourceBlock Char} (h : b ∈ storedBlocks blocks ids) :
    ∃ b' ∈ blocks, ∃ id ∈ ids, b = stored b' id := by
  obtain ⟨p, hp, rfl⟩ := List.mem_map.mp h
  obtain ⟨hb, hid⟩ := List.of_mem_zip hp
  exact ⟨p.1, hb, p.2, hid, rfl⟩

theorem pairwise_stored {R : SourceBlock Char → SourceBlock Char → Prop} (h : blocks.Pairwise R)
    (hR : ∀ b ∈ blocks, ∀ b' ∈ blocks, ∀ id id', R b b' → R (stored b id) (stored b' id'))
    (hlength : ids.length = blocks.length) : (storedBlocks blocks ids).Pairwise R := by
  have hzip : (blocks.zip ids).Pairwise fun p q => R p.1 q.1 := by
    rw [← List.pairwise_map, List.map_fst_zip hlength.ge]
    exact h
  unfold storedBlocks
  rw [List.pairwise_map]
  refine hzip.imp_of_mem fun hp hq hR' => ?_
  exact hR _ (List.of_mem_zip hp).1 _ (List.of_mem_zip hq).1 _ _ hR'

/-- Whatever ids are drawn, the blocks are where they were. -/
theorem located_stored (h : Located source blocks) (hpages : ∀ b ∈ blocks, b.pageNo = 0)
    (hlength : ids.length = blocks.length) (hids : ids.Nodup) :
    Located source (storedBlocks blocks ids) := by
  have hpage : ∀ b ∈ blocks, ∀ id, (stored b id).pageNo = b.pageNo := by
    intro b hb id
    change (if b.bbox.isSome then b.pageNo else 0) = b.pageNo
    rw [hpages b hb, ite_self]
  have hcontent : ∀ b ∈ blocks, isContent b = true := by
    intro b hb
    rw [← h.prepared] at hb
    exact isContent_iff.mpr (mem_prepare.mp hb).2
  have hsorted : blocks.Pairwise inOrder := h.prepared ▸ prepare_sorted blocks
  constructor
  · have hown : (storedBlocks blocks ids).map (·.id) = ids := by
      rw [storedBlocks, List.map_map]
      exact List.map_snd_zip hlength.le
    rw [hown]
    exact hids
  · have hall : ∀ b ∈ storedBlocks blocks ids, isContent b = true := by
      intro b hb
      obtain ⟨b', hb', id, -, rfl⟩ := exists_stored hb
      exact hcontent b' hb'
    unfold prepare
    rw [List.filter_eq_self.mpr hall]
    apply List.Pairwise.insertionSort_eq
    apply pairwise_stored hsorted _ hlength
    intro b hb b' hb' id id' horder
    unfold inOrder at horder ⊢
    rw [hpage b hb, hpage b' hb']
    exact horder
  · intro b hb
    obtain ⟨b', hb', id, -, rfl⟩ := exists_stored hb
    exact h.text b' hb'
  · have hranges : (storedBlocks blocks ids).filterMap (·.charRange) =
        blocks.filterMap (·.charRange) := by
      have hfst : (blocks.zip ids).map Prod.fst = blocks := List.map_fst_zip hlength.ge
      conv_rhs => rw [← hfst]
      rw [storedBlocks, List.filterMap_map, List.filterMap_map]
      rfl
    rw [hranges]
    exact h.tiles
  · exact pairwise_stored h.ordered (fun _ _ _ _ _ _ hR => hR) hlength

def Bounded (source : List Char) (blocks : List (SourceBlock Char)) : Prop :=
  ∀ b ∈ blocks, ∀ r, b.charRange = some r → r.1 < r.2 ∧ r.2 ≤ source.length

def Ranged (source : List Char) (c : Chunk Char) : Prop :=
  ∃ s e, c.charStart = some s ∧ c.charEnd = some e ∧ s < e ∧ e ≤ source.length

theorem bounded_flowSourceBlocks {bs : List (FlowBlock Char)} (hsplit : FlowSplit source bs) :
    Bounded source (flowSourceBlocks bs) := by
  intro b hb r hr
  obtain ⟨f, hf, -, -, hrange⟩ := mem_flowSourceBlocks hb
  obtain rfl := Option.some.inj (hrange.symm.trans hr)
  exact ⟨f.nonempty, (hsplit.exact f hf).inside⟩

theorem ranged_of_drawsOn {bs : List (SourceBlock Char)} {c : Chunk Char}
    (h : Located source blocks) (hbounded : Bounded source blocks) (hbs : bs ⊆ blocks)
    (hd : DrawsOn bs c) : Ranged source c := by
  obtain ⟨s, e, hs, he, hspans⟩ := range_of_drawsOn h hbs hd
  obtain ⟨first, hfirst, r, hr, rfl⟩ := hspans.first
  obtain ⟨last, hlast, r', hr', rfl⟩ := hspans.last
  have hstart := (hbounded first (hbs hfirst) r hr).1
  have hstop := (hspans.within first hfirst r hr).2
  exact ⟨r.1, r'.2, hs, he, hstart.trans_le hstop, (hbounded last (hbs hlast) r' hr').2⟩

theorem ranged_overlapChunk {countTokens : TokenCounter} {overlap : ℤ} {prev cur : Chunk Char}
    (h : Ranged source cur) :
    Ranged source (RecursiveChunks.overlapChunk countTokens overlap prev cur) := by
  obtain ⟨s, e, hs, he, hlt, hle⟩ := h
  by_cases htail : RecursiveChunks.carriedWords countTokens overlap prev = []
  · have hsame : RecursiveChunks.overlapChunk countTokens overlap prev cur = cur := by
      simp [RecursiveChunks.overlapChunk, htail]
    rw [hsame]
    exact ⟨s, e, hs, he, hlt, hle⟩
  · obtain ⟨hstart, hend⟩ := RecursiveChunks.overlapChunk_range countTokens overlap cur htail
    rw [hs] at hstart
    exact ⟨_, e, hstart, hend.trans he, (Nat.min_le_right _ _).trans_lt hlt, hle⟩

variable {F : Type} [PyFloat F]

theorem ranged_of_chunkWith {strategy : Strategy} {o : ChunkOptions F} {chunks : List (Chunk Char)}
    (h : Located source blocks) (hbounded : Bounded source blocks)
    (hchunks : chunkWith strategy blocks o = .ok chunks) : ∀ c ∈ chunks, Ranged source c := by
  intro c hc
  by_cases hcase : strategy = .recursive ∧ 0 < o.overlapTokens
  · obtain ⟨rfl, hoverlap⟩ := hcase
    have hpacked : ∀ c ∈ RecursiveChunks.packedChunks o.countTokens o.targetTokens blocks,
        Ranged source c := by
      intro c hc
      obtain ⟨bs, hbs, hd⟩ := ChunkProvenance.packedChunks_drawsOn o.countTokens o.targetTokens
        blocks c hc
      exact ranged_of_drawsOn h hbounded (h.prepared ▸ hbs) hd
    cases hchunks
    rw [RecursiveChunks.chunkRecursive, if_pos hoverlap] at hc
    cases mem_withPrevious.mp hc with
    | inl hhead => exact hpacked c (List.mem_of_mem_head? hhead)
    | inr hnext =>
      obtain ⟨prev, cur, hsucc, rfl⟩ := hnext
      have hcur : cur ∈ RecursiveChunks.packedChunks o.countTokens o.targetTokens blocks :=
        hsucc.subset (List.mem_cons_of_mem prev List.mem_cons_self)
      exact ranged_overlapChunk (hpacked cur hcur)
  · obtain ⟨bs, hbs, hd⟩ := ChunkProvenance.chunkWith_drawsOn h.ids (not_and.mp hcase) hchunks c hc
    exact ranged_of_drawsOn h hbounded (h.prepared ▸ hbs) hd

end

section
variable {F : Type} [PyFloat F] {py : Platform} {data : Bytes} {name d σ : String} {db : Database}
  {ids : List String} {blocks : List (SourceBlock Char)} {o : ChunkOptions F}
  {chunks : List (Chunk Char)}

/-- The blocks that `chunk_stage` loads after `parse_flow_stage`. -/
def reloaded (db : Database) (d : String) (blocks : List (SourceBlock Char)) (ids : List String) :
    List (SourceBlock Char) :=
  ((db.deleteBlocks d).insertBlocks d blocks ids).loadBlocks d

theorem located_reloaded (hparse : parseFlow py data name = .ok blocks)
    (hlines : InLines py data name) (hdraws : db.Draws ids blocks.length) :
    ∃ text, decodeUtf8 data = some text ∧ Located text (reloaded db d blocks ids) ∧
      Bounded text (reloaded db d blocks ids) := by
  obtain ⟨text, bs, htext, hsplit, rfl⟩ := of_parseFlow hparse hlines
  obtain ⟨hlength, hnodup, -⟩ := hdraws
  have hplain : (flowSourceBlocks bs).map (readFrom text) = flowSourceBlocks bs := by
    have h := readFrom_erase (plain_char text) hsplit
    have herase : (fun b : SourceBlock Char => b.erase) = id :=
      funext fun b => congrArg b.withText (plain_char b.text)
    rwa [herase, List.map_id] at h
  have hlocated := located_of_split (plain_char text) hsplit
  rw [hplain] at hlocated
  have hpages : ∀ b ∈ flowSourceBlocks bs, b.pageNo = 0 := by
    intro b hb
    obtain ⟨f, -, rfl⟩ := List.mem_map.mp hb
    rfl
  have hstored := located_stored hlocated hpages hlength hnodup
  have hreloaded : reloaded db d (flowSourceBlocks bs) ids = storedBlocks (flowSourceBlocks bs) ids :=
    loadBlocks_insertBlocks (hstored.prepared ▸ prepare_sorted _)
  rw [hreloaded]
  refine ⟨text, htext, hstored, fun b hb r hr => ?_⟩
  obtain ⟨b', hb', id, -, rfl⟩ := exists_stored hb
  exact bounded_flowSourceBlocks hsplit b' hb' r hr

omit [PyFloat F] in
theorem citationTarget_of_row {corpus : Corpus F} {row : ChunkRow} (hrow : row ∈ corpus.db.chunks)
    (hdocument : ∀ doc ∈ corpus.documents, doc.id = row.documentId → doc.provenance = some "flow") :
    ∃ t, citationTarget corpus row.id = some t ∧ t.provenance = some "flow" ∧
      t.text = row.chunk.text ∧ t.charStart = row.chunk.charStart ∧
        t.charEnd = row.chunk.charEnd := by
  obtain ⟨doc, hdoc, hid⟩ := document_of_chunk hrow
  unfold citationTarget
  rw [find_chunk hrow, Option.bind_some, hdoc]
  exact ⟨_, rfl, hdocument doc (List.mem_of_find?_eq_some hdoc) hid, rfl, rfl, rfl⟩

theorem of_strategyOf_recursive (h : ChunkDocument.strategyOf σ = some .recursive) :
    σ = "recursive" := by
  unfold ChunkDocument.strategyOf at h
  split at h
  · cases h
  · rfl
  · cases h
  · cases h
  · cases h

theorem isInfix_encode {w l : List Char} (h : w <:+: l) : Utf16.encode w <:+: Utf16.encode l := by
  obtain ⟨before, after, rfl⟩ := h
  rw [Utf16.encode_append, Utf16.encode_append]
  exact ⟨_, _, rfl⟩

/-- From the bytes of a flow document to the page that shows where it is cited: the text is the one
    that was parsed, the mark is exactly the range of the chunk, and every word of the chunk stands
    in it as long as a recursive overlap carries none over from blocks that are not the chunk's. -/
theorem highlights_mark_what_is_cited (hparse : parseFlow py data name = .ok blocks)
    (hlines : InLines py data name) (hdraws : db.Draws ids blocks.length)
    (hchunks : chunkDocument σ (reloaded db d blocks ids) o = .ok chunks) {corpus : Corpus F}
    {row : ChunkRow} (hrow : row ∈ corpus.db.chunks) (hchunk : row.chunk ∈ chunks)
    (hdocument : ∀ doc ∈ corpus.documents, doc.id = row.documentId → doc.provenance = some "flow")
    (hnarrow : ∀ text, decodeUtf8 data = some text → ∀ c ∈ text, Utf16.wide c = false)
    (replaced : Bytes → List Char) :
    ∃ t text h, citationTarget corpus row.id = some t ∧
      documentText replaced t.provenance data = .ok text ∧
      flowHighlight (Utf16.encode text) t.charStart t.charEnd = some h ∧
      h.mark = Utf16.encode (slice text (t.charStart.getD 0) (t.charEnd.getD 0)) ∧
      ((σ = "recursive" → 0 < o.overlapTokens → CarriedFound o.countTokens o.targetTokens
        o.overlapTokens (reloaded db d blocks ids)) →
          ∀ w ∈ words space t.text, Utf16.encode w <:+: h.mark) := by
  obtain ⟨text, htext, hlocated, hbounded⟩ := located_reloaded (d := d) hparse hlines hdraws
  obtain ⟨strategy, hstrategy, hwith⟩ := chunkDocument_eq_ok hchunks
  obtain ⟨s, e, hs, he, hlt, hle⟩ := ranged_of_chunkWith hlocated hbounded hwith _ hchunk
  obtain ⟨t, ht, hflow, hwords, hstart, hend⟩ := citationTarget_of_row hrow hdocument
  have hmark := mark_of_narrow hlt hle fun c hc => hnarrow text htext c (List.mem_of_mem_take hc)
  obtain ⟨h, hh, hslice⟩ := Option.map_eq_some_iff.mp hmark
  have hsent : documentText replaced t.provenance data = .ok text := by
    rw [hflow, documentText, if_neg (not_not.mpr rfl), htext]
    rfl
  refine ⟨t, text, h, ht, hsent, ?_, ?_, fun hcarried w hw => ?_⟩
  · rw [hstart, hend, hs, he]
    exact hh
  · rw [hstart, hend, hs, he]
    exact hslice
  · have hcites := (chunkWith_cites_iff hlocated strategy o).mpr
      (fun hrec => hcarried (of_strategyOf_recursive (hrec ▸ hstrategy))) _ hwith _ hchunk
    rw [cites_iff hs he] at hcites
    rw [hslice]
    exact isInfix_encode (hcites w (hwords ▸ hw))

end

def twoParagraphs : List Char := "One two.\n\nThree.".toList

def note : Bytes := bytes "One two.\n\nThree."

def noteBlocks : List (SourceBlock Char) := flowSourceBlocks (splitPlain twoParagraphs)

def noteChunks : List (Chunk Char) :=
  LayoutChunks.chunkLayout wordCount 512 64 (reloaded {} "d" noteBlocks ["b1", "b2"])

def citing (c : Chunk Char) : Corpus ℚ where
  documents := [⟨"d", "default", "note.txt", some "flow"⟩]
  db := { chunks := [⟨"c", "d", "layout", c⟩] }
  points _ := []
  documents_nodup := List.nodup_singleton _
  chunks_nodup := List.nodup_singleton _
  chunks_owned _ hrow := List.mem_singleton.mp hrow ▸ List.mem_cons_self

theorem note_is_text :
    decodeUtf8 note = some twoParagraphs ∧
      detectFormat SourceObjects.plainPlatform (note.take SourceObjects.SNIFF_BYTES) "note.txt" =
        .ok txt := by
  constructor
  · decide +kernel
  · rfl

theorem parse_note : parseFlow SourceObjects.plainPlatform note "note.txt" = .ok noteBlocks := by
  unfold parseFlow
  rw [note_is_text.1]
  simp only [note_is_text.2]
  rfl

theorem both_paragraphs_are_marked :
    ∃ c ∈ noteChunks, ∃ t text h, citationTarget (citing c) "c" = some t ∧
      documentText (fun _ => []) t.provenance note = .ok text ∧
      flowHighlight (Utf16.encode text) t.charStart t.charEnd = some h ∧
      ∀ w ∈ words space t.text, Utf16.encode w <:+: h.mark := by
  have hone : noteChunks.length = 1 := by decide +kernel
  obtain ⟨c, hc⟩ := List.exists_mem_of_length_pos (hone ▸ Nat.one_pos)
  have hlines : InLines SourceObjects.plainPlatform note "note.txt" := by
    intro fmt hfmt
    rw [note_is_text.2] at hfmt
    cases hfmt
    decide +kernel
  have hdraws : ({} : Database).Draws ["b1", "b2"] noteBlocks.length := by decide +kernel
  have hdocument : ∀ doc ∈ (citing c).documents, doc.id = "d" → doc.provenance = some "flow" := by
    intro doc hdoc _
    rw [List.mem_singleton.mp hdoc]
  have hnarrow : ∀ text, decodeUtf8 note = some text → ∀ c ∈ text, Utf16.wide c = false := by
    intro text htext
    obtain rfl := Option.some.inj (note_is_text.1.symm.trans htext)
    have hnone : twoParagraphs.any Utf16.wide = false := by decide +kernel
    exact fun c hc => Bool.eq_false_iff.mpr (List.any_eq_false.mp hnone c hc)
  have hchunks : chunkDocument "layout" (reloaded {} "d" noteBlocks ["b1", "b2"])
      ({ countTokens := wordCount, embed := fun _ => [], breakpointPercentile := 0 } :
        ChunkOptions ℚ) = .ok noteChunks := rfl
  have hrow : (⟨"c", "d", "layout", c⟩ : ChunkRow) ∈ (citing c).db.chunks := List.mem_cons_self
  obtain ⟨t, text, h, ht, hsent, hh, -, hwords⟩ := highlights_mark_what_is_cited parse_note hlines
    hdraws hchunks hrow hc hdocument hnarrow fun _ => []
  exact ⟨c, hc, t, text, h, ht, hsent, hh, hwords fun hrec => absurd hrec (by decide)⟩

end Ragent.FlowDocuments
