import Ragent.ChunkDocument
import Ragent.TopicCuts

set_option autoImplicit false

/-!
# What the chunks keep of a document

Every strategy names exactly the content blocks, and without overlap every strategy keeps the words
of the document, each once and in order.
-/
namespace Ragent.ChunkCoverage
open SpacedWords PyText PyNumbers SourceTypes FlattenedDocument RangeChunks FixedChunks
  RecursiveChunks LayoutChunks SemanticChunks ChunkDocument

variable {α F : Type} [Glyph α] [PyFloat F]

/-- The chunks name exactly the blocks of the document that are neither furniture nor blank, and
    none of them is empty. -/
structure Covers (blocks : List (SourceBlock α)) (chunks : List (Chunk α)) : Prop where
  blockIds : ∀ id, (∃ c ∈ chunks, id ∈ c.blockIds) ↔
    ∃ b ∈ blocks, b.isFurniture = false ∧ strip b.text ≠ [] ∧ b.id = id
  text : ∀ c ∈ chunks, strip c.text ≠ []
  nonempty : ∀ c ∈ chunks, c.blockIds ≠ []

theorem exists_prepare_iff (blocks : List (SourceBlock α)) (id : String) :
    (∃ b ∈ prepare blocks, b.id = id) ↔
      ∃ b ∈ blocks, b.isFurniture = false ∧ strip b.text ≠ [] ∧ b.id = id := by
  simp only [mem_prepare, Ne, strip_eq_nil_iff]
  constructor
  · rintro ⟨b, ⟨hb, hwords, hfurniture⟩, hid⟩
    exact ⟨b, hb, hfurniture, hwords, hid⟩
  · rintro ⟨b, hb, hfurniture, hwords, hid⟩
    exact ⟨b, ⟨hb, hwords, hfurniture⟩, hid⟩

theorem covers_of_ranges {blocks : List (SourceBlock α)} {rs : List (ℕ × ℕ)} (strategy : String)
    (countTokens : TokenCounter) (h : CoveringCuts (flatten (prepare blocks)).1 rs) :
    Covers blocks (appendRanges (flatten (prepare blocks)).1 (flatten (prepare blocks)).2 strategy
      countTokens [] rs) := by
  have hflat := flatten_flattened (prepare blocks)
  refine ⟨fun id => ?_, fun c hc => ?_, fun c hc => ?_⟩
  · rw [blockIds_of_coveringCuts strategy countTokens hflat h id, ← exists_prepare_iff]
    have hmem : ∀ b, b ∈ prepare blocks ↔ ∃ sp ∈ (flatten (prepare blocks)).2, sp.block = b := by
      intro b
      rw [← List.mem_map, flatten_prepare_blocks]
    simp [hmem]
  · obtain ⟨r, -, hr⟩ := range_of_chunk strategy countTokens hflat hc
    rw [Ne, strip_eq_nil_iff, hr.words_text]
    exact hr.notBlank
  · obtain ⟨r, -, hr⟩ := range_of_chunk strategy countTokens hflat hc
    exact hr.blockIds_ne_nil hflat

theorem Covers.withPrevious {blocks : List (SourceBlock α)} {chunks : List (Chunk α)}
    {f : Chunk α → Chunk α → Chunk α} (h : Covers blocks chunks)
    (hf : ∀ prev ∈ chunks, ∀ cur ∈ chunks, cur.blockIds ⊆ (f prev cur).blockIds ∧
      (f prev cur).blockIds ⊆ prev.blockIds ++ cur.blockIds ∧ strip (f prev cur).text ≠ []) :
    Covers blocks (withPrevious f chunks) := by
  have hmem : ∀ prev cur : Chunk α, [prev, cur] <:+: chunks → prev ∈ chunks ∧ cur ∈ chunks :=
    fun prev cur hsucc => ⟨hsucc.subset (by simp), hsucc.subset (by simp)⟩
  have hold : ∀ c ∈ chunks, ∃ c' ∈ FlattenedDocument.withPrevious f chunks,
      c.blockIds ⊆ c'.blockIds := by
    intro c hc
    rcases mem_chunks_cases hc with hhead | ⟨prev, hsucc⟩
    · exact ⟨c, mem_withPrevious.mpr (Or.inl hhead), List.Subset.refl _⟩
    · exact ⟨_, mem_withPrevious.mpr (Or.inr ⟨prev, c, hsucc, rfl⟩),
        (hf prev (hmem _ _ hsucc).1 c hc).1⟩
  have hnew : ∀ c' ∈ FlattenedDocument.withPrevious f chunks,
      strip c'.text ≠ [] ∧ c'.blockIds ≠ [] ∧ ∀ id ∈ c'.blockIds, ∃ c ∈ chunks, id ∈ c.blockIds := by
    intro c' hc'
    rcases mem_withPrevious.mp hc' with hhead | ⟨prev, cur, hsucc, rfl⟩
    · have hc := List.mem_of_mem_head? hhead
      exact ⟨h.text _ hc, h.nonempty _ hc, fun id hid => ⟨c', hc, hid⟩⟩
    · obtain ⟨hprev, hcur⟩ := hmem _ _ hsucc
      obtain ⟨h1, h2, h3⟩ := hf prev hprev cur hcur
      refine ⟨h3, fun h0 => h.nonempty cur hcur ?_, fun id hid => ?_⟩
      · rw [h0] at h1
        exact List.subset_nil.mp h1
      · rcases List.mem_append.mp (h2 hid) with hid | hid
        · exact ⟨prev, hprev, hid⟩
        · exact ⟨cur, hcur, hid⟩
  refine ⟨fun id => ?_, fun c hc => (hnew c hc).1, fun c hc => (hnew c hc).2.1⟩
  rw [← h.blockIds id]
  constructor
  · rintro ⟨c', hc', hid⟩
    exact (hnew c' hc').2.2 id hid
  · rintro ⟨c, hc, hid⟩
    obtain ⟨c', hc', hsub⟩ := hold c hc
    exact ⟨c', hc', hsub hid⟩

theorem chunkRecursive_covers (countTokens : TokenCounter) (target overlap : ℤ)
    (blocks : List (SourceBlock α)) :
    Covers blocks (chunkRecursive countTokens target overlap blocks) := by
  obtain ⟨rs, hrs, heq⟩ := packedChunks_tiles countTokens target blocks
  have hpacked : Covers blocks (packedChunks countTokens target blocks) := by
    rw [heq]
    exact covers_of_ranges "recursive" countTokens (coveringCuts_of_tiles hrs)
  unfold chunkRecursive
  simp only
  split_ifs with hoverlap
  · apply hpacked.withPrevious
    intro prev _ cur hcur
    refine ⟨fun id hid => ?_, fun id hid => ?_, ?_⟩
    · exact (mem_blockIds_overlapChunk countTokens overlap).mpr (Or.inr hid)
    · rcases (mem_blockIds_overlapChunk countTokens overlap).mp hid with ⟨-, hlast⟩ | hid
      · exact List.mem_append_left _ (List.mem_of_getLast? hlast)
      · exact List.mem_append_right _ hid
    · rw [Ne, strip_eq_nil_iff, words_overlapChunk, List.append_eq_nil_iff]
      rintro ⟨-, h0⟩
      exact hpacked.text cur hcur (strip_eq_nil_iff.mpr h0)
  · exact hpacked

theorem covers_of_groups (countTokens : TokenCounter) {blocks : List (SourceBlock α)}
    {groups : List (List (SourceBlock α))} (hne : ∀ g ∈ groups, g ≠ [])
    (hall : ∀ b, (∃ g ∈ groups, b ∈ g) ↔ b ∈ prepare blocks) :
    Covers blocks (groups.mapIdx (groupChunk countTokens)) := by
  have hwords : ∀ g ∈ groups, (g.flatMap fun b => words space b.text) ≠ [] := by
    intro g hg
    obtain ⟨b, rest, rfl⟩ := List.exists_cons_of_ne_nil (hne g hg)
    have hb := (mem_prepare.mp ((hall b).mp ⟨_, hg, List.mem_cons_self⟩)).2.1
    rw [List.flatMap_cons]
    exact List.append_ne_nil_of_left_ne_nil hb _
  refine ⟨fun id => ?_, fun c hc => ?_, fun c hc => ?_⟩
  · rw [← exists_prepare_iff]
    constructor
    · rintro ⟨c, hc, hid⟩
      obtain ⟨i, g, hg, rfl⟩ := mem_mapIdx_groups hc
      obtain ⟨b, hb, rfl⟩ := List.mem_map.mp hid
      exact ⟨b, (hall b).mp ⟨g, hg, hb⟩, rfl⟩
    · rintro ⟨b, hb, rfl⟩
      obtain ⟨g, hg, hmem⟩ := (hall b).mpr hb
      obtain ⟨i, hi, rfl⟩ := List.mem_iff_getElem.mp hg
      refine ⟨groupChunk countTokens i groups[i], ?_, List.mem_map_of_mem hmem⟩
      exact List.mem_mapIdx.mpr ⟨i, hi, rfl⟩
  · obtain ⟨i, g, hg, rfl⟩ := mem_mapIdx_groups hc
    rw [Ne, strip_eq_nil_iff, words_groupChunk]
    exact hwords g hg
  · obtain ⟨i, g, hg, rfl⟩ := mem_mapIdx_groups hc
    simpa using hne g hg

theorem chunkLayout_covers (countTokens : TokenCounter) (target overlap : ℤ)
    {blocks : List (SourceBlock α)} (hids : (blocks.map (·.id)).Nodup) :
    Covers blocks (chunkLayout countTokens target overlap blocks) := by
  obtain ⟨groups, -, hflat, hgroups, heq⟩ := chunkLayout_groups countTokens target overlap hids
  rw [heq]
  apply covers_of_groups countTokens
  · intro g hg
    split_ifs at hg
    · exact overlapGroups_ne_nil countTokens overlap hgroups hg
    · exact (hgroups g hg).ne_nil
  · intro b
    rw [← hflat, List.mem_flatten]
    split_ifs
    · constructor
      · rintro ⟨g, hg, hb⟩
        exact List.mem_flatten.mp (overlapGroups_subset countTokens overlap hg hb)
      · rintro ⟨g, hg, hb⟩
        obtain ⟨g', hg', hsub⟩ := exists_overlapGroup countTokens overlap hg
        exact ⟨g', hg', hsub hb⟩
    · rfl

theorem chunkFixed_covers (F : Type) [PyFloat F] (countTokens : TokenCounter)
    (target overlap : ℤ) (blocks : List (SourceBlock α)) :
    Covers blocks (chunkFixed F countTokens target overlap blocks) := by
  obtain ⟨rs, hrs, heq⟩ := chunkFixed_covering F countTokens target overlap blocks
  rw [heq]
  exact covers_of_ranges "fixed" countTokens hrs

theorem chunkSemantic_covers (countTokens : TokenCounter) (target : ℤ)
    {embed : List (List Char) → List (List F)} {q : F} {blocks : List (SourceBlock α)}
    {chunks : List (Chunk α)} (h : chunkSemantic countTokens target embed q blocks = .ok chunks) :
    Covers blocks chunks := by
  obtain ⟨rs, hrs, rfl⟩ := chunkSemantic_tiles countTokens target h
  exact covers_of_ranges "semantic" countTokens (coveringCuts_of_tiles hrs)

theorem chunkDocument_covers {strategy : String} {blocks : List (SourceBlock α)}
    (hids : (blocks.map (·.id)).Nodup) {o : ChunkOptions F} {chunks : List (Chunk α)}
    (h : chunkDocument strategy blocks o = .ok chunks) : Covers blocks chunks := by
  obtain ⟨fn, -, hchunks⟩ := chunkDocument_eq_ok h
  cases fn with
  | fixed => cases hchunks; exact chunkFixed_covers F _ _ _ blocks
  | recursive => cases hchunks; exact chunkRecursive_covers _ _ _ blocks
  | layout => cases hchunks; exact chunkLayout_covers _ _ _ hids
  | semantic => exact chunkSemantic_covers _ _ hchunks

/-- Block coverage for every strategy; the semantic one returns chunks whenever the embedder's
    vectors can be compared. -/
theorem every_strategy_covers_the_content_blocks (blocks : List (SourceBlock Char))
    (hids : (blocks.map (·.id)).Nodup) (countTokens : TokenCounter) (target overlap : ℤ)
    (embed : List (List Char) → List (List F)) (q : F) :
    Covers blocks (chunkFixed F countTokens target overlap blocks) ∧
      Covers blocks (chunkRecursive countTokens target overlap blocks) ∧
      Covers blocks (chunkLayout countTokens target overlap blocks) ∧
      (∀ chunks, chunkSemantic countTokens target embed q blocks = .ok chunks →
        Covers blocks chunks) ∧
      (Embeds embed q → ∃ chunks, chunkSemantic countTokens target embed q blocks = .ok chunks) :=
  ⟨chunkFixed_covers F countTokens target overlap blocks,
    chunkRecursive_covers countTokens target overlap blocks,
    chunkLayout_covers countTokens target overlap hids,
    fun _ h => chunkSemantic_covers countTokens target h,
    fun hembed => chunkSemantic_returns countTokens target hembed blocks⟩

def twoSentences : List (SourceBlock Char) :=
  [SourceBlock.paragraph "a" 0 "One two." 0, SourceBlock.paragraph "b" 1 "Three." 10]

def constant (sentences : List (List Char)) : List (List ℚ) := sentences.map fun _ => [1]

theorem constant_embeds : Embeds constant 0 := by
  apply TopicCuts.embeds_of_width (n := 1)
  · exact fun sentences => List.length_map _
  · intro sentences v hv
    obtain ⟨_, -, rfl⟩ := List.mem_map.mp hv
    rfl
  · exact le_refl 0
  · exact zero_le_one

theorem two_paragraphs_covered :
    Covers twoSentences (chunkLayout wordCount 2 1 twoSentences) ∧
      (TopicCuts.sentencesOf (flatten (prepare twoSentences)).1).length = 2 ∧
      ∃ chunks, chunkSemantic wordCount 2 constant 0 twoSentences = .ok chunks ∧
        Covers twoSentences chunks := by
  obtain ⟨-, -, hlayout, hcovers, hreturns⟩ :=
    every_strategy_covers_the_content_blocks twoSentences (by decide) wordCount 2 1 constant 0
  obtain ⟨chunks, hchunks⟩ := hreturns constant_embeds
  exact ⟨hlayout, by decide +kernel, chunks, hchunks, hcovers chunks hchunks⟩

/-- The words of the non-furniture blocks, sorted by `(page_no, reading_order)`. -/
def sortedWords (blocks : List (SourceBlock α)) : List (List α) :=
  ((blocks.filter fun b => !b.isFurniture).insertionSort inOrder).flatMap fun b =>
    words space b.text

theorem words_prepare (blocks : List (SourceBlock α)) :
    ((prepare blocks).flatMap fun b => words space b.text) = sortedWords blocks := by
  rw [prepare_eq, sortedWords]
  generalize (blocks.filter fun b => !b.isFurniture).insertionSort inOrder = sorted
  induction sorted with
  | nil => rfl
  | cons b sorted ih =>
    rw [List.filter_cons, List.flatMap_cons, ← ih]
    split_ifs with hb
    · rfl
    · have hblank : words space b.text = [] := by simpa [strip_eq_nil_iff] using hb
      rw [hblank, List.nil_append]

theorem words_of_ranges {blocks : List (SourceBlock α)} {rs : List (ℕ × ℕ)} (strategy : String)
    (countTokens : TokenCounter) (h : Tiles space (flatten (prepare blocks)).1 0 rs) :
    ((appendRanges (flatten (prepare blocks)).1 (flatten (prepare blocks)).2 strategy countTokens []
      rs).flatMap fun c => words space c.text) = sortedWords blocks := by
  have hflat := flatten_flattened (prepare blocks)
  rw [words_of_tiles strategy countTokens hflat h, hflat.words_doc, flatten_prepare_blocks,
    words_prepare]

theorem words_packedBlocks (countTokens : TokenCounter) (target : ℤ)
    (blocks : List (SourceBlock α)) :
    ((packedBlocks countTokens target blocks).flatMap fun c => words space c.text) =
      sortedWords blocks := by
  obtain ⟨groups, hpacked, hflat, -⟩ := packedBlocks_groups countTokens target blocks
  rw [← words_prepare, ← hflat, hpacked]
  clear hpacked hflat
  induction groups using List.reverseRecOn with
  | nil => rfl
  | append_singleton groups g ih =>
    rw [List.mapIdx_concat, List.flatMap_append, ih, List.flatMap_singleton, words_groupChunk,
      List.flatten_append, List.flatten_singleton, List.flatMap_append]

/-- Word-for-word conservation: without overlap, and for the semantic strategy always, the chunks
    hold the words of the document, each once and in order. -/
theorem every_strategy_conserves_words (blocks : List (SourceBlock Char))
    {countTokens : TokenCounter} (hcount : CountsWords countTokens) (target : ℤ)
    (embed : List (List Char) → List (List F)) (q : F) :
    ((chunkFixed F countTokens target 0 blocks).flatMap fun c => words space c.text) =
        sortedWords blocks ∧
      ((chunkRecursive countTokens target 0 blocks).flatMap fun c => words space c.text) =
        sortedWords blocks ∧
      ((chunkLayout countTokens target 0 blocks).flatMap fun c => words space c.text) =
        sortedWords blocks ∧
      ∀ chunks, chunkSemantic countTokens target embed q blocks = .ok chunks →
        (chunks.flatMap fun c => words space c.text) = sortedWords blocks := by
  refine ⟨?_, ?_, ?_, ?_⟩
  · obtain ⟨rs, hrs, heq⟩ := chunkFixed_tiles F countTokens target hcount blocks
    rw [heq]
    exact words_of_ranges "fixed" countTokens hrs
  · obtain ⟨rs, hrs, heq⟩ := packedChunks_tiles countTokens target blocks
    rw [chunkRecursive, if_neg (lt_irrefl 0), heq]
    exact words_of_ranges "recursive" countTokens hrs
  · rw [chunkLayout, if_neg (lt_irrefl 0)]
    exact words_packedBlocks countTokens target blocks
  · intro chunks h
    obtain ⟨rs, hrs, rfl⟩ := chunkSemantic_tiles countTokens target h
    exact words_of_ranges "semantic" countTokens hrs

theorem two_paragraphs_conserved :
    ((chunkFixed ℚ wordCount 2 0
        [SourceBlock.paragraph "a" 0 "one two" 0, SourceBlock.paragraph "b" 1 "three" 9]).flatMap
        fun c => words space c.text) =
      ["one".toList, "two".toList, "three".toList] := by
  have hwords : sortedWords [SourceBlock.paragraph "a" 0 "one two" 0,
      SourceBlock.paragraph "b" 1 "three" 9] = ["one".toList, "two".toList, "three".toList] := by
    decide
  rw [← hwords]
  exact (every_strategy_conserves_words _ wordCount_countsWords 2
    (fun sentences : List (List Char) => sentences.map fun _ => [(1 : ℚ)]) 0).1

end Ragent.ChunkCoverage
