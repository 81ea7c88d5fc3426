import Ragent.TracedRun

set_option autoImplicit false

/-!
# Where the text of a chunk comes from

Every character of a block is traced to its block and its place there. A run on traced blocks
says of each word of a chunk which block it was read from.
-/
namespace Ragent.ChunkProvenance
open SpacedWords PyText PyNumbers SourceTypes FlattenedDocument RangeChunks FixedChunks
  RecursiveChunks LayoutChunks SemanticChunks ChunkDocument TracedRun

section
variable {α F : Type} [Glyph α] [PyFloat F]

def Sourced (blocks : List (SourceBlock α)) (c : Chunk α) : Prop :=
  ∀ w ∈ words space c.text, ∃ b ∈ blocks, b.id ∈ c.blockIds ∧ w ∈ words space b.text

instance [DecidableEq α] (blocks : List (SourceBlock α)) (c : Chunk α) :
    Decidable (Sourced blocks c) :=
  inferInstanceAs (Decidable (∀ w ∈ words space c.text, _))

/-- The words the budget carries over all come from the last block of the chunk they are taken
    from. -/
def OverlapInLastBlock (countTokens : TokenCounter) (target overlap : ℤ)
    (blocks : List (SourceBlock α)) : Prop :=
  ∀ prev cur, [prev, cur] <:+: packedChunks countTokens target blocks →
    ∀ w ∈ carriedWords countTokens overlap prev,
      ∃ b ∈ blocks, prev.blockIds.getLast? = some b.id ∧ w ∈ words space b.text

instance [DecidableEq α] (countTokens : TokenCounter) (target overlap : ℤ)
    (blocks : List (SourceBlock α)) :
    Decidable (OverlapInLastBlock countTokens target overlap blocks) :=
  decidable_of_iff (∀ p ∈ (packedChunks countTokens target blocks).zip
      (packedChunks countTokens target blocks).tail, ∀ w ∈ carriedWords countTokens overlap p.1,
        ∃ b ∈ blocks, p.1.blockIds.getLast? = some b.id ∧ w ∈ words space b.text)
    ⟨fun h prev cur hsucc => h (prev, cur) (mem_zip_tail.mpr hsucc),
      fun h p hp => h p.1 p.2 (mem_zip_tail.mp hp)⟩

theorem sourced_of_drawsOn {blocks bs : List (SourceBlock α)} {c : Chunk α} (h : DrawsOn bs c)
    (hbs : bs ⊆ prepare blocks) : Sourced blocks c := by
  intro w hw
  obtain ⟨b, hb, hword⟩ := h.words w hw
  exact ⟨b, (mem_prepare.mp (hbs hb)).1, h.blockIds ▸ List.mem_map_of_mem hb, hword⟩

theorem drawsOn_of_ranges {blocks : List (SourceBlock α)} {rs : List (ℕ × ℕ)} (strategy : String)
    (countTokens : TokenCounter) (h : CoveringCuts (flatten (prepare blocks)).1 rs) :
    ∀ c ∈ appendRanges (flatten (prepare blocks)).1 (flatten (prepare blocks)).2 strategy
      countTokens [] rs, ∃ bs ⊆ prepare blocks, DrawsOn bs c := by
  intro c hc
  have hdraws := drawsOn_of_coveringCuts strategy countTokens (flatten_flattened _) h hc
  rwa [flatten_prepare_blocks] at hdraws

theorem packedChunks_drawsOn (countTokens : TokenCounter) (target : ℤ)
    (blocks : List (SourceBlock α)) :
    ∀ c ∈ packedChunks countTokens target blocks, ∃ bs ⊆ prepare blocks, DrawsOn bs c := by
  obtain ⟨rs, hrs, heq⟩ := packedChunks_tiles countTokens target blocks
  rw [heq]
  exact drawsOn_of_ranges "recursive" countTokens (coveringCuts_of_tiles hrs)

theorem packedChunks_sourced (countTokens : TokenCounter) (target : ℤ)
    (blocks : List (SourceBlock α)) :
    ∀ c ∈ packedChunks countTokens target blocks, Sourced blocks c := by
  intro c hc
  obtain ⟨bs, hbs, hdraws⟩ := packedChunks_drawsOn countTokens target blocks c hc
  exact sourced_of_drawsOn hdraws hbs

theorem chunkWith_drawsOn {strategy : Strategy} {blocks : List (SourceBlock α)}
    (hids : (blocks.map (·.id)).Nodup) {o : ChunkOptions F}
    (hrec : strategy = .recursive → ¬ 0 < o.overlapTokens) {chunks : List (Chunk α)}
    (h : chunkWith strategy blocks o = .ok chunks) :
    ∀ c ∈ chunks, ∃ bs ⊆ prepare blocks, DrawsOn bs c := by
  cases strategy with
  | fixed =>
    cases h
    obtain ⟨rs, hrs, heq⟩ := chunkFixed_covering F o.countTokens o.targetTokens o.overlapTokens
      blocks
    rw [heq]
    exact drawsOn_of_ranges "fixed" o.countTokens hrs
  | recursive =>
    cases h
    rw [chunkRecursive, if_neg (hrec rfl)]
    exact packedChunks_drawsOn o.countTokens o.targetTokens blocks
  | layout =>
    cases h
    exact chunkLayout_drawsOn o.countTokens o.targetTokens o.overlapTokens hids
  | semantic =>
    obtain ⟨rs, hrs, rfl⟩ := chunkSemantic_tiles o.countTokens o.targetTokens h
    exact drawsOn_of_ranges "semantic" o.countTokens (coveringCuts_of_tiles hrs)

section
variable {blocks : List (SourceBlock α)} {before : SourceBlock α → SourceBlock α → Prop}
  (hbefore : (prepare blocks).Pairwise before) {sp : Span α} {s e : ℕ}
include hbefore

theorem spans_trichotomy {sp' : Span α} (hsp : sp ∈ (flatten (prepare blocks)).2)
    (hsp' : sp' ∈ (flatten (prepare blocks)).2) :
    (before sp.block sp'.block ∧ sp.stop ≤ sp'.start) ∨ sp = sp' ∨
      (before sp'.block sp.block ∧ sp'.stop ≤ sp.start) := by
  have hordered := (flatten_flattened (prepare blocks)).ordered
  rw [← flatten_prepare_blocks blocks, List.pairwise_map] at hbefore
  obtain ⟨i, hi, rfl⟩ := List.mem_iff_getElem.mp hsp
  obtain ⟨j, hj, rfl⟩ := List.mem_iff_getElem.mp hsp'
  rcases Nat.lt_trichotomy i j with hlt | rfl | hgt
  · exact .inl ⟨List.pairwise_iff_getElem.mp hbefore i j hi hj hlt,
      List.pairwise_iff_getElem.mp hordered i j hi hj hlt⟩
  · exact .inr (.inl rfl)
  · exact .inr (.inr ⟨List.pairwise_iff_getElem.mp hbefore j i hj hi hgt,
      List.pairwise_iff_getElem.mp hordered j i hj hi hgt⟩)

theorem before_of_stop_le (hsp : sp ∈ (flatten (prepare blocks)).2) (hstop : sp.stop ≤ s) :
    ∀ b ∈ blocksInRange (flatten (prepare blocks)).2 s e, before sp.block b := by
  intro b hb
  obtain ⟨sp', hsp', hs', he', rfl⟩ := mem_blocksInRange.mp hb
  have hlength := ((flatten_flattened (prepare blocks)).span_text sp hsp).1
  rcases spans_trichotomy hbefore hsp hsp' with h | rfl | h
  · exact h.1
  · omega
  · omega

theorem before_of_le_start (hsp : sp ∈ (flatten (prepare blocks)).2) (hstart : e ≤ sp.start) :
    ∀ b ∈ blocksInRange (flatten (prepare blocks)).2 s e, before b sp.block := by
  intro b hb
  obtain ⟨sp', hsp', hs', he', rfl⟩ := mem_blocksInRange.mp hb
  have hlength := ((flatten_flattened (prepare blocks)).span_text sp hsp).1
  rcases spans_trichotomy hbefore hsp hsp' with h | rfl | h
  · omega
  · omega
  · exact h.1

end

/-- Two chunks that follow each other, in the order of the blocks: those of the first, those of the
    second, which may start with the last one of the first, and no block between. -/
theorem successive_drawsOn (countTokens : TokenCounter) (target : ℤ)
    {blocks : List (SourceBlock α)} {before : SourceBlock α → SourceBlock α → Prop}
    (hbefore : (prepare blocks).Pairwise before) {prev cur : Chunk α}
    (hsucc : [prev, cur] <:+: packedChunks countTokens target blocks) :
    ∃ bs ⊆ prepare blocks, ∃ bs' ⊆ prepare blocks, DrawsOn bs prev ∧ DrawsOn bs' cur ∧
      (∀ b ∈ bs, ∀ b' ∈ bs', b = b' ∨ before b b') ∧
      ∀ b ∈ prepare blocks, b ∈ bs' ∨ (∀ b' ∈ bs', before b' b) ∨
        ((∀ b' ∈ bs', before b b') ∧ ∃ b' ∈ bs, b = b' ∨ before b b') := by
  obtain ⟨rs, hrs, heq⟩ := packedChunks_tiles countTokens target blocks
  have hflat := flatten_flattened (prepare blocks)
  have hcuts := coveringCuts_of_tiles hrs
  rw [heq] at hsucc
  obtain ⟨r, t, hr, ht, hle, hrmem, htmem, hgap⟩ :=
    successive_ranges "recursive" countTokens hflat hrs hsucc
  have hsub : ∀ r : ℕ × ℕ, blocksInRange (flatten (prepare blocks)).2 r.1 r.2 ⊆ prepare blocks := by
    intro r b hb
    obtain ⟨sp, hsp, -, -, rfl⟩ := mem_blocksInRange.mp hb
    rw [← flatten_prepare_blocks blocks]
    exact List.mem_map_of_mem hsp
  refine ⟨_, hsub r, _, hsub t, hr.drawsOn hflat (hcuts.isCut r hrmem),
    ht.drawsOn hflat (hcuts.isCut t htmem), fun b hb b' hb' => ?_, fun b hb => ?_⟩
  · obtain ⟨sp, hsp, hs, he, rfl⟩ := mem_blocksInRange.mp hb
    obtain ⟨sp', hsp', hs', he', rfl⟩ := mem_blocksInRange.mp hb'
    rcases spans_trichotomy hbefore hsp hsp' with ⟨h, -⟩ | rfl | ⟨-, h⟩
    · exact Or.inr h
    · exact Or.inl rfl
    · omega
  · rw [← flatten_prepare_blocks blocks, List.mem_map] at hb
    obtain ⟨sp, hsp, rfl⟩ := hb
    rcases Nat.lt_or_ge sp.start t.2 with hlt | hge
    · rcases Nat.lt_or_ge t.1 sp.stop with hlt' | hge'
      · exact Or.inl (mem_blocksInRange.mpr ⟨sp, hsp, hlt, hlt', rfl⟩)
      · refine Or.inr (Or.inr ⟨before_of_stop_le hbefore hsp hge', ?_⟩)
        -- the gap is blank, so the block starts in front of the first chunk's end
        obtain ⟨hstop, -, hne, -⟩ := hflat.span_text sp hsp
        have hpos := List.length_pos_iff.mpr hne
        obtain ⟨a, ha, hsolid⟩ := hflat.span_head sp hsp
        have hin : sp.start < r.2 := by
          by_contra hout
          have := hgap a (mem_slice.mpr ⟨sp.start, by omega, by omega, ha⟩)
          simp [this] at hsolid
        rcases Nat.lt_or_ge r.1 sp.stop with hover | hfront
        · exact ⟨_, mem_blocksInRange.mpr ⟨sp, hsp, hin, hover, rfl⟩, Or.inl rfl⟩
        · obtain ⟨b', hb'⟩ := List.exists_mem_of_ne_nil _ (hflat.blocksInRange_ne_nil hr.notBlank)
          exact ⟨b', hb', Or.inr (before_of_stop_le hbefore hsp hfront b' hb')⟩
    · exact Or.inr (Or.inl (before_of_le_start hbefore hsp hge))

theorem shared_block_is_last (countTokens : TokenCounter) (target : ℤ)
    {blocks : List (SourceBlock α)} (hids : (blocks.map (·.id)).Nodup) {prev cur : Chunk α}
    (hsucc : [prev, cur] <:+: packedChunks countTokens target blocks) {id : String}
    (hprev : id ∈ prev.blockIds) (hcur : id ∈ cur.blockIds) :
    prev.blockIds.getLast? = some id := by
  obtain ⟨rs, hrs, heq⟩ := packedChunks_tiles countTokens target blocks
  have hflat := flatten_flattened (prepare blocks)
  rw [heq] at hsucc
  obtain ⟨r, t, hr, ht, hle, -, -, -⟩ := successive_ranges "recursive" countTokens hflat hrs hsucc
  rw [hr.blockIds, List.mem_map] at hprev
  rw [ht.blockIds, List.mem_map] at hcur
  obtain ⟨b, hb, hbid⟩ := hprev
  obtain ⟨b', hb', hbid'⟩ := hcur
  obtain ⟨sp, hsp, hs, he, rfl⟩ := mem_blocksInRange.mp hb
  obtain ⟨sp', hsp', hs', he', rfl⟩ := mem_blocksInRange.mp hb'
  have hnodup : ((flatten (prepare blocks)).2.map fun sp => sp.block.id).Nodup := by
    have h := prepare_ids_nodup hids
    rwa [← flatten_prepare_blocks blocks, List.map_map] at h
  have hsame : sp = sp' := List.inj_on_of_nodup_map hnodup hsp hsp' (hbid.trans hbid'.symm)
  rw [hr.blockIds, List.getLast?_map, hflat.last_blocksInRange hsp hs he (by rw [hsame]; omega)]
  exact congrArg some hbid

theorem overlapChunk_sourced {countTokens : TokenCounter} {target overlap : ℤ}
    {blocks : List (SourceBlock α)} (h : OverlapInLastBlock countTokens target overlap blocks)
    {prev cur : Chunk α} (hsucc : [prev, cur] <:+: packedChunks countTokens target blocks) :
    Sourced blocks (overlapChunk countTokens overlap prev cur) := by
  intro w hw
  rw [words_overlapChunk, List.mem_append] at hw
  rcases hw with hw | hw
  · obtain ⟨b, hb, hlast, hword⟩ := h prev cur hsucc w hw
    exact ⟨b, hb, (mem_blockIds_overlapChunk countTokens overlap).mpr
      (Or.inl ⟨List.ne_nil_of_mem hw, hlast⟩), hword⟩
  · have hcur := packedChunks_sourced countTokens target blocks cur (hsucc.subset (by simp))
    obtain ⟨b, hb, hid, hword⟩ := hcur w hw
    exact ⟨b, hb, (mem_blockIds_overlapChunk countTokens overlap).mpr (Or.inr hid), hword⟩

theorem chunkWith_sourced {strategy : Strategy} {blocks : List (SourceBlock α)}
    (hids : (blocks.map (·.id)).Nodup) {o : ChunkOptions F}
    (hrec : strategy = .recursive → 0 < o.overlapTokens →
      OverlapInLastBlock o.countTokens o.targetTokens o.overlapTokens blocks)
    {chunks : List (Chunk α)} (h : chunkWith strategy blocks o = .ok chunks) :
    ∀ c ∈ chunks, Sourced blocks c := by
  by_cases hcase : strategy = .recursive ∧ 0 < o.overlapTokens
  · obtain ⟨rfl, hoverlap⟩ := hcase
    cases h
    rw [chunkRecursive, if_pos hoverlap]
    intro c hc
    rcases mem_withPrevious.mp hc with hhead | ⟨prev, cur, hsucc, rfl⟩
    · exact packedChunks_sourced _ _ blocks c (List.mem_of_mem_head? hhead)
    · exact overlapChunk_sourced (hrec rfl hoverlap) hsucc
  · intro c hc
    obtain ⟨bs, hbs, hdraws⟩ := chunkWith_drawsOn hids (not_and.mp hcase) h c hc
    exact sourced_of_drawsOn hdraws hbs

/-- Where a word tells its block, text outside the named blocks is carried over as soon as a word
    does not come from the last block. -/
theorem overlapInLastBlock_of_sourced {countTokens : TokenCounter} {target overlap : ℤ}
    {blocks : List (SourceBlock α)} (hids : (blocks.map (·.id)).Nodup)
    (htell : ∀ b ∈ blocks, ∀ b' ∈ blocks, ∀ w ∈ words space b.text, w ∈ words space b'.text →
      b.id = b'.id)
    (hoverlap : 0 < overlap)
    (h : ∀ c ∈ chunkRecursive countTokens target overlap blocks, Sourced blocks c) :
    OverlapInLastBlock countTokens target overlap blocks := by
  intro prev cur hsucc w hw
  have hmem : overlapChunk countTokens overlap prev cur ∈
      chunkRecursive countTokens target overlap blocks := by
    rw [chunkRecursive, if_pos hoverlap]
    exact mem_withPrevious.mpr (Or.inr ⟨prev, cur, hsucc, rfl⟩)
  obtain ⟨b, hb, hid, hword⟩ := h _ hmem w (by
    rw [words_overlapChunk]
    exact List.mem_append_left _ hw)
  rcases (mem_blockIds_overlapChunk countTokens overlap).mp hid with ⟨-, hlast⟩ | hcur
  · exact ⟨b, hb, hlast, hword⟩
  · -- the word's block is shared with the next chunk, so it is the last one here
    have hprev := packedChunks_sourced countTokens target blocks prev (hsucc.subset (by simp))
    obtain ⟨b', hb', hid', hword'⟩ :=
      hprev w ((carriedWords_suffix countTokens overlap prev).subset hw)
    rw [← htell b hb b' hb' w hword hword'] at hid'
    exact ⟨b, hb, shared_block_is_last countTokens target hids hsucc hid' hcur, hword⟩

end

/-- The block with every character traced to the block's id and the character's place in it. -/
def traced (b : SourceBlock Char) : SourceBlock (Traced (String × ℕ)) :=
  b.withText (b.text.zipIdx.map fun g => (g.1, some (b.id, g.2)))

theorem traced_erase (b : SourceBlock Char) : (traced b).erase = b := by
  have htext : plain (traced b).text = b.text := by
    change ((b.text.zipIdx.map fun g => ((g.1, some (b.id, g.2)) : Traced (String × ℕ))).map
      Glyph.char) = b.text
    rw [List.map_map]
    exact List.zipIdx_map_fst 0 b.text
  unfold SourceBlock.erase
  rw [htext]
  rfl

theorem traced_word {b : SourceBlock Char} {w : List (Traced (String × ℕ))}
    (h : w ∈ words space (traced b).text) : w.head?.bind (fun a => a.2.map (·.1)) = some b.id := by
  obtain ⟨hne, -, hinside⟩ := of_mem_words h
  obtain ⟨a, rest, rfl⟩ := List.exists_cons_of_ne_nil hne
  obtain ⟨g, -, rfl⟩ := List.mem_map.mp (hinside.subset List.mem_cons_self)
  rfl

theorem traced_tells {b b' : SourceBlock Char} {w : List (Traced (String × ℕ))}
    (h : w ∈ words space (traced b).text) (h' : w ∈ words space (traced b').text) :
    b.id = b'.id :=
  Option.some.inj ((traced_word h).symm.trans (traced_word h'))

def KeepsProvenance {F : Type} [PyFloat F] (strategy : Strategy) (blocks : List (SourceBlock Char))
    (o : ChunkOptions F) : Prop :=
  ∀ chunks, chunkWith strategy (blocks.map traced) o = .ok chunks →
    ∀ c ∈ chunks, Sourced (blocks.map traced) c

/-- The run on traced blocks is the run on the blocks, and its chunks name the blocks of all their
    words exactly if the recursive overlap does not reach past the last block. -/
theorem provenance_iff_overlap_in_last_block {F : Type} [PyFloat F] (strategy : Strategy)
    {blocks : List (SourceBlock Char)} (hids : (blocks.map (·.id)).Nodup) (o : ChunkOptions F) :
    chunkWith strategy blocks o =
        (chunkWith strategy (blocks.map traced) o).map (List.map (·.erase)) ∧
      (KeepsProvenance strategy blocks o ↔
        (strategy = .recursive → 0 < o.overlapTokens →
          OverlapInLastBlock o.countTokens o.targetTokens o.overlapTokens (blocks.map traced))) := by
  have hids' : ((blocks.map traced).map (·.id)).Nodup := by
    rw [List.map_map]
    exact hids
  have hself : (blocks.map traced).map (·.erase) = blocks := by
    rw [List.map_map, show (fun b => b.erase) ∘ traced = id from funext traced_erase, List.map_id]
  refine ⟨?_, ?_⟩
  · rw [← chunkWith_erase, hself]
  constructor
  · rintro h rfl hoverlap
    refine overlapInLastBlock_of_sourced hids' ?_ hoverlap (h _ rfl)
    intro b hb b' hb' w hw hw'
    obtain ⟨b, -, rfl⟩ := List.mem_map.mp hb
    obtain ⟨b', -, rfl⟩ := List.mem_map.mp hb'
    exact traced_tells hw hw'
  · exact fun h chunks hchunks => chunkWith_sourced hids' h hchunks

def threeParagraphs : List (SourceBlock Char) :=
  [SourceBlock.paragraph "a" 0 "one" 0, SourceBlock.paragraph "b" 1 "two" 5,
    SourceBlock.paragraph "c" 2 "three four" 10]

theorem provenance_of_three_paragraphs :
    KeepsProvenance .recursive threeParagraphs
      { targetTokens := 2, overlapTokens := 1, countTokens := wordCount,
        embed := fun _ => [], breakpointPercentile := (0 : ℚ) } :=
  (provenance_iff_overlap_in_last_block .recursive (by decide) _).2.mpr fun _ _ => by
    decide +kernel

/-- The overlap carries "one" and "two" into the second chunk, which names only the second and the
    third block. -/
theorem overlap_drops_a_block :
    ¬ ∀ c ∈ chunkRecursive wordCount 2 2 threeParagraphs, Sourced threeParagraphs c := by
  decide +kernel

end Ragent.ChunkProvenance
