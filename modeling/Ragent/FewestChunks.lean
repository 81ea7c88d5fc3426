import Ragent.ChunkDocument
import Ragent.GreedyCuts

set_option autoImplicit false

/-!
# As few chunks as the budget allows

`chunk_layout` and `chunk_recursive` pack what comes next until the budget is reached. Nobody who cuts
the document elsewhere, under the same rules and the same budget, needs fewer chunks.
-/
namespace Ragent.FewestChunks
open SpacedWords PyText SourceTypes FlattenedDocument RangeChunks RecursiveChunks LayoutChunks
  GreedyCuts

section
variable {α : Type} [Glyph α]
variable (countTokens : TokenCounter) (target overlap : ℤ)

def cost (b : SourceBlock α) : ℤ := countTokens (plain b.text)

/-- What rules and budget of `chunk_layout` allow as one chunk: a single block, or blocks of one
    section, with no table or figure, and no heading but the first, within the budget. -/
def Fits (bs : List (SourceBlock α)) : Prop :=
  bs.length ≤ 1 ∨ IsRun bs ∧ (bs.map (cost countTokens)).sum ≤ target

omit [Glyph α] in
theorem isRun_part {bs part : List (SourceBlock α)} (h : IsRun bs) (hpart : part <:+: bs) :
    IsRun part :=
  ⟨fun b hb => h.text b (hpart.subset hb), List.IsChain.infix h.chain hpart⟩

variable {countTokens target}

theorem fits_hereditary (hcount : ∀ text, 0 ≤ countTokens text) :
    Hereditary (Fits (α := α) countTokens target) := by
  intro bs part h hpart
  rcases h with hone | ⟨hrun, hsum⟩
  · exact .inl (hpart.length_le.trans hone)
  · exact .inr ⟨isRun_part hrun hpart,
      (sum_part_le (fun b => hcount (plain b.text)) hpart).trans hsum⟩

theorem fits_singleton (b : SourceBlock α) : Fits countTokens target [b] := .inl (Nat.le_refl 1)

theorem not_fits_concat {bs : List (SourceBlock α)} {b : SourceBlock α} (hne : bs ≠ [])
    (hstop : ¬ IsRun (bs ++ [b]) ∨ target < (bs.map (cost countTokens)).sum + cost countTokens b) :
    ¬ Fits countTokens target (bs ++ [b]) := by
  have hpos := List.length_pos_iff.mpr hne
  rintro (hone | ⟨hrun, hsum⟩)
  · rw [List.length_append, List.length_singleton] at hone
    omega
  · rw [List.map_append, List.sum_append, List.map_singleton, List.sum_singleton] at hsum
    rcases hstop with hnot | hover
    · exact hnot hrun
    · exact absurd hsum (Int.not_le.mpr hover)

omit [Glyph α] in
theorem not_isRun_atomic {bs : List (SourceBlock α)} {b : SourceBlock α} (hb : b.isAtomic = true)
    (hmem : b ∈ bs) : ¬ IsRun bs := by
  intro h
  rw [h.text b hmem] at hb
  cases hb

omit [Glyph α] in
theorem continues_of_isRun {bs : List (SourceBlock α)} {b : SourceBlock α} (h : IsRun (bs ++ [b])) :
    ∀ last ∈ bs.getLast?, Continues last b :=
  fun last hlast => (List.isChain_append.mp h.chain).2.2 last hlast b rfl

variable (countTokens target) in
structure Closed (chunks : List (Chunk α)) (groups : List (List (SourceBlock α))) : Prop where
  chunks : chunks = groups.mapIdx (groupChunk countTokens)
  nonempty : ∀ g ∈ groups, g ≠ []
  fits : ∀ g ∈ groups, Fits countTokens target g
  full : Full (Fits countTokens target) groups

def NoRoom (countTokens : TokenCounter) (target : ℤ) (groups : List (List (SourceBlock α)))
    (b : SourceBlock α) : Prop :=
  ∀ last ∈ groups.getLast?, ¬ Fits countTokens target (last ++ [b])

variable (countTokens target) in
structure Packed (st : LayoutState α) (done : List (SourceBlock α))
    (groups : List (List (SourceBlock α))) : Prop where
  closed : Closed countTokens target st.chunks groups
  blocks : groups.flatten ++ st.buffer = done
  run : IsRun st.buffer
  tokens : st.bufferedTokens = (st.buffer.map (cost countTokens)).sum
  fits : Fits countTokens target st.buffer
  /-- Whatever opens the next chunk. -/
  noRoom : ∀ b, st.buffer = [] ∨ st.buffer.head? = some b → NoRoom countTokens target groups b

variable {st : LayoutState α} {done : List (SourceBlock α)} {b : SourceBlock α}
  {groups : List (List (SourceBlock α))} {chunks : List (Chunk α)}

theorem Closed.snoc (h : Closed countTokens target chunks groups) {bs : List (SourceBlock α)}
    (hne : bs ≠ []) (hfits : Fits countTokens target bs)
    (hroom : ∀ b ∈ bs.head?, NoRoom countTokens target groups b) :
    Closed countTokens target (chunks ++ [groupChunk countTokens chunks.length bs])
      (groups ++ [bs]) where
  chunks := by simp [h.chunks, List.mapIdx_concat]
  nonempty := by
    intro g hg
    rcases List.mem_append.mp hg with hold | hnew
    · exact h.nonempty g hold
    · rw [List.mem_singleton.mp hnew]
      exact hne
  fits := by
    intro g hg
    rcases List.mem_append.mp hg with hold | hnew
    · exact h.fits g hold
    · rw [List.mem_singleton.mp hnew]
      exact hfits
  full := full_concat h.full fun last hlast b hb => hroom b hb last hlast

/-- A flush closes the buffer, and a block that did not fit there has no room behind it. -/
theorem Packed.flush (h : Packed countTokens target st done groups)
    (hdone : ∀ b ∈ done, words space b.text ≠ []) :
    ∃ groups', Closed countTokens target (flushLayout countTokens st).chunks groups' ∧
      groups'.flatten = done ∧ (flushLayout countTokens st).buffer = [] ∧
      (flushLayout countTokens st).bufferedTokens = 0 ∧
      ∀ b, (st.buffer ≠ [] → ¬ Fits countTokens target (st.buffer ++ [b])) →
        NoRoom countTokens target groups' b := by
  unfold flushLayout
  split_ifs with hempty
  · have hnil := List.isEmpty_iff.mp hempty
    refine ⟨groups, h.closed, ?_, hnil, ?_, fun b _ => h.noRoom b (.inl hnil)⟩
    · rw [← h.blocks, hnil, List.append_nil]
    · rw [h.tokens, hnil]
      rfl
  · have hne : st.buffer ≠ [] := by simpa using hempty
    have hblocks : ∀ b ∈ st.buffer, words space b.text ≠ [] := by
      intro b hb
      apply hdone
      rw [← h.blocks]
      exact List.mem_append_right _ hb
    rw [assemble_run countTokens st.chunks.length hne h.run hblocks]
    refine ⟨groups ++ [st.buffer], h.closed.snoc hne h.fits fun b hb => h.noRoom b (.inr hb), ?_,
      rfl, rfl, ?_⟩
    · rw [List.flatten_append, List.flatten_singleton, h.blocks]
    · rintro b hstop last hlast
      rw [List.getLast?_concat] at hlast
      cases hlast
      exact hstop hne

theorem Packed.step (h : Packed countTokens target st done groups)
    (hdone : ∀ b ∈ done, words space b.text ≠ []) (hb : words space b.text ≠ []) :
    ∃ groups', Packed countTokens target (layoutStep countTokens target st b) (done ++ [b])
      groups' := by
  obtain ⟨flushed, hclosed, hflat, hbuffer, htokens, hroom⟩ := h.flush hdone
  have hsingle : ∀ b : SourceBlock α, b.isAtomic = false → IsRun [b] := by
    intro b hb
    exact isRun_nil.push hb (by simp)
  unfold layoutStep flushBefore
  simp only
  split_ifs with hatomic hfull
  · -- a table or a figure is a chunk of its own, and nothing joins it
    have hself : NoRoom countTokens target flushed b := hroom b fun hne =>
      not_fits_concat hne (.inl (not_isRun_atomic hatomic (by simp)))
    rw [atomicChunk_eq countTokens _ hatomic hb]
    refine ⟨flushed ++ [[b]], hclosed.snoc (List.cons_ne_nil b []) (fits_singleton b) ?_, ?_, ?_, ?_,
      ?_, ?_⟩
    · rintro b' hb'
      cases hb'
      exact hself
    · rw [hbuffer, List.append_nil, List.flatten_append, List.flatten_singleton, hflat]
    · rw [hbuffer]
      exact isRun_nil
    · rw [hbuffer, htokens]
      rfl
    · rw [hbuffer]
      exact .inl (Nat.zero_le 1)
    · intro b' _ last hlast
      rw [List.getLast?_concat] at hlast
      cases hlast
      exact not_fits_concat (List.cons_ne_nil b [])
        (.inl (not_isRun_atomic hatomic List.mem_cons_self))
  · -- a heading, another section or too much: the block opens a chunk
    have htext : b.isAtomic = false := by simpa using hatomic
    have hself : NoRoom countTokens target flushed b := by
      apply hroom b
      intro hne
      apply not_fits_concat hne
      rcases hfull with hboundary | hsection | hover
      · left
        intro hrun
        rw [(continues_of_isRun hrun _ (List.getLast?_eq_some_getLast hne)).1] at hboundary
        cases hboundary
      · left
        intro hrun
        have hcontinues := continues_of_isRun hrun _ (List.getLast?_eq_some_getLast hne)
        unfold sectionChanged at hsection
        rw [List.getLast?_eq_some_getLast hne] at hsection
        simp [hcontinues.2] at hsection
      · rw [h.tokens] at hover
        exact .inr hover
    refine ⟨flushed, hclosed, ?_, ?_, ?_, ?_, ?_⟩
    · rw [hbuffer, List.nil_append, hflat]
    · rw [hbuffer]
      exact hsingle b htext
    · rw [hbuffer, htokens]
      simp [cost]
    · rw [hbuffer]
      exact fits_singleton b
    · rintro b' (hnil | hhead)
      · simp at hnil
      · rw [hbuffer] at hhead
        cases hhead
        exact hself
  · -- the block joins the buffer
    have htext : b.isAtomic = false := by simpa using hatomic
    push Not at hfull
    obtain ⟨hboundary, hsection, hroomLeft⟩ := hfull
    have hcontinues := continues_of_sectionChanged (by simpa using hboundary) (by simpa using hsection)
    have hrun := h.run.push htext hcontinues
    rw [h.tokens] at hroomLeft
    refine ⟨groups, h.closed, ?_, hrun, ?_, .inr ⟨hrun, ?_⟩, ?_⟩
    · rw [← h.blocks, List.append_assoc]
    · simp [h.tokens, cost]
    · rw [List.map_append, List.sum_append, List.map_singleton, List.sum_singleton]
      exact hroomLeft
    · rintro b' (hnil | hhead)
      · simp at hnil
      · cases hbuffer : st.buffer with
        | nil => exact h.noRoom b' (.inl hbuffer)
        | cons first rest =>
          rw [hbuffer] at hhead
          exact h.noRoom b' (.inr (hbuffer ▸ hhead))

theorem packed_foldl (blocks : List (SourceBlock α)) (hb : ∀ b ∈ blocks, words space b.text ≠ []) :
    ∃ groups, Packed countTokens target
      (blocks.foldl (layoutStep countTokens target) ⟨[], [], 0⟩) blocks groups := by
  induction blocks using List.reverseRecOn with
  | nil =>
    exact ⟨[], ⟨rfl, List.forall_mem_nil _, List.forall_mem_nil _, List.isChain_nil⟩, rfl, isRun_nil,
      rfl, .inl (Nat.zero_le 1), fun _ _ => nofun⟩
  | append_singleton blocks b ih =>
    rw [List.foldl_concat]
    have hdone : ∀ b' ∈ blocks, words space b'.text ≠ [] := fun b' h' =>
      hb b' (List.mem_append_left _ h')
    obtain ⟨groups, h⟩ := ih hdone
    exact h.step hdone (hb b (by simp))

theorem packedBlocks_closed (blocks : List (SourceBlock α)) :
    ∃ groups, Closed countTokens target (packedBlocks countTokens target blocks) groups ∧
      groups.flatten = prepare blocks := by
  have hblocks : ∀ b ∈ prepare blocks, words space b.text ≠ [] := fun b hb =>
    (mem_prepare.mp hb).2.1
  unfold packedBlocks
  simp only
  split_ifs with hempty
  · exact ⟨[], ⟨rfl, List.forall_mem_nil _, List.forall_mem_nil _, List.isChain_nil⟩,
      (List.isEmpty_iff.mp hempty).symm⟩
  · obtain ⟨_, hpacked⟩ := packed_foldl (prepare blocks) hblocks
    obtain ⟨groups, hclosed, hflat, -⟩ := hpacked.flush hblocks
    exact ⟨groups, hclosed, hflat⟩

end

section
variable {α : Type} [Glyph α]

omit [Glyph α] in
theorem length_withPrevious {f : Chunk α → Chunk α → Chunk α} (chunks : List (Chunk α)) :
    (withPrevious f chunks).length = chunks.length := by
  cases chunks with
  | nil => rfl
  | cons first rest => simp [withPrevious]

/-- The layout strategy needs no more chunks than anyone who packs the same blocks under its rules
    and within its budget, and the recursive strategy no more than anyone who packs the same pieces
    within its budget. -/
theorem nobody_needs_fewer_chunks {countTokens : TokenCounter} (hcount : ∀ text, 0 ≤ countTokens text)
    (target overlap : ℤ) (blocks : List (SourceBlock α)) :
    (∀ groups : List (List (SourceBlock α)), groups.flatten = prepare blocks →
      (∀ g ∈ groups, Fits countTokens target g) →
        (chunkLayout countTokens target overlap blocks).length ≤ groups.length) ∧
      ∀ groups : List (List (ℕ × ℕ)),
        groups.flatten = splitRecursive (flatten (prepare blocks)).1 countTokens target separators 0
          (flatten (prepare blocks)).1.length →
        (∀ g ∈ groups, Within (fun p => countTokens
          (plain (slice (flatten (prepare blocks)).1 p.1 p.2))) target g) →
          (chunkRecursive countTokens target overlap blocks).length ≤ groups.length := by
  constructor
  · intro groups hflat hfits
    have hlength : (chunkLayout countTokens target overlap blocks).length =
        (packedBlocks countTokens target blocks).length := by
      unfold chunkLayout applyBlockOverlap
      simp only
      split_ifs
      · exact length_withPrevious _
      · rfl
    have hgreedy : ∃ packed, Closed countTokens target (packedBlocks countTokens target blocks) packed ∧
        packed.flatten = prepare blocks := packedBlocks_closed blocks
    obtain ⟨packed, hclosed, hpacked⟩ := hgreedy
    rw [hlength, hclosed.chunks, List.length_mapIdx]
    apply length_le (fits_hereditary hcount) hclosed.nonempty hclosed.full hfits
    rw [hpacked, hflat]
  · intro groups hflat hwithin
    have hlength : (chunkRecursive countTokens target overlap blocks).length =
        (packedChunks countTokens target blocks).length := by
      unfold chunkRecursive applyTextOverlap
      simp only
      split_ifs
      · exact length_withPrevious _
      · rfl
    rw [hlength]
    unfold packedChunks
    simp only
    split_ifs
    · exact Nat.zero_le _
    · rw [packPieces_eq, appendRanges_eq _ _ (flatten_flattened _), List.nil_append,
        List.length_mapIdx]
      refine (List.length_filter_le _ _).trans ?_
      rw [List.length_map, packedRuns, ← hflat]
      exact runs_length_le (fun p => hcount _) hwithin

end

def threeParagraphs : List (SourceBlock Char) :=
  [.paragraph "a" 0 "One two." 0, .paragraph "b" 1 "Three." 10, .paragraph "c" 2 "Four five." 18]

theorem two_chunks_suffice :
    (chunkLayout wordCount 3 0 threeParagraphs).length = 2 ∧
      (chunkLayout wordCount 3 0 threeParagraphs).length ≤
        [[SourceBlock.paragraph "a" 0 "One two." 0],
          [.paragraph "b" 1 "Three." 10, .paragraph "c" 2 "Four five." 18]].length := by
  refine ⟨by decide +kernel, (nobody_needs_fewer_chunks (fun _ => Int.natCast_nonneg _) 3 0
    threeParagraphs).1 _ rfl ?_⟩
  have hrun : IsRun [SourceBlock.paragraph "b" 1 "Three." 10, .paragraph "c" 2 "Four five." 18] :=
    (isRun_nil.push rfl (by simp)).push rfl fun last hlast => by cases hlast; exact ⟨rfl, rfl⟩
  simp only [List.forall_mem_cons]
  exact ⟨fits_singleton _, .inr ⟨hrun, by decide⟩, List.forall_mem_nil _⟩

end Ragent.FewestChunks
