import Mathlib.Logic.Equiv.Basic
import Ragent.ChunkDocument

set_option autoImplicit false

/-!
# Chunks of renamed blocks

The strategies compare the ids of blocks and keep them, and that is all they do with them. Under an
injective renaming of the blocks the chunks are the same, with the ids renamed.
-/
namespace Ragent.BlockRenaming
open SpacedWords PyText PyNumbers SourceTypes FlattenedDocument RangeChunks FixedChunks
  RecursiveChunks LayoutChunks SemanticChunks ChunkDocument

/-- Lists without repetitions, of one length, differ by a permutation of all there is. -/
theorem exists_perm_map_eq {β : Type} [DecidableEq β] {l l' : List β} (h : l.Nodup) (h' : l'.Nodup)
    (hlength : l.length = l'.length) : ∃ σ : Equiv.Perm β, l.map σ = l' := by
  induction l generalizing l' with
  | nil =>
    rw [List.length_nil, eq_comm, List.length_eq_zero_iff] at hlength
    exact ⟨Equiv.refl β, hlength.symm⟩
  | cons a l ih =>
    cases l' with
    | nil => cases hlength
    | cons b l' =>
      rw [List.nodup_cons] at h h'
      obtain ⟨σ, hσ⟩ := ih h.2 h'.2 (Nat.succ.inj hlength)
      refine ⟨σ.trans (Equiv.swap (σ a) b), ?_⟩
      have hrest : ∀ x ∈ l, Equiv.swap (σ a) b (σ x) = σ x := by
        intro x hx
        apply Equiv.swap_apply_of_ne_of_ne
        · intro heq
          exact h.1 (σ.injective heq ▸ hx)
        · intro heq
          exact h'.1 (heq ▸ hσ ▸ List.mem_map_of_mem hx)
      rw [List.map_cons, Equiv.trans_apply, Equiv.swap_apply_left, ← hσ]
      congr 1
      exact List.map_congr_left hrest

theorem eraseDups_map {β γ : Type} [DecidableEq β] [DecidableEq γ] {f : β → γ}
    (hf : Function.Injective f) (l : List β) : (l.map f).eraseDups = l.eraseDups.map f := by
  induction hn : l.length using Nat.strong_induction_on generalizing l with
  | _ n ih =>
    cases l with
    | nil => rfl
    | cons a l =>
      have hother : ((fun b => !b == f a) ∘ f) = fun b => !b == a := by
        funext b
        simp [hf.eq_iff]
      rw [List.map_cons, List.eraseDups_cons, List.eraseDups_cons, List.filter_map, hother,
        List.map_cons]
      have hshorter := List.length_filter_le (fun b => !b == a) l
      rw [List.length_cons] at hn
      exact congrArg (f a :: ·) (ih _ (by omega) _ rfl)

variable {α F : Type} [Glyph α] [PyFloat F] {f : String → String}

def named (f : String → String) (b : SourceBlock α) : SourceBlock α := { b with id := f b.id }

def renamed (f : String → String) (c : Chunk α) : Chunk α :=
  { c with blockIds := c.blockIds.map f }

def namedSpan (f : String → String) (sp : Span α) : Span α :=
  ⟨sp.start, sp.stop, named f sp.block⟩

theorem prepare_named (blocks : List (SourceBlock α)) :
    prepare (blocks.map (named f)) = (prepare blocks).map (named f) := by
  rw [prepare, prepare, List.filter_map]
  exact (List.map_insertionSort inOrder inOrder (named f) _ fun _ _ _ _ => Iff.rfl).symm

def namedFlat (f : String → String) (st : FlattenState α) : FlattenState α :=
  ⟨st.parts, st.spans.map (namedSpan f), st.cursor⟩

theorem flattenStep_named (st : FlattenState α) (b : SourceBlock α) :
    flattenStep (namedFlat f st) (named f b) = namedFlat f (flattenStep st b) := by
  unfold flattenStep namedFlat
  simp only [show (named f b).text = b.text from rfl]
  split_ifs
  · rfl
  · rw [List.map_append]
    rfl
  · rw [List.map_append]
    rfl

theorem flatten_named (blocks : List (SourceBlock α)) :
    flatten (blocks.map (named f)) =
      ((flatten blocks).1, (flatten blocks).2.map (namedSpan f)) := by
  have hfold : ∀ st, (blocks.map (named f)).foldl flattenStep (namedFlat f st) =
      namedFlat f (blocks.foldl flattenStep st) := by
    intro st
    rw [List.foldl_map]
    exact List.foldl_hom (namedFlat f) flattenStep_named
  have hflat : (blocks.map (named f)).foldl flattenStep ⟨[], [], 0⟩ =
      namedFlat f (blocks.foldl flattenStep ⟨[], [], 0⟩) := hfold ⟨[], [], 0⟩
  unfold flatten
  rw [hflat]
  rfl

omit [Glyph α] in
theorem blocksInRange_named (spans : List (Span α)) (s e : ℕ) :
    blocksInRange (spans.map (namedSpan f)) s e = (blocksInRange spans s e).map (named f) := by
  rw [blocksInRange, blocksInRange, List.filter_map, List.map_map, List.map_map]
  rfl

theorem assemble_named (seq : ℕ) (text : List α) (bs : List (SourceBlock α)) (strategy : String)
    (countTokens : TokenCounter) :
    assemble seq text (bs.map (named f)) strategy countTokens =
      (assemble seq text bs strategy countTokens).map (renamed f) := by
  simp only [assemble, List.isEmpty_map]
  split_ifs
  · rfl
  · simp only [Option.map_some, Option.some.injEq, renamed, List.map_map, List.filterMap_map,
      List.filter_map]
    rfl

theorem appendRange_named (doc : List α) (spans : List (Span α)) (strategy : String)
    (countTokens : TokenCounter) (chunks : List (Chunk α)) (r : ℕ × ℕ) :
    appendRange doc (spans.map (namedSpan f)) strategy countTokens (chunks.map (renamed f)) r =
      (appendRange doc spans strategy countTokens chunks r).map (renamed f) := by
  rw [appendRange, appendRange, List.length_map, blocksInRange_named, assemble_named]
  cases assemble chunks.length (slice doc r.1 r.2) (blocksInRange spans r.1 r.2) strategy
    countTokens with
  | none => rfl
  | some c => simp

theorem appendRanges_named (doc : List α) (spans : List (Span α)) (strategy : String)
    (countTokens : TokenCounter) (rs : List (ℕ × ℕ)) :
    appendRanges doc (spans.map (namedSpan f)) strategy countTokens [] rs =
      (appendRanges doc spans strategy countTokens [] rs).map (renamed f) := by
  unfold appendRanges
  rw [← List.foldl_hom (List.map (renamed f)) fun chunks r =>
    appendRange_named doc spans strategy countTokens chunks r]
  rfl

theorem chunkFixed_named (countTokens : TokenCounter) (target overlap : ℤ)
    (blocks : List (SourceBlock α)) :
    chunkFixed F countTokens target overlap (blocks.map (named f)) =
      (chunkFixed F countTokens target overlap blocks).map (renamed f) := by
  rw [chunkFixed_eq, chunkFixed_eq, prepare_named, flatten_named]
  exact appendRanges_named _ _ _ _ _

omit [Glyph α] in
theorem withPrevious_renamed {g : Chunk α → Chunk α → Chunk α} {g' : Chunk α → Chunk α → Chunk α}
    (hg : ∀ prev cur, g' (renamed f prev) (renamed f cur) = renamed f (g prev cur))
    (chunks : List (Chunk α)) :
    withPrevious g' (chunks.map (renamed f)) = (withPrevious g chunks).map (renamed f) := by
  cases chunks with
  | nil => rfl
  | cons first rest =>
    rw [List.map_cons, withPrevious, withPrevious, List.map_cons, ← List.map_cons,
      List.zipWith_map, List.map_zipWith]
    simp only [hg]

theorem overlapChunk_renamed (hf : Function.Injective f) (countTokens : TokenCounter) (overlap : ℤ)
    (prev cur : Chunk α) :
    overlapChunk countTokens overlap (renamed f prev) (renamed f cur) =
      renamed f (overlapChunk countTokens overlap prev cur) := by
  have hlast : (prev.blockIds.map f).getLast?.toList = prev.blockIds.getLast?.toList.map f := by
    rw [List.getLast?_map]
    cases prev.blockIds.getLast? <;> rfl
  unfold overlapChunk carriedWords
  simp only [renamed, hlast, ← List.map_append, eraseDups_map hf]
  split_ifs <;> rfl

theorem chunkRecursive_named (hf : Function.Injective f) (countTokens : TokenCounter)
    (target overlap : ℤ) (blocks : List (SourceBlock α)) :
    chunkRecursive countTokens target overlap (blocks.map (named f)) =
      (chunkRecursive countTokens target overlap blocks).map (renamed f) := by
  have hpacked : packedChunks countTokens target (blocks.map (named f)) =
      (packedChunks countTokens target blocks).map (renamed f) := by
    unfold packedChunks
    simp only [prepare_named, flatten_named, packPieces_eq, appendRanges_named]
    split_ifs <;> rfl
  unfold chunkRecursive applyTextOverlap
  simp only [hpacked, withPrevious_renamed (overlapChunk_renamed hf countTokens overlap)]
  split_ifs <;> rfl

section
variable (countTokens : TokenCounter) (target overlap : ℤ)

def namedLayout (f : String → String) (st : LayoutState α) : LayoutState α :=
  ⟨st.chunks.map (renamed f), st.buffer.map (named f), st.bufferedTokens⟩

theorem joinBlocks_named (bs : List (SourceBlock α)) :
    joinBlocks (bs.map (named f)) = joinBlocks bs := by
  unfold joinBlocks
  rw [List.map_map]
  rfl

theorem flushLayout_named (st : LayoutState α) :
    flushLayout countTokens (namedLayout f st) = namedLayout f (flushLayout countTokens st) := by
  unfold flushLayout
  simp only [namedLayout, List.isEmpty_map, List.length_map, joinBlocks_named, assemble_named]
  split_ifs
  · rfl
  · cases assemble st.chunks.length (joinBlocks st.buffer) st.buffer "layout" countTokens <;> simp

theorem atomicChunk_named (seq : ℕ) (b : SourceBlock α) :
    atomicChunk countTokens seq (named f b) = (atomicChunk countTokens seq b).map (renamed f) := by
  have h := assemble_named (f := f) seq b.text [b] "layout" countTokens
  rw [List.map_singleton] at h
  rw [atomicChunk, atomicChunk, show (named f b).text = b.text from rfl, h]
  cases assemble seq b.text [b] "layout" countTokens <;> rfl

theorem flushBefore_named (st : LayoutState α) (b : SourceBlock α) (cost : ℤ) :
    flushBefore countTokens target (namedLayout f st) (named f b) cost =
      namedLayout f (flushBefore countTokens target st b cost) := by
  have hsection : sectionChanged (st.buffer.map (named f)) (named f b) =
      sectionChanged st.buffer b := by
    unfold sectionChanged
    rw [List.getLast?_map]
    cases st.buffer.getLast? <;> rfl
  unfold flushBefore
  rw [flushLayout_named]
  simp only [namedLayout, hsection, show (named f b).isBoundary = b.isBoundary from rfl]
  split_ifs <;> rfl

theorem layoutStep_named (st : LayoutState α) (b : SourceBlock α) :
    layoutStep countTokens target (namedLayout f st) (named f b) =
      namedLayout f (layoutStep countTokens target st b) := by
  unfold layoutStep
  simp only [show (named f b).isAtomic = b.isAtomic from rfl, flushLayout_named,
    show (named f b).text = b.text from rfl, flushBefore_named]
  split_ifs
  · simp only [namedLayout, List.length_map, atomicChunk_named, List.map_append]
    cases atomicChunk countTokens (flushLayout countTokens st).chunks.length b <;> rfl
  · simp [namedLayout]

theorem packedBlocks_named (blocks : List (SourceBlock α)) :
    packedBlocks countTokens target (blocks.map (named f)) =
      (packedBlocks countTokens target blocks).map (renamed f) := by
  have hfold : ∀ st, ((prepare blocks).map (named f)).foldl (layoutStep countTokens target)
      (namedLayout f st) = namedLayout f ((prepare blocks).foldl (layoutStep countTokens target) st) := by
    intro st
    rw [List.foldl_map]
    exact List.foldl_hom (namedLayout f) (layoutStep_named countTokens target)
  have hpacked : ((prepare blocks).map (named f)).foldl (layoutStep countTokens target) ⟨[], [], 0⟩ =
      namedLayout f ((prepare blocks).foldl (layoutStep countTokens target) ⟨[], [], 0⟩) :=
    hfold ⟨[], [], 0⟩
  unfold packedBlocks
  simp only [prepare_named, List.isEmpty_map, hpacked, flushLayout_named]
  split_ifs <;> rfl

omit [Glyph α] in
theorem filterMap_byId_named (hf : Function.Injective f) (blocks : List (SourceBlock α))
    (ids : List String) :
    (ids.map f).filterMap (byId (blocks.map (named f))) =
      (ids.filterMap (byId blocks)).map (named f) := by
  have hbyId : ∀ id, byId (blocks.map (named f)) (f id) = (byId blocks id).map (named f) := by
    intro id
    have hsame : ((fun b : SourceBlock α => b.id == f id) ∘ named f) = fun b => b.id == id := by
      funext b
      simp [named, hf.eq_iff]
    rw [byId, byId, ← List.map_reverse, List.find?_map, hsame]
  rw [List.filterMap_map, List.map_filterMap]
  exact List.filterMap_congr fun id _ => hbyId id

theorem overlapBlocks_named (hf : Function.Injective f) (prepared : List (SourceBlock α))
    (prev cur : Chunk α) :
    overlapBlocks countTokens overlap (prepared.map (named f)) (renamed f prev) (renamed f cur) =
      renamed f (overlapBlocks countTokens overlap prepared prev cur) := by
  have hlast : (prev.blockIds.map f).getLast?.toList = prev.blockIds.getLast?.toList.map f := by
    rw [List.getLast?_map]
    cases prev.blockIds.getLast? <;> rfl
  have hcarried : carriedBlocks countTokens overlap (prepared.map (named f)) (renamed f prev) =
      (carriedBlocks countTokens overlap prepared prev).map (named f) := by
    unfold carriedBlocks
    simp only [renamed, hlast, filterMap_byId_named hf, List.filter_map]
    rfl
  unfold overlapBlocks
  simp only [hcarried, List.isEmpty_map]
  simp only [renamed, filterMap_byId_named hf, ← List.map_append, joinBlocks_named, assemble_named]
  split_ifs
  · rfl
  · rfl
  · generalize carriedBlocks countTokens overlap prepared prev ++
      cur.blockIds.filterMap (byId prepared) = merged
    cases assemble cur.seq (joinBlocks merged) merged "layout" countTokens <;> rfl

theorem chunkLayout_named (hf : Function.Injective f) (blocks : List (SourceBlock α)) :
    chunkLayout countTokens target overlap (blocks.map (named f)) =
      (chunkLayout countTokens target overlap blocks).map (renamed f) := by
  unfold chunkLayout applyBlockOverlap
  simp only [packedBlocks_named, prepare_named,
    withPrevious_renamed (overlapBlocks_named countTokens overlap hf (prepare blocks))]
  split_ifs <;> rfl

end

section
variable (doc : List α) (spans : List (Span α)) (countTokens : TokenCounter) (target : ℤ)
variable (bounds : List (ℕ × ℕ))

def renamedCut (f : String → String) (st : CutState α) : CutState α :=
  ⟨st.chunks.map (renamed f), st.startIdx, st.running⟩

theorem cutSentences_named (gaps : List F) (cutBelow : F) :
    cutSentences doc (spans.map (namedSpan f)) countTokens target bounds gaps cutBelow =
      (cutSentences doc spans countTokens target bounds gaps cutBelow).map (renamed f) := by
  have hstep : ∀ (st : CutState α) (gap : F × ℕ),
      cutStep doc (spans.map (namedSpan f)) countTokens target bounds cutBelow (renamedCut f st) gap =
        renamedCut f (cutStep doc spans countTokens target bounds cutBelow st gap) := by
    rintro st ⟨similarity, i⟩
    unfold cutStep renamedCut
    simp only [appendRange_named]
    split_ifs
    · rfl
    · rfl
  have hfold : ∀ st, gaps.zipIdx.foldl
      (cutStep doc (spans.map (namedSpan f)) countTokens target bounds cutBelow) (renamedCut f st) =
        renamedCut f (gaps.zipIdx.foldl (cutStep doc spans countTokens target bounds cutBelow) st) :=
    fun _ => List.foldl_hom (renamedCut f) hstep
  have hcut : gaps.zipIdx.foldl
      (cutStep doc (spans.map (namedSpan f)) countTokens target bounds cutBelow)
        ⟨[], 0, sentenceCost doc countTokens bounds 0⟩ =
      renamedCut f (gaps.zipIdx.foldl (cutStep doc spans countTokens target bounds cutBelow)
        ⟨[], 0, sentenceCost doc countTokens bounds 0⟩) :=
    hfold ⟨[], 0, sentenceCost doc countTokens bounds 0⟩
  unfold cutSentences
  rw [hcut]
  exact appendRange_named _ _ _ _ _ _

theorem chunkSentences_named (embed : List (List Char) → List (List F)) (q : F) :
    chunkSentences doc (spans.map (namedSpan f)) countTokens target bounds embed q =
      (chunkSentences doc spans countTokens target bounds embed q).map
        (List.map (renamed f)) := by
  unfold chunkSentences
  simp only [cutSentences_named]
  split_ifs
  · cases similarities (embed (bounds.map fun r => plain (slice doc r.1 r.2))) with
    | error e => rfl
    | ok gaps =>
      change (percentile gaps q >>= _) = Except.map _ (percentile gaps q >>= _)
      cases percentile gaps q <;> rfl
  · rfl

theorem chunkSemantic_named (embed : List (List Char) → List (List F)) (q : F)
    (blocks : List (SourceBlock α)) :
    chunkSemantic countTokens target embed q (blocks.map (named f)) =
      (chunkSemantic countTokens target embed q blocks).map (List.map (renamed f)) := by
  unfold chunkSemantic
  simp only [prepare_named, flatten_named, assemble_named, chunkSentences_named]
  split_ifs
  · rfl
  · cases assemble 0 (flatten (prepare blocks)).1 (prepare blocks) "semantic" countTokens <;> rfl
  · rfl

end

theorem chunkDocument_named (hf : Function.Injective f) (strategy : String)
    (blocks : List (SourceBlock α)) (o : ChunkOptions F) :
    chunkDocument strategy (blocks.map (named f)) o =
      (chunkDocument strategy blocks o).map (List.map (renamed f)) := by
  unfold chunkDocument
  cases strategyOf strategy with
  | none => rfl
  | some fn =>
    cases fn with
    | fixed => exact congrArg Except.ok (chunkFixed_named _ _ _ blocks)
    | recursive => exact congrArg Except.ok (chunkRecursive_named hf _ _ _ blocks)
    | layout => exact congrArg Except.ok (chunkLayout_named _ _ _ hf blocks)
    | semantic => exact chunkSemantic_named _ _ _ _ blocks

end Ragent.BlockRenaming
