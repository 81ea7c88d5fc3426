import Ragent.ChunkDocument

set_option autoImplicit false

/-!
# Runs on traced text

The chunkers read characters only, so a run on glyphs that carry an origin is the run on plain
text once the origins are erased.
-/
namespace Ragent.TracedRun
open SpacedWords PyText PyNumbers SourceTypes FlattenedDocument RangeChunks FixedChunks
  RecursiveChunks LayoutChunks SemanticChunks ChunkDocument

variable {α F : Type} [Glyph α] [PyFloat F]

@[simp] theorem plain_isEmpty (text : List α) : (plain text).isEmpty = text.isEmpty := by
  simp [plain]

section
variable (b : SourceBlock α)

@[simp] theorem erase_text : b.erase.text = plain b.text := rfl

@[simp] theorem erase_id : b.erase.id = b.id := rfl

@[simp] theorem erase_kind : b.erase.kind = b.kind := rfl

@[simp] theorem erase_pageNo : b.erase.pageNo = b.pageNo := rfl

@[simp] theorem erase_isPaged : b.erase.isPaged = b.isPaged := rfl

@[simp] theorem erase_isAtomic : b.erase.isAtomic = b.isAtomic := rfl

@[simp] theorem erase_isBoundary : b.erase.isBoundary = b.isBoundary := rfl

@[simp] theorem erase_charRange : b.erase.charRange = b.charRange := rfl

@[simp] theorem erase_sectionPath : b.erase.sectionPath = b.sectionPath := rfl

end

def eraseSpan (sp : Span α) : Span Char := ⟨sp.start, sp.stop, sp.block.erase⟩

theorem plain_join (sep : List α) (parts : List (List α)) :
    plain (join sep parts) = join (plain sep) (parts.map plain) := by
  induction parts using List.reverseRecOn with
  | nil => rfl
  | append_singleton parts part ih =>
    rw [List.map_append, List.map_singleton, join_concat, join_concat, List.isEmpty_map]
    split_ifs
    · rfl
    · rw [plain_append, plain_append, ih]

theorem plain_lit_char (s : String) : plain (lit s : List α) = (lit s : List Char) := by
  rw [plain_lit, ← plain_char (lit s : List Char), plain_lit]

theorem prepare_erase (blocks : List (SourceBlock α)) :
    prepare (blocks.map (·.erase)) = (prepare blocks).map (·.erase) := by
  have hcontent : ((fun b : SourceBlock Char => isContent b) ∘ fun b : SourceBlock α => b.erase) =
      isContent := by
    funext b
    simp only [Function.comp_apply, isContent, erase_text, ← plain_strip, plain_isEmpty]
    rfl
  rw [prepare, prepare, List.filter_map, hcontent]
  exact (List.map_insertionSort inOrder inOrder (fun b : SourceBlock α => b.erase) _
    fun _ _ _ _ => Iff.rfl).symm

theorem foldl_flattenStep_erase (blocks : List (SourceBlock α)) (st : FlattenState α) :
    (blocks.map (·.erase)).foldl flattenStep
        ⟨st.parts.map plain, st.spans.map eraseSpan, st.cursor⟩ =
      ⟨(blocks.foldl flattenStep st).parts.map plain,
        (blocks.foldl flattenStep st).spans.map eraseSpan, (blocks.foldl flattenStep st).cursor⟩ := by
  induction blocks generalizing st with
  | nil => rfl
  | cons b blocks ih =>
    rw [List.map_cons, List.foldl_cons, List.foldl_cons, ← ih]
    congr 1
    have hjoin : (blockJoin : List Char).length = (blockJoin : List α).length := by
      simp [blockJoin, lit]
    simp only [flattenStep, erase_text, ← plain_strip, plain_isEmpty, List.isEmpty_map, hjoin,
      plain_length]
    split_ifs
    · rfl
    · simp only [List.map_append, List.map_singleton]
      rfl
    · simp only [List.map_append, List.map_singleton]
      rfl

theorem flatten_erase (blocks : List (SourceBlock α)) :
    flatten (blocks.map (·.erase)) =
      (plain (flatten blocks).1, (flatten blocks).2.map eraseSpan) := by
  have h := foldl_flattenStep_erase blocks ⟨[], [], 0⟩
  simp only [List.map_nil] at h
  simp only [flatten, h, plain_join, blockJoin, plain_lit_char]

theorem blocksInRange_erase (spans : List (Span α)) (s e : ℕ) :
    blocksInRange (spans.map eraseSpan) s e = (blocksInRange spans s e).map (·.erase) := by
  rw [blocksInRange, blocksInRange, List.filter_map, List.map_map, List.map_map]
  rfl

theorem assemble_erase (seq : ℕ) (text : List α) (bs : List (SourceBlock α)) (strategy : String)
    (countTokens : TokenCounter) :
    assemble seq (plain text) (bs.map (·.erase)) strategy countTokens =
      (assemble seq text bs strategy countTokens).map (·.erase) := by
  simp only [assemble, ← plain_strip, plain_isEmpty, List.isEmpty_map]
  split_ifs
  · rfl
  · simp only [Option.map_some, Option.some.injEq]
    simp [Chunk.erase, List.filterMap_map, List.filter_map, Function.comp_def]

theorem appendRange_erase (doc : List α) (spans : List (Span α)) (strategy : String)
    (countTokens : TokenCounter) (chunks : List (Chunk α)) (r : ℕ × ℕ) :
    appendRange (plain doc) (spans.map eraseSpan) strategy countTokens (chunks.map (·.erase)) r =
      (appendRange doc spans strategy countTokens chunks r).map (·.erase) := by
  rw [appendRange, appendRange, List.length_map, ← plain_slice, blocksInRange_erase,
    assemble_erase]
  cases assemble chunks.length (slice doc r.1 r.2) (blocksInRange spans r.1 r.2) strategy
    countTokens with
  | none => rfl
  | some c => simp

theorem spans_plain (doc : List α) : spans space (plain doc) = spans space doc :=
  spansFrom_map Glyph.char 0 doc

theorem windowTokens_plain (doc : List α) (countTokens : TokenCounter) :
    windowTokens (plain doc) countTokens = windowTokens doc countTokens := by
  funext i j
  simp only [windowTokens, windowRange, spans_plain, ← plain_slice, plain_char]

theorem wordCosts_plain (doc : List α) (countTokens : TokenCounter) :
    wordCosts (plain doc) countTokens = wordCosts doc countTokens := by
  simp only [wordCosts, spans_plain, ← plain_slice, plain_char]

theorem shrinkWindow_plain (doc : List α) (countTokens : TokenCounter) (target : ℤ) (i j : ℕ) :
    shrinkWindow F (plain doc) countTokens target i j =
      shrinkWindow F doc countTokens target i j := by
  induction j using Nat.strong_induction_on with
  | _ j ih =>
    rw [shrinkWindow, shrinkWindow.eq_def F doc, windowTokens_plain]
    split_ifs with hlt hfit
    · rfl
    · have hback := scaleBack_bounds F target (windowTokens doc countTokens i j)
        (show 1 < j - i by omega)
      exact ih _ (by omega)
    · rfl

theorem fitWindow_plain (doc : List α) (countTokens : TokenCounter) (target : ℤ) (i : ℕ) :
    fitWindow F (plain doc) countTokens target i = fitWindow F doc countTokens target i := by
  simp only [fitWindow, wordCosts_plain, shrinkWindow_plain]

theorem walkBack_plain (doc : List α) (countTokens : TokenCounter) (overlap : ℤ) (i k : ℕ)
    (back : ℤ) : walkBack (plain doc) countTokens overlap i k back =
      walkBack doc countTokens overlap i k back := by
  induction k generalizing back with
  | zero => rfl
  | succ k ih => simp only [walkBack, wordCosts_plain, ih]

theorem resumeAt_plain (doc : List α) (countTokens : TokenCounter) (overlap : ℤ) (i j : ℕ) :
    resumeAt (plain doc) countTokens overlap i j = resumeAt doc countTokens overlap i j := by
  simp only [resumeAt, walkBack_plain]

theorem fixedLoop_erase (doc : List α) (countTokens : TokenCounter) (target overlap : ℤ)
    (docSpans : List (Span α)) (i : ℕ) (chunks : List (Chunk α)) :
    fixedLoop F (plain doc) countTokens target overlap (docSpans.map eraseSpan) i
        (chunks.map (·.erase)) =
      (fixedLoop F doc countTokens target overlap docSpans i chunks).map (·.erase) := by
  induction hn : (spans space doc).length - i using Nat.strong_induction_on
    generalizing i chunks with
  | _ n ih =>
    unfold fixedLoop
    simp only [spans_plain, fitWindow_plain, windowRange, appendRange_erase,
      resumeAt_plain]
    split_ifs with hi hlast
    · rfl
    · have hj := (fitWindow_bounds F doc countTokens target hi).1
      have hk := (resumeAt_bounds doc countTokens overlap hj).1
      exact ih _ (by omega) _ _ rfl
    · rfl

theorem chunkFixed_erase (countTokens : TokenCounter) (target overlap : ℤ)
    (blocks : List (SourceBlock α)) :
    chunkFixed F countTokens target overlap (blocks.map (·.erase)) =
      (chunkFixed F countTokens target overlap blocks).map (·.erase) := by
  have hloop := fixedLoop_erase (F := F) (flatten (prepare blocks)).1 countTokens target overlap
    (flatten (prepare blocks)).2 0 []
  unfold chunkFixed
  simp only [prepare_erase, flatten_erase, plain_isEmpty, spans_plain]
  split_ifs
  · rfl
  · rfl
  · exact hloop

theorem cutPieces_plain (doc : List α) (sep : Separator) (stop cursor : ℕ) :
    cutPieces (plain doc) sep stop cursor = cutPieces doc sep stop cursor := by
  induction hn : stop - cursor using Nat.strong_induction_on generalizing cursor with
  | _ n ih =>
    rcases Nat.lt_or_ge cursor stop with hlt | hge
    · rw [cutPieces_of_lt _ sep hlt, cutPieces_of_lt _ sep hlt, plain_char]
      cases hfound : find (plain doc) sep.text cursor stop with
      | none => rfl
      | some found =>
        obtain ⟨h1, -, -⟩ := find_spec hfound
        have hpos := sep.length_pos
        rw [Option.elim_some, Option.elim_some, ih _ (by omega) _ rfl]
    · rw [cutPieces_of_le _ sep hge, cutPieces_of_le _ sep hge]

theorem splitRecursive_plain (doc : List α) (countTokens : TokenCounter) (target : ℤ)
    (seps : List Separator) (start stop : ℕ) :
    splitRecursive (plain doc) countTokens target seps start stop =
      splitRecursive doc countTokens target seps start stop := by
  induction seps generalizing start stop with
  | nil => rfl
  | cons sep rest ih => simp only [splitRecursive, ← plain_slice, plain_char, cutPieces_plain, ih]

def erasePack (st : PackState α) : PackState Char :=
  ⟨st.chunks.map (·.erase), st.curStart, st.curEnd, st.curTokens⟩

section
variable (doc : List α) (spans : List (Span α)) (countTokens : TokenCounter) (target : ℤ)

theorem flushPack_erase (st : PackState α) :
    flushPack (plain doc) countTokens (spans.map eraseSpan) (erasePack st) =
      erasePack (flushPack doc countTokens spans st) := by
  unfold flushPack
  cases h : st.curStart with
  | none => simp [erasePack, h]
  | some start => simp [erasePack, h, appendRange_erase]

theorem makeRoom_erase (st : PackState α) (cost : ℤ) :
    makeRoom (plain doc) countTokens target (spans.map eraseSpan) (erasePack st) cost =
      erasePack (makeRoom doc countTokens target spans st cost) := by
  unfold makeRoom
  rw [flushPack_erase]
  change (if st.curStart.isSome ∧ target < st.curTokens + cost then _ else _) = _
  split_ifs <;> rfl

theorem packStep_erase (st : PackState α) (p : ℕ × ℕ) :
    packStep (plain doc) countTokens target (spans.map eraseSpan) (erasePack st) p =
      erasePack (packStep doc countTokens target spans st p) := by
  unfold packStep
  simp only [← plain_slice, plain_char, makeRoom_erase]
  rfl

theorem packPieces_erase (pieces : List (ℕ × ℕ)) :
    packPieces (plain doc) countTokens target (spans.map eraseSpan) pieces =
      (packPieces doc countTokens target spans pieces).map (·.erase) := by
  have hfold : ∀ st : PackState α,
      pieces.foldl (packStep (plain doc) countTokens target (spans.map eraseSpan)) (erasePack st) =
        erasePack (pieces.foldl (packStep doc countTokens target spans) st) := by
    induction pieces with
    | nil => exact fun st => rfl
    | cons p pieces ih =>
      intro st
      rw [List.foldl_cons, List.foldl_cons, packStep_erase, ih]
  have hinit : (⟨[], none, 0, 0⟩ : PackState Char) = erasePack (⟨[], none, 0, 0⟩ : PackState α) := rfl
  rw [packPieces, packPieces, hinit, hfold, flushPack_erase]
  rfl

end

theorem packedChunks_erase (countTokens : TokenCounter) (target : ℤ)
    (blocks : List (SourceBlock α)) :
    packedChunks countTokens target (blocks.map (·.erase)) =
      (packedChunks countTokens target blocks).map (·.erase) := by
  unfold packedChunks
  simp only [prepare_erase, flatten_erase, plain_isEmpty, splitRecursive_plain, plain_length,
    packPieces_erase]
  split_ifs <;> rfl

theorem withPrevious_erase {f : Chunk α → Chunk α → Chunk α} {g : Chunk Char → Chunk Char → Chunk Char}
    (hf : ∀ prev cur, g prev.erase cur.erase = (f prev cur).erase) (chunks : List (Chunk α)) :
    withPrevious g (chunks.map (·.erase)) = (withPrevious f chunks).map (·.erase) := by
  cases chunks with
  | nil => rfl
  | cons first rest =>
    rw [List.map_cons, withPrevious, withPrevious, List.map_cons, ← List.map_cons,
      List.zipWith_map, List.map_zipWith]
    simp only [hf]

theorem carriedWords_erase (countTokens : TokenCounter) (overlap : ℤ) (prev : Chunk α) :
    carriedWords countTokens overlap prev.erase =
      (carriedWords countTokens overlap prev).map plain := by
  have htail : ∀ (ws : List (List α)) (budget : ℤ),
      overlapTail countTokens overlap (ws.map plain) budget =
        (overlapTail countTokens overlap ws budget).map plain := by
    intro ws
    induction ws with
    | nil => exact fun _ => rfl
    | cons w ws ih =>
      intro budget
      simp only [List.map_cons, overlapTail, plain_char, ih]
      split_ifs <;> simp
  have hwords : words space prev.erase.text = (words space prev.text).map plain :=
    plain_words prev.text
  rw [carriedWords, carriedWords, hwords, ← List.map_reverse, htail]

theorem overlapChunk_erase (countTokens : TokenCounter) (overlap : ℤ) (prev cur : Chunk α) :
    overlapChunk countTokens overlap prev.erase cur.erase =
      (overlapChunk countTokens overlap prev cur).erase := by
  unfold overlapChunk
  simp only [carriedWords_erase, List.isEmpty_map]
  split_ifs
  · rfl
  · have htwice : ∀ ws : List (List α), (ws.map plain).map plain = ws.map plain := by simp
    simp only [Chunk.erase, plain_append, plain_join, plain_lit_char, plain_char, htwice]

theorem chunkRecursive_erase (countTokens : TokenCounter) (target overlap : ℤ)
    (blocks : List (SourceBlock α)) :
    chunkRecursive countTokens target overlap (blocks.map (·.erase)) =
      (chunkRecursive countTokens target overlap blocks).map (·.erase) := by
  unfold chunkRecursive applyTextOverlap
  simp only [packedChunks_erase, withPrevious_erase (overlapChunk_erase countTokens overlap)]
  split_ifs <;> rfl

def eraseLayout (st : LayoutState α) : LayoutState Char :=
  ⟨st.chunks.map (·.erase), st.buffer.map (·.erase), st.bufferedTokens⟩

section
variable (countTokens : TokenCounter) (target overlap : ℤ)

theorem joinBlocks_erase (bs : List (SourceBlock α)) :
    joinBlocks (bs.map (·.erase)) = plain (joinBlocks bs) := by
  simp [joinBlocks, plain_join, blockJoin, plain_lit_char, plain_strip, Function.comp_def]

theorem flushLayout_erase (st : LayoutState α) :
    flushLayout countTokens (eraseLayout st) = eraseLayout (flushLayout countTokens st) := by
  unfold flushLayout
  simp only [eraseLayout, List.isEmpty_map, List.length_map, joinBlocks_erase, assemble_erase]
  split_ifs
  · rfl
  · cases assemble st.chunks.length (joinBlocks st.buffer) st.buffer "layout" countTokens <;> simp

theorem atomicChunk_erase (seq : ℕ) (b : SourceBlock α) :
    atomicChunk countTokens seq b.erase = (atomicChunk countTokens seq b).map (·.erase) := by
  have h := assemble_erase seq b.text [b] "layout" countTokens
  rw [List.map_singleton] at h
  rw [atomicChunk, atomicChunk, erase_text, h]
  cases assemble seq b.text [b] "layout" countTokens <;> rfl

theorem sectionChanged_erase (buffer : List (SourceBlock α)) (b : SourceBlock α) :
    sectionChanged (buffer.map (·.erase)) b.erase = sectionChanged buffer b := by
  unfold sectionChanged
  rw [List.getLast?_map]
  cases buffer.getLast? <;> rfl

theorem flushBefore_erase (st : LayoutState α) (b : SourceBlock α) (cost : ℤ) :
    flushBefore countTokens target (eraseLayout st) b.erase cost =
      eraseLayout (flushBefore countTokens target st b cost) := by
  unfold flushBefore
  rw [flushLayout_erase, erase_isBoundary]
  simp only [eraseLayout, sectionChanged_erase]
  split_ifs <;> rfl

theorem layoutStep_erase (st : LayoutState α) (b : SourceBlock α) :
    layoutStep countTokens target (eraseLayout st) b.erase =
      eraseLayout (layoutStep countTokens target st b) := by
  unfold layoutStep
  simp only [erase_isAtomic, flushLayout_erase, erase_text, plain_char, flushBefore_erase]
  split_ifs
  · simp only [eraseLayout, List.length_map, atomicChunk_erase, List.map_append]
    cases atomicChunk countTokens (flushLayout countTokens st).chunks.length b <;> rfl
  · simp [eraseLayout]

theorem packedBlocks_erase (blocks : List (SourceBlock α)) :
    packedBlocks countTokens target (blocks.map (·.erase)) =
      (packedBlocks countTokens target blocks).map (·.erase) := by
  have hfold : ∀ (bs : List (SourceBlock α)) (st : LayoutState α),
      (bs.map (·.erase)).foldl (layoutStep countTokens target) (eraseLayout st) =
        eraseLayout (bs.foldl (layoutStep countTokens target) st) := by
    intro bs
    induction bs with
    | nil => exact fun _ => rfl
    | cons b bs ih =>
      intro st
      rw [List.map_cons, List.foldl_cons, List.foldl_cons, layoutStep_erase, ih]
  have hinit : (⟨[], [], 0⟩ : LayoutState Char) = eraseLayout (⟨[], [], 0⟩ : LayoutState α) := rfl
  unfold packedBlocks
  simp only [prepare_erase, List.isEmpty_map, hinit, hfold, flushLayout_erase]
  split_ifs <;> rfl

theorem byId_erase (blocks : List (SourceBlock α)) (id : String) :
    byId (blocks.map (·.erase)) id = (byId blocks id).map (·.erase) := by
  rw [byId, byId, ← List.map_reverse, List.find?_map]
  rfl

theorem filterMap_byId_erase (blocks : List (SourceBlock α)) (ids : List String) :
    ids.filterMap (byId (blocks.map (·.erase))) =
      (ids.filterMap (byId blocks)).map (·.erase) := by
  have hbyId : byId (blocks.map (·.erase)) = fun id => (byId blocks id).map (·.erase) :=
    funext fun id => byId_erase blocks id
  rw [hbyId, List.map_filterMap]

theorem carriedBlocks_erase (prepared : List (SourceBlock α)) (prev : Chunk α) :
    carriedBlocks countTokens overlap (prepared.map (·.erase)) prev.erase =
      (carriedBlocks countTokens overlap prepared prev).map (·.erase) := by
  unfold carriedBlocks
  rw [filterMap_byId_erase, List.filter_map]
  congr 2
  funext b
  change decide (countTokens (plain (plain b.text)) ≤ overlap) = _
  rw [plain_char]

theorem overlapBlocks_erase (prepared : List (SourceBlock α)) (prev cur : Chunk α) :
    overlapBlocks countTokens overlap (prepared.map (·.erase)) prev.erase cur.erase =
      (overlapBlocks countTokens overlap prepared prev cur).erase := by
  have hatomic : ∀ c : Chunk α, c.erase.atomic = c.atomic := fun _ => rfl
  have hids : cur.erase.blockIds = cur.blockIds := rfl
  have hseq : cur.erase.seq = cur.seq := rfl
  unfold overlapBlocks
  simp only [hatomic, hids, hseq, carriedBlocks_erase, filterMap_byId_erase, ← List.map_append,
    joinBlocks_erase, assemble_erase, List.isEmpty_map]
  split_ifs
  · rfl
  · rfl
  · generalize carriedBlocks countTokens overlap prepared prev ++
      cur.blockIds.filterMap (byId prepared) = merged
    cases assemble cur.seq (joinBlocks merged) merged "layout" countTokens <;> rfl

theorem chunkLayout_erase (blocks : List (SourceBlock α)) :
    chunkLayout countTokens target overlap (blocks.map (·.erase)) =
      (chunkLayout countTokens target overlap blocks).map (·.erase) := by
  unfold chunkLayout applyBlockOverlap
  simp only [packedBlocks_erase, prepare_erase,
    withPrevious_erase (overlapBlocks_erase countTokens overlap (prepare blocks))]
  split_ifs <;> rfl

end

def eraseCut (st : CutState α) : CutState Char :=
  ⟨st.chunks.map (·.erase), st.startIdx, st.running⟩

section
variable (doc : List α) (spans : List (Span α)) (countTokens : TokenCounter) (target : ℤ)
variable (bounds : List (ℕ × ℕ))

theorem sentenceCost_plain :
    sentenceCost (plain doc) countTokens bounds = sentenceCost doc countTokens bounds := by
  funext i
  rw [sentenceCost, sentenceCost, ← plain_slice, plain_char]

theorem cutStep_erase (cutBelow : F) (st : CutState α) (gap : F × ℕ) :
    cutStep (plain doc) (spans.map eraseSpan) countTokens target bounds cutBelow (eraseCut st) gap =
      eraseCut (cutStep doc spans countTokens target bounds cutBelow st gap) := by
  unfold cutStep
  simp only [sentenceCost_plain, eraseCut, appendRange_erase]
  split_ifs <;> rfl

theorem cutSentences_erase (gaps : List F) (cutBelow : F) :
    cutSentences (plain doc) (spans.map eraseSpan) countTokens target bounds gaps cutBelow =
      (cutSentences doc spans countTokens target bounds gaps cutBelow).map (·.erase) := by
  have hfold : ∀ (gs : List (F × ℕ)) (st : CutState α),
      gs.foldl (cutStep (plain doc) (spans.map eraseSpan) countTokens target bounds cutBelow)
          (eraseCut st) =
        eraseCut (gs.foldl (cutStep doc spans countTokens target bounds cutBelow) st) := by
    intro gs
    induction gs with
    | nil => exact fun _ => rfl
    | cons g gs ih =>
      intro st
      rw [List.foldl_cons, List.foldl_cons, cutStep_erase, ih]
  have hinit : (⟨[], 0, sentenceCost (plain doc) countTokens bounds 0⟩ : CutState Char) =
      eraseCut (⟨[], 0, sentenceCost doc countTokens bounds 0⟩ : CutState α) := by
    rw [sentenceCost_plain]
    rfl
  unfold cutSentences
  simp only [hinit, hfold]
  exact appendRange_erase _ _ _ _ _ _

theorem chunkSentences_erase (embed : List (List Char) → List (List F)) (q : F) :
    chunkSentences (plain doc) (spans.map eraseSpan) countTokens target bounds embed q =
      (chunkSentences doc spans countTokens target bounds embed q).map (List.map (·.erase)) := by
  unfold chunkSentences
  simp only [← plain_slice, plain_char, cutSentences_erase]
  split_ifs
  · cases similarities (embed (bounds.map fun r => plain (slice doc r.1 r.2))) with
    | error e => rfl
    | ok gaps =>
      change (percentile gaps q >>= _) = Except.map _ (percentile gaps q >>= _)
      cases percentile gaps q <;> rfl
  · rfl

theorem chunkSemantic_erase (embed : List (List Char) → List (List F)) (q : F)
    (blocks : List (SourceBlock α)) :
    chunkSemantic countTokens target embed q (blocks.map (·.erase)) =
      (chunkSemantic countTokens target embed q blocks).map (List.map (·.erase)) := by
  unfold chunkSemantic
  simp only [prepare_erase, flatten_erase, plain_isEmpty, plain_length, plain_char,
    assemble_erase, chunkSentences_erase]
  split_ifs
  · rfl
  · cases assemble 0 (flatten (prepare blocks)).1 (prepare blocks) "semantic" countTokens <;> rfl
  · rfl

end

/-- A run on traced text, its origins erased, is the run on the plain text. -/
theorem chunkWith_erase (strategy : Strategy) (blocks : List (SourceBlock α))
    (o : ChunkOptions F) : chunkWith strategy (blocks.map (·.erase)) o =
      (chunkWith strategy blocks o).map (List.map (·.erase)) := by
  cases strategy with
  | fixed => exact congrArg Except.ok (chunkFixed_erase _ _ _ blocks)
  | recursive => exact congrArg Except.ok (chunkRecursive_erase _ _ _ blocks)
  | layout => exact congrArg Except.ok (chunkLayout_erase _ _ _ blocks)
  | semantic => exact chunkSemantic_erase _ _ _ _ blocks

end Ragent.TracedRun
