import Ragent.Exceptions
import Ragent.PyNumbers
import Ragent.RangeChunks

set_option autoImplicit false

/-!
# The semantic strategy

`chunk_semantic` of `ragent/ingest/chunking.py` with its helpers `_cosine` and `_percentile`. The
embedder is a parameter.
-/
namespace Ragent.SemanticChunks
open SpacedWords Exceptions PyText PyNumbers SourceTypes FlattenedDocument RangeChunks

inductive PyException
  | valueError (message : String)
  | zeroDivisionError
  | indexError

/-- The lookbehinds of `_SENTENCE_RE`, `before` being the text in front, last character first. -/
def endsSentence : List Char → Bool
  | [] => false
  | [c] => c ∈ ".!?".toList
  | c :: d :: _ => c ∈ ".!?".toList || (c ∈ "\"')]".toList && d ∈ ".!?".toList)

/-- The lookahead of `_SENTENCE_RE`. -/
def startsSentence : List Char → Bool
  | [] => false
  | c :: _ => ('A' ≤ c && c ≤ 'Z') || c ∈ "(\"'".toList

/-- `_SENTENCE_RE.finditer` at position `i`, searching from `resume` on. The lookahead refuses a
    space, so `\s+` matches the whole gap. -/
def sentenceBreaksFrom (i resume : ℕ) (before : List Char) : List Char → List (ℕ × ℕ)
  | [] => []
  | c :: text =>
    let gap := (c :: text).takeWhile isSpace
    let rest := (c :: text).dropWhile isSpace
    if resume ≤ i && isSpace c && endsSentence before && startsSentence rest then
      (i, i + gap.length) :: sentenceBreaksFrom (i + 1) (i + gap.length) (c :: before) text
    else sentenceBreaksFrom (i + 1) resume (c :: before) text

def sentenceBreaks (text : List Char) : List (ℕ × ℕ) := sentenceBreaksFrom 0 0 [] text

/-- `bounds`, from the cursor on. -/
def sentenceBounds (length : ℕ) : ℕ → List (ℕ × ℕ) → List (ℕ × ℕ)
  | cursor, [] => if cursor < length then [(cursor, length)] else []
  | cursor, m :: ms =>
    (if cursor < m.1 then [(cursor, m.1)] else []) ++ sentenceBounds length m.2 ms

section
variable {F : Type} [PyFloat F]

def cosine (a b : List F) : Except PyException F :=
  if a.length < b.length then .error (.valueError "zip() argument 2 is longer than argument 1")
  else if b.length < a.length then
    .error (.valueError "zip() argument 2 is shorter than argument 1")
  else
    let dot := PyFloat.sum (List.zipWith PyFloat.mul a b)
    let na := PyFloat.sqrt (PyFloat.sum (a.map fun x => PyFloat.mul x x))
    let nb := PyFloat.sqrt (PyFloat.sum (b.map fun y => PyFloat.mul y y))
    if PyFloat.isZero na || PyFloat.isZero nb then .ok (PyFloat.ofInt 0)
    else if PyFloat.isZero (PyFloat.mul na nb) then .error .zeroDivisionError
    else .ok (PyFloat.div dot (PyFloat.mul na nb))

/-- `xs[i]`, where a negative index counts from the end. -/
def index {α : Type} (xs : List α) (i : ℤ) : Except PyException α :=
  let j := if 0 ≤ i then i else xs.length + i
  match if 0 ≤ j then xs[j.toNat]? else none with
  | some x => .ok x
  | none => .error .indexError

def percentile (values : List F) (q : F) : Except PyException F :=
  let ordered := values.insertionSort fun a b => PyFloat.lt b a = false
  match ordered with
  | [] => .ok (PyFloat.ofInt 0)
  | [x] => .ok x
  | _ => do
    let last := (ordered.length : ℤ) - 1
    let pos := PyFloat.mul (PyFloat.ofInt last) q
    let lo := PyFloat.trunc pos
    let hi := min (lo + 1) last
    let lower ← index ordered lo
    let upper ← index ordered hi
    return PyFloat.add lower
      (PyFloat.mul (PyFloat.sub upper lower) (PyFloat.sub pos (PyFloat.ofInt lo)))

/-- `gaps` -/
def similarities (vectors : List (List F)) : Except PyException (List F) :=
  (vectors.zip vectors.tail).mapM fun pair => cosine pair.1 pair.2

end

structure CutState (α : Type) where
  chunks : List (Chunk α)
  startIdx : ℕ
  running : ℤ

section
variable {α F : Type} [Glyph α] [PyFloat F]
variable (doc : List α) (spans : List (Span α)) (countTokens : TokenCounter) (target : ℤ)
variable (bounds : List (ℕ × ℕ))

def sentenceCost (i : ℕ) : ℤ :=
  countTokens (plain (slice doc (bounds.getD i (0, 0)).1 (bounds.getD i (0, 0)).2))

/-- The body of `for i, similarity in enumerate(gaps)`. -/
def cutStep (cutBelow : F) (st : CutState α) (gap : F × ℕ) : CutState α :=
  let (similarity, i) := gap
  let nextCost := sentenceCost doc countTokens bounds (i + 1)
  if PyFloat.lt similarity cutBelow || target < st.running + nextCost then
    { chunks := appendRange doc spans "semantic" countTokens st.chunks
        (mergeWindow bounds (st.startIdx, i + 1))
      startIdx := i + 1
      running := nextCost }
  else { st with running := st.running + nextCost }

def cutSentences (gaps : List F) (cutBelow : F) : List (Chunk α) :=
  let st := gaps.zipIdx.foldl (cutStep doc spans countTokens target bounds cutBelow)
    ⟨[], 0, sentenceCost doc countTokens bounds 0⟩
  appendRange doc spans "semantic" countTokens st.chunks
    (mergeWindow bounds (st.startIdx, bounds.length))

/-- From `sentences = ..` to the end of `chunk_semantic`. -/
def chunkSentences (embed : List (List Char) → List (List F)) (breakpointPercentile : F) :
    Except PyException (List (Chunk α)) := do
  let sentences := bounds.map fun r => plain (slice doc r.1 r.2)
  let vectors := embed sentences
  let got := vectors.length
  let want := sentences.length
  if got = want then
    let gaps ← similarities vectors
    let cutBelow ← percentile gaps breakpointPercentile
    return cutSentences doc spans countTokens target bounds gaps cutBelow
  else .error (.valueError s!"embedder returned {got} vectors for {want} sentences")

def chunkSemantic (embed : List (List Char) → List (List F)) (breakpointPercentile : F)
    (blocks : List (SourceBlock α)) : Except PyException (List (Chunk α)) :=
  let prepared := prepare blocks
  let (doc, spans) := flatten prepared
  if doc.isEmpty then .ok []
  else
    let bounds := sentenceBounds doc.length 0 (sentenceBreaks (plain doc))
    if bounds.length < 2 then .ok (assemble 0 doc prepared "semantic" countTokens).toList
    else chunkSentences doc spans countTokens target bounds embed breakpointPercentile

end

theorem sentenceBreaksFrom_gaps (front before text : List Char) (resume : ℕ) :
    Gaps isSpace (front ++ text) (max resume front.length)
      (sentenceBreaksFrom front.length resume before text) := by
  induction text generalizing front before resume with
  | nil => trivial
  | cons c text ih =>
    have hnext : ∀ resume, Gaps isSpace (front ++ c :: text) (max resume (front.length + 1))
        (sentenceBreaksFrom (front.length + 1) resume (c :: before) text) := by
      intro resume
      have htail := ih (front ++ [c]) (c :: before) resume
      rwa [List.append_assoc, List.singleton_append, List.length_append,
        List.length_singleton] at htail
    unfold sentenceBreaksFrom
    simp only [Bool.and_eq_true, decide_eq_true_eq]
    split_ifs with hmatch
    · obtain ⟨⟨⟨hresume, hc⟩, -⟩, -⟩ := hmatch
      have hpos : 0 < ((c :: text).takeWhile isSpace).length := by simp [hc]
      have hgap : (c :: text).takeWhile isSpace <+: c :: text := List.takeWhile_prefix _
      refine ⟨max_le hresume (le_refl _), Nat.lt_add_of_pos_right hpos, fun a ha => ?_, ?_⟩
      · rw [slice_append_right front _ _ (le_refl _), Nat.sub_self, slice_zero,
          ← List.prefix_iff_eq_take.mp hgap] at ha
        exact List.mem_takeWhile_imp ha
      · exact (hnext _).of_le (le_max_left _ _)
    · exact (hnext resume).of_le (by omega)

theorem sentenceBounds_tiles {text : List Char} {p : ℕ} {ms : List (ℕ × ℕ)}
    (h : Gaps isSpace text p ms) : Tiles isSpace text p (sentenceBounds text.length p ms) := by
  induction ms generalizing p with
  | nil =>
    unfold sentenceBounds
    split_ifs with hlt
    · exact ⟨le_refl p, hlt.le, by simp [slice_self], isCut_of_length_le (le_refl _), by simp [Tiles]⟩
    · simp [Tiles, List.drop_eq_nil_of_le (Nat.le_of_not_lt hlt)]
  | cons m ms ih =>
    obtain ⟨h1, h2, h3, h4⟩ := h
    have hrest := (ih h4).extend h2.le h3
    unfold sentenceBounds
    split_ifs with hlt
    · have hcut : IsCut isSpace text m.1 := isCut_of_space_after fun a ha =>
        h3 a (mem_slice.mpr ⟨m.1, le_refl _, h2, ha⟩)
      exact ⟨le_refl p, hlt.le, by simp [slice_self], hcut, hrest⟩
    · have heq : p = m.1 := by omega
      exact heq ▸ hrest

section
variable {α F : Type} [Glyph α] [PyFloat F]
variable (doc : List α) (spans : List (Span α)) (countTokens : TokenCounter) (target : ℤ)
variable (bounds : List (ℕ × ℕ))

theorem bounds_tiles :
    Tiles space doc 0 (sentenceBounds doc.length 0 (sentenceBreaks (plain doc))) := by
  have h := sentenceBounds_tiles (sentenceBreaksFrom_gaps [] [] (plain doc) 0)
  rw [List.nil_append, plain_length] at h
  exact (tiles_plain doc 0 _).mp h

/-- The chunks so far come from windows that end where the current chunk starts. -/
def CutInv (st : CutState α) (i : ℕ) : Prop :=
  st.startIdx ≤ i ∧ ∃ ws, Windows (fun j k => k = j) st.startIdx 0 ws ∧
    st.chunks = appendRanges doc spans "semantic" countTokens [] (ws.map (mergeWindow bounds))

theorem cutStep_inv {cutBelow : F} {st : CutState α} {similarity : F} {i : ℕ}
    (h : CutInv doc spans countTokens bounds st i) :
    CutInv doc spans countTokens bounds
      (cutStep doc spans countTokens target bounds cutBelow st (similarity, i)) (i + 1) := by
  obtain ⟨hle, ws, hws, heq⟩ := h
  unfold cutStep
  simp only
  split_ifs with hcut
  · refine ⟨le_refl _, _, hws.snoc (Nat.zero_le _) (Nat.lt_succ_of_le hle), ?_⟩
    rw [List.map_append, List.map_singleton, appendRanges_concat, ← heq]
  · exact ⟨hle.trans (Nat.le_succ i), ws, hws, heq⟩

theorem foldl_cutStep_inv (cutBelow : F) (gaps : List F) (i : ℕ) (st : CutState α)
    (h : CutInv doc spans countTokens bounds st i) :
    CutInv doc spans countTokens bounds
      ((gaps.zipIdx i).foldl (cutStep doc spans countTokens target bounds cutBelow) st)
      (i + gaps.length) := by
  induction gaps generalizing i st with
  | nil => exact h
  | cons similarity gaps ih =>
    rw [List.zipIdx_cons, List.foldl_cons, List.length_cons, Nat.add_comm gaps.length,
      ← Nat.add_assoc]
    exact ih (i + 1) _ (cutStep_inv doc spans countTokens target bounds h)

theorem cutSentences_windows (gaps : List F) (cutBelow : F) (h : gaps.length < bounds.length) :
    ∃ ws, Windows (fun j k => k = j) bounds.length 0 ws ∧
      cutSentences doc spans countTokens target bounds gaps cutBelow =
        appendRanges doc spans "semantic" countTokens [] (ws.map (mergeWindow bounds)) := by
  have hinit : CutInv doc spans countTokens bounds
      ⟨[], 0, sentenceCost doc countTokens bounds 0⟩ 0 :=
    ⟨le_refl 0, [], .done (le_refl 0), rfl⟩
  obtain ⟨hle, ws, hws, heq⟩ :=
    foldl_cutStep_inv doc spans countTokens target bounds cutBelow gaps 0 _ hinit
  rw [Nat.zero_add] at hle
  refine ⟨_, hws.snoc (Nat.zero_le _) (hle.trans_lt h), ?_⟩
  rw [List.map_append, List.map_singleton, appendRanges_concat, ← heq]
  rfl

theorem similarities_length {vectors : List (List F)} {gaps : List F}
    (h : similarities vectors = .ok gaps) : gaps.length = vectors.length - 1 := by
  have hmap : ∀ (pairs : List (List F × List F)) (gaps : List F),
      pairs.mapM (fun pair => cosine pair.1 pair.2) = .ok gaps → gaps.length = pairs.length := by
    intro pairs
    induction pairs with
    | nil =>
      intro gaps h
      cases h
      rfl
    | cons pair pairs ih =>
      intro gaps h
      rw [List.mapM_cons] at h
      obtain ⟨g, -, h⟩ := ok_of_bind h
      obtain ⟨gs, hgs, h⟩ := ok_of_bind h
      cases h
      rw [List.length_cons, List.length_cons, ih gs hgs]
  have hlen := hmap _ _ h
  simpa [List.length_zip] using hlen

theorem chunkSentences_windows {embed : List (List Char) → List (List F)} {q : F}
    {chunks : List (Chunk α)} (hne : bounds ≠ [])
    (h : chunkSentences doc spans countTokens target bounds embed q = .ok chunks) :
    ∃ ws, Windows (fun j k => k = j) bounds.length 0 ws ∧
      chunks = appendRanges doc spans "semantic" countTokens [] (ws.map (mergeWindow bounds)) := by
  unfold chunkSentences at h
  simp only [List.length_map] at h
  split_ifs at h with hcount
  obtain ⟨gaps, hgaps, h⟩ := ok_of_bind h
  obtain ⟨cutBelow, -, h⟩ := ok_of_bind h
  cases h
  have hpos := List.length_pos_iff.mpr hne
  apply cutSentences_windows
  rw [similarities_length hgaps, hcount]
  omega

theorem whole_document {prepared : List (SourceBlock α)} (h : Flattened doc spans)
    (hspans : spans.map (·.block) = prepared) :
    ∃ rs, Tiles space doc 0 rs ∧ (assemble 0 doc prepared "semantic" countTokens).toList =
      appendRanges doc spans "semantic" countTokens [] rs := by
  refine ⟨[(0, doc.length)], ⟨le_refl 0, Nat.zero_le _, by simp [slice], isCut_of_length_le
    (le_refl _), by simp [Tiles]⟩, ?_⟩
  simp only [appendRanges, List.foldl_cons, List.foldl_nil, appendRange, slice_to_end,
    List.drop_zero, h.blocksInRange_all, hspans, List.length_nil]
  cases assemble 0 doc prepared "semantic" countTokens with
  | none => rfl
  | some c => rfl

/-- Whatever the embedder returns, the chunks of the semantic strategy tile the document. -/
theorem chunkSemantic_tiles {embed : List (List Char) → List (List F)} {q : F}
    {blocks : List (SourceBlock α)} {chunks : List (Chunk α)}
    (h : chunkSemantic countTokens target embed q blocks = .ok chunks) :
    ∃ rs, Tiles space (flatten (prepare blocks)).1 0 rs ∧
      chunks = appendRanges (flatten (prepare blocks)).1 (flatten (prepare blocks)).2 "semantic"
        countTokens [] rs := by
  have hflat := flatten_flattened (prepare blocks)
  have hspans := flatten_prepare_blocks blocks
  unfold chunkSemantic at h
  simp only at h
  split_ifs at h with hdoc hshort
  · cases h
    exact ⟨[], by simp [Tiles, List.isEmpty_iff.mp hdoc], rfl⟩
  · cases h
    exact whole_document _ _ countTokens hflat hspans
  · have hne : sentenceBounds (flatten (prepare blocks)).1.length 0
        (sentenceBreaks (plain (flatten (prepare blocks)).1)) ≠ [] := by
      intro h0
      simp [h0] at hshort
    obtain ⟨ws, hws, heq⟩ := chunkSentences_windows _ _ countTokens target _ hne h
    exact ⟨_, (bounds_tiles (flatten (prepare blocks)).1).merge (i := 0) hws, heq⟩

/-- The embedder returns one vector for each sentence, and no float operation on them raises. -/
def Embeds (embed : List (List Char) → List (List F)) (q : F) : Prop :=
  ∀ sentences, (embed sentences).length = sentences.length ∧
    ∃ gaps cutBelow, similarities (embed sentences) = .ok gaps ∧ percentile gaps q = .ok cutBelow

theorem chunkSemantic_returns {embed : List (List Char) → List (List F)} {q : F}
    (hembed : Embeds embed q) (blocks : List (SourceBlock α)) :
    ∃ chunks, chunkSemantic countTokens target embed q blocks = .ok chunks := by
  unfold chunkSemantic
  simp only
  split_ifs
  · exact ⟨_, rfl⟩
  · exact ⟨_, rfl⟩
  · unfold chunkSentences
    obtain ⟨hlen, gaps, cutBelow, hgaps, hcut⟩ := hembed ((sentenceBounds
      (flatten (prepare blocks)).1.length 0
      (sentenceBreaks (plain (flatten (prepare blocks)).1))).map fun r =>
        plain (slice (flatten (prepare blocks)).1 r.1 r.2))
    simp only [hlen, ↓reduceIte, hgaps, bind, Except.bind, hcut]
    exact ⟨_, rfl⟩

end
end Ragent.SemanticChunks
