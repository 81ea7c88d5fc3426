import Ragent.NextFit
import Ragent.RangeChunks
import Ragent.RangePartitions

set_option autoImplicit false

/-!
# The recursive strategy

`_split_recursive`, `chunk_recursive` and `_apply_text_overlap` of `ragent/ingest/chunking.py`.
-/
namespace Ragent.RecursiveChunks
open SpacedWords PyText SourceTypes FlattenedDocument RangeChunks

structure Separator where
  text : List Char
  nonempty : text ≠ []

/-- A split behind such a separator cuts through no word. -/
def Separator.EndsBlank (sep : Separator) : Prop := isSpace (sep.text.getLast sep.nonempty) = true

def separators : List Separator :=
  [⟨"\n\n".toList, by decide⟩, ⟨"\n".toList, by decide⟩, ⟨". ".toList, by decide⟩,
    ⟨"; ".toList, by decide⟩, ⟨", ".toList, by decide⟩, ⟨" ".toList, by decide⟩]

theorem separators_endBlank : ∀ sep ∈ separators, sep.EndsBlank := by
  simp only [separators, List.forall_mem_cons, Separator.EndsBlank]
  decide

theorem Separator.length_pos (sep : Separator) : 0 < sep.text.length :=
  List.length_pos_iff.mpr sep.nonempty

section
variable {α : Type} [Glyph α]
variable (doc : List α) (countTokens : TokenCounter) (target overlap : ℤ)

/-- `while cursor < end`: the pieces of one separator. No separator is empty, so `stop > cursor`
    holds at every match. -/
def cutPieces (sep : Separator) (stop cursor : ℕ) : List (ℕ × ℕ) :=
  if cursor < stop then
    match _h : find (plain doc) sep.text cursor stop with
    | none => [(cursor, stop)]
    | some found =>
      (cursor, found + sep.text.length) :: cutPieces sep stop (found + sep.text.length)
  else []
termination_by stop - cursor
decreasing_by
  have := find_spec _h
  have := sep.length_pos
  omega

def splitRecursive : List Separator → ℕ → ℕ → List (ℕ × ℕ)
  | [], start, stop => [(start, stop)]
  | sep :: rest, start, stop =>
    if countTokens (plain (slice doc start stop)) ≤ target then [(start, stop)]
    else
      let pieces := cutPieces doc sep stop start
      if pieces.length ≤ 1 then splitRecursive rest start stop
      else pieces.flatMap fun p => splitRecursive rest p.1 p.2

structure PackState (α : Type) where
  chunks : List (Chunk α)
  curStart : Option ℕ
  curEnd : ℕ
  curTokens : ℤ

/-- `flush()` of `chunk_recursive`. -/
def flushPack (spans : List (Span α)) (st : PackState α) : PackState α :=
  match st.curStart with
  | none => st
  | some start =>
    { chunks := appendRange doc spans "recursive" countTokens st.chunks (start, st.curEnd)
      curStart := none
      curEnd := 0
      curTokens := 0 }

/-- `if cur_start is not None and cur_tokens + cost > target_tokens: flush()` -/
def makeRoom (spans : List (Span α)) (st : PackState α) (cost : ℤ) : PackState α :=
  if st.curStart.isSome ∧ target < st.curTokens + cost then flushPack doc countTokens spans st
  else st

/-- The body of `for p_start, p_end in pieces`. -/
def packStep (spans : List (Span α)) (st : PackState α) (p : ℕ × ℕ) : PackState α :=
  let cost := countTokens (plain (slice doc p.1 p.2))
  let st := makeRoom doc countTokens target spans st cost
  { chunks := st.chunks
    curStart := some (st.curStart.getD p.1)
    curEnd := p.2
    curTokens := st.curTokens + cost }

def packPieces (spans : List (Span α)) (pieces : List (ℕ × ℕ)) : List (Chunk α) :=
  (flushPack doc countTokens spans
    (pieces.foldl (packStep doc countTokens target spans) ⟨[], none, 0, 0⟩)).chunks

/-- The words of the tail, `words` being those of the previous chunk, last word first. -/
def overlapTail : List (List α) → ℤ → List (List α)
  | [], _ => []
  | word :: words, budget =>
    let cost := countTokens (plain word)
    if overlap < budget + cost then [] else overlapTail words (budget + cost) ++ [word]

/-- What the overlap carries over from `prev` into the next chunk. -/
def carriedWords (prev : Chunk α) : List (List α) :=
  overlapTail countTokens overlap (words space prev.text).reverse 0

/-- The body of the loop in `_apply_text_overlap`. -/
def overlapChunk (prev cur : Chunk α) : Chunk α :=
  let tail := carriedWords countTokens overlap prev
  if tail.isEmpty then cur
  else
    let merged := join (lit " ") tail ++ lit " " ++ cur.text
    { seq := cur.seq
      text := merged
      blockIds := (prev.blockIds.getLast?.toList ++ cur.blockIds).eraseDups
      pageFrom := match prev.pageTo, cur.pageFrom with
        | some p, some c => some (min p c)
        | _, _ => cur.pageFrom
      pageTo := cur.pageTo
      charStart := cur.charStart.map fun start => min (prev.charEnd.getD 0) start
      charEnd := cur.charEnd
      tokenCount := countTokens (plain merged)
      sectionPath := cur.sectionPath
      strategy := "recursive" }

def applyTextOverlap (chunks : List (Chunk α)) : List (Chunk α) :=
  withPrevious (overlapChunk countTokens overlap) chunks

def packedChunks (blocks : List (SourceBlock α)) : List (Chunk α) :=
  let (doc, spans) := flatten (prepare blocks)
  if doc.isEmpty then []
  else packPieces doc countTokens target spans
    (splitRecursive doc countTokens target separators 0 doc.length)

def chunkRecursive (blocks : List (SourceBlock α)) : List (Chunk α) :=
  let chunks := packedChunks countTokens target blocks
  if 0 < overlap then applyTextOverlap countTokens overlap chunks else chunks

theorem cutPieces_of_lt (sep : Separator) {stop cursor : ℕ} (hlt : cursor < stop) :
    cutPieces doc sep stop cursor = ((find (plain doc) sep.text cursor stop).elim [(cursor, stop)]
      fun found => (cursor, found + sep.text.length) ::
        cutPieces doc sep stop (found + sep.text.length)) := by
  rw [cutPieces, if_pos hlt]
  split
  · rename_i hfound
    rw [hfound, Option.elim_none]
  · rename_i found hfound
    rw [hfound, Option.elim_some]

theorem cutPieces_of_le (sep : Separator) {stop cursor : ℕ} (hle : stop ≤ cursor) :
    cutPieces doc sep stop cursor = [] := by
  rw [cutPieces, if_neg (Nat.not_lt_of_le hle)]

theorem cutPieces_adjoining (sep : Separator) {stop cursor : ℕ} (hle : cursor ≤ stop) :
    RangePartitions.Adjoining stop cursor (cutPieces doc sep stop cursor) := by
  induction hn : stop - cursor using Nat.strong_induction_on generalizing cursor with
  | _ n ih =>
    rcases Nat.lt_or_ge cursor stop with hlt | hge
    · rw [cutPieces_of_lt doc sep hlt]
      cases hfound : find (plain doc) sep.text cursor stop with
      | none => exact ⟨rfl, hlt, rfl⟩
      | some found =>
        have hspec := find_spec hfound
        have hpos := sep.length_pos
        refine ⟨rfl, by change cursor < found + sep.text.length; omega, ?_⟩
        exact ih _ (by omega) (by omega) rfl
    · rw [cutPieces_of_le doc sep hge]
      exact Nat.le_antisymm hle hge

theorem splitRecursive_adjoining (seps : List Separator) {start stop : ℕ} (hlt : start < stop) :
    RangePartitions.Adjoining stop start (splitRecursive doc countTokens target seps start stop) := by
  induction seps generalizing start stop with
  | nil => exact ⟨rfl, hlt, rfl⟩
  | cons sep rest ih =>
    unfold splitRecursive
    simp only
    split_ifs with hfit hone
    · exact ⟨rfl, hlt, rfl⟩
    · exact ih hlt
    · exact (cutPieces_adjoining doc sep hlt.le).flatMap fun r hr => ih hr

theorem isCut_of_find {sep : Separator} (hblank : sep.EndsBlank) {start stop found : ℕ}
    (h : find (plain doc) sep.text start stop = some found) :
    IsCut space doc (found + sep.text.length) := by
  obtain ⟨-, -, hslice⟩ := find_spec h
  have heq := (List.dropLast_append_getLast sep.nonempty).symm
  generalize sep.text.dropLast = front at heq
  rw [Separator.EndsBlank] at hblank
  generalize sep.text.getLast sep.nonempty = c at heq hblank
  rw [← isCut_plain]
  have hlast : (plain doc)[found + front.length]? = some c := by
    have hget := congrArg (fun l => l[front.length]?) hslice
    simp only [slice, List.getElem?_drop, heq, List.length_append, List.length_singleton] at hget
    rw [List.getElem?_take, if_pos (by omega)] at hget
    simpa using hget
  rw [heq, List.length_append, List.length_singleton, ← Nat.add_assoc]
  apply isCut_of_space_before
  intro a ha
  rw [hlast, Option.some.injEq] at ha
  exact ha ▸ hblank

theorem cutPieces_chained {sep : Separator} (hblank : sep.EndsBlank) {stop cursor : ℕ} (hle : cursor ≤ stop)
    (hstop : IsCut space doc stop) :
    Chained space doc stop cursor (cutPieces doc sep stop cursor) := by
  induction hn : stop - cursor using Nat.strong_induction_on generalizing cursor with
  | _ n ih =>
    rcases Nat.lt_or_ge cursor stop with hlt | hge
    · rw [cutPieces_of_lt doc sep hlt]
      cases hfound : find (plain doc) sep.text cursor stop with
      | none => exact ⟨rfl, hle, hstop, rfl⟩
      | some found =>
        obtain ⟨h1, h2, -⟩ := find_spec hfound
        have hpos := sep.length_pos
        exact ⟨rfl, by change cursor ≤ found + sep.text.length; omega, isCut_of_find doc hblank hfound,
          ih _ (by omega) (by omega) rfl⟩
    · rw [cutPieces_of_le doc sep hge]
      exact Nat.le_antisymm hle hge

theorem splitRecursive_chained {seps : List Separator}
    (hblank : ∀ sep ∈ seps, sep.EndsBlank) {start stop : ℕ} (hle : start ≤ stop)
    (hstop : IsCut space doc stop) :
    Chained space doc stop start (splitRecursive doc countTokens target seps start stop) := by
  induction seps generalizing start stop with
  | nil => exact ⟨rfl, hle, hstop, rfl⟩
  | cons sep rest ih =>
    unfold splitRecursive
    simp only
    split_ifs with hfit hone
    · exact ⟨rfl, hle, hstop, rfl⟩
    · exact ih (List.forall_mem_cons.mp hblank).2 hle hstop
    · exact (cutPieces_chained doc (hblank sep List.mem_cons_self) hle hstop).flatMap
        fun r hr hcut => ih (List.forall_mem_cons.mp hblank).2 hr hcut

def packedState (spans : List (Span α)) (done : List (List (ℕ × ℕ))) (run : List (ℕ × ℕ)) :
    PackState α where
  chunks := appendRanges doc spans "recursive" countTokens [] (done.map hull)
  curStart := run.head?.map (·.1)
  curEnd := if run.isEmpty then 0 else (hull run).2
  curTokens := (run.map fun p => countTokens (plain (slice doc p.1 p.2))).sum

theorem flushPack_packedState {spans : List (Span α)} {done : List (List (ℕ × ℕ))}
    {run : List (ℕ × ℕ)} (hne : run ≠ []) :
    flushPack doc countTokens spans (packedState doc countTokens spans done run) =
      packedState doc countTokens spans (done ++ [run]) [] := by
  obtain ⟨p, run, rfl⟩ := List.exists_cons_of_ne_nil hne
  simp [flushPack, packedState, appendRanges_concat, hull]

theorem packStep_packedState {spans : List (Span α)} {done : List (List (ℕ × ℕ))}
    {run : List (ℕ × ℕ)} (p : ℕ × ℕ) :
    packStep doc countTokens target spans (packedState doc countTokens spans done run) p =
      if run ≠ [] ∧ target < (run.map fun p => countTokens (plain (slice doc p.1 p.2))).sum +
          countTokens (plain (slice doc p.1 p.2)) then
        packedState doc countTokens spans (done ++ [run]) [p]
      else packedState doc countTokens spans done (run ++ [p]) := by
  have hopen : (packedState doc countTokens spans done run).curStart.isSome ↔ run ≠ [] := by
    cases run <;> simp [packedState]
  have htokens : (packedState doc countTokens spans done run).curTokens =
      (run.map fun p => countTokens (plain (slice doc p.1 p.2))).sum := rfl
  unfold packStep makeRoom
  simp only [hopen, htokens]
  by_cases hfull : run ≠ [] ∧ target < (run.map fun p => countTokens (plain (slice doc p.1 p.2))).sum +
      countTokens (plain (slice doc p.1 p.2))
  · rw [if_pos hfull, if_pos hfull, flushPack_packedState doc countTokens hfull.1]
    simp [packedState, hull]
  · rw [if_neg hfull, if_neg hfull]
    have hlast : (run ++ [p]).getLast? = some p := List.getLast?_concat
    cases run with
    | nil => simp [packedState, hull]
    | cons t run =>
      rw [List.cons_append] at hlast
      simp [packedState, hull, hlast, Int.add_assoc]

theorem foldl_packStep_packedState {spans : List (Span α)} (pieces : List (ℕ × ℕ))
    (done : List (List (ℕ × ℕ))) (run : List (ℕ × ℕ)) :
    (flushPack doc countTokens spans (pieces.foldl (packStep doc countTokens target spans)
        (packedState doc countTokens spans done run))).chunks =
      appendRanges doc spans "recursive" countTokens []
        ((done ++ NextFit.runsFrom (fun p => countTokens (plain (slice doc p.1 p.2))) target run
          pieces).map hull) := by
  induction pieces generalizing done run with
  | nil =>
    rw [List.foldl_nil, NextFit.runsFrom]
    split_ifs with hempty
    · rw [List.isEmpty_iff.mp hempty, List.append_nil]
      rfl
    · rw [flushPack_packedState doc countTokens (by simpa using hempty)]
      rfl
  | cons p pieces ih =>
    rw [List.foldl_cons, packStep_packedState, NextFit.runsFrom]
    split_ifs
    · rw [ih, List.append_assoc, List.singleton_append]
    · exact ih done (run ++ [p])

def packedRuns (pieces : List (ℕ × ℕ)) : List (List (ℕ × ℕ)) :=
  NextFit.runs (fun p => countTokens (plain (slice doc p.1 p.2))) target pieces

/-- Packing is next-fit on the pieces. -/
theorem packPieces_eq (spans : List (Span α)) (pieces : List (ℕ × ℕ)) :
    packPieces doc countTokens target spans pieces =
      appendRanges doc spans "recursive" countTokens []
        ((packedRuns doc countTokens target pieces).map hull) :=
  foldl_packStep_packedState doc countTokens target pieces [] []

theorem packedRuns_chained {pieces : List (ℕ × ℕ)}
    (hp : Chained space doc doc.length 0 pieces) :
    Chained space doc doc.length 0 ((packedRuns doc countTokens target pieces).map hull) := by
  apply Chained.hulls
  · exact NextFit.runsFrom_ne_nil _ target
  · rwa [packedRuns, NextFit.runs_flatten]

theorem split_chained : Chained space doc doc.length 0
    (splitRecursive doc countTokens target separators 0 doc.length) :=
  splitRecursive_chained doc countTokens target separators_endBlank (Nat.zero_le _)
    (isCut_of_length_le (le_refl _))

theorem packedChunks_tiles (blocks : List (SourceBlock α)) :
    ∃ rs, Tiles space (flatten (prepare blocks)).1 0 rs ∧
      packedChunks countTokens target blocks =
        appendRanges (flatten (prepare blocks)).1 (flatten (prepare blocks)).2 "recursive"
          countTokens [] rs := by
  unfold packedChunks
  simp only
  split_ifs with hdoc
  · exact ⟨[], by simp [Tiles, List.isEmpty_iff.mp hdoc], rfl⟩
  · have hchain := packedRuns_chained _ countTokens target
      (split_chained (flatten (prepare blocks)).1 countTokens target)
    exact ⟨_, hchain.tiles, packPieces_eq _ countTokens target _ _⟩

theorem overlapTail_suffix (words : List (List α)) (budget : ℤ) :
    overlapTail countTokens overlap words budget <:+ words.reverse := by
  induction words generalizing budget with
  | nil => exact List.suffix_refl _
  | cons word words ih =>
    unfold overlapTail
    simp only [List.reverse_cons]
    split_ifs
    · exact List.nil_suffix
    · obtain ⟨front, hfront⟩ := ih (budget + countTokens (plain word))
      exact ⟨front, by rw [← List.append_assoc, hfront]⟩

theorem carriedWords_suffix (prev : Chunk α) :
    carriedWords countTokens overlap prev <:+ words space prev.text := by
  have h := overlapTail_suffix countTokens overlap (words space prev.text).reverse 0
  rwa [List.reverse_reverse] at h

theorem blank_space : ∀ a ∈ (lit " " : List α), space a = true := by
  simp [lit, space, Glyph.char_lit]
  decide

theorem words_overlapChunk (prev cur : Chunk α) :
    words space (overlapChunk countTokens overlap prev cur).text =
      carriedWords countTokens overlap prev ++ words space cur.text := by
  have hne : (lit " " : List α) ≠ [] := by simp [lit]
  have hsolid : ∀ tail : List (List α), tail ⊆ words space prev.text →
      tail.flatMap (words space) = tail := by
    intro tail htail
    induction tail with
    | nil => rfl
    | cons w tail ih =>
      obtain ⟨h1, h2, -⟩ := of_mem_words (htail (List.mem_cons_self))
      rw [List.flatMap_cons, words_of_solid h1 h2,
        ih fun v hv => htail (List.mem_cons_of_mem w hv), List.singleton_append]
  unfold overlapChunk
  simp only
  split_ifs with hnil
  · simp [List.isEmpty_iff.mp hnil]
  · simp only
    rw [words_append_apart hne blank_space, words_join hne blank_space,
      hsolid _ (carriedWords_suffix countTokens overlap prev).subset]

theorem mem_blockIds_overlapChunk {prev cur : Chunk α} {id : String} :
    id ∈ (overlapChunk countTokens overlap prev cur).blockIds ↔
      (carriedWords countTokens overlap prev ≠ [] ∧ prev.blockIds.getLast? = some id) ∨
        id ∈ cur.blockIds := by
  unfold overlapChunk
  simp only
  split_ifs with hnil
  · simp [List.isEmpty_iff.mp hnil]
  · have htail : carriedWords countTokens overlap prev ≠ [] := by simpa using hnil
    simp [htail, List.mem_eraseDups]

theorem overlapChunk_range (cur : Chunk α) {prev : Chunk α} (h : carriedWords countTokens overlap prev ≠ []) :
    (overlapChunk countTokens overlap prev cur).charStart =
        cur.charStart.map (fun start => min (prev.charEnd.getD 0) start) ∧
      (overlapChunk countTokens overlap prev cur).charEnd = cur.charEnd := by
  unfold overlapChunk
  simp only
  rw [if_neg (by simpa using h)]
  exact ⟨rfl, rfl⟩

end
end Ragent.RecursiveChunks
