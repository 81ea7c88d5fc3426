import Mathlib.Algebra.Order.BigOperators.Group.List
import Ragent.FixedChunks
import Ragent.SemanticChunks

set_option autoImplicit false

/-!
# The windows of the fixed strategy

`chunk_fixed` with the one operation that can raise, the division in `_fit_window`. A counter that
is never negative keeps it from raising; its windows then tile the words and fit the budget.
-/
namespace Ragent.FixedWindows
open SpacedWords PyText PyNumbers SourceTypes FlattenedDocument RangeChunks FixedChunks
open SemanticChunks (PyException)

section
variable {α : Type} [Glyph α] (F : Type) [PyFloat F]
variable (doc : List α) (countTokens : TokenCounter) (target overlap : ℤ)

/-- `while j > i + 1`, where `span * target / actual` raises if `actual` is 0. -/
def shrinkRun (i j : ℕ) : Except PyException ℕ :=
  if _h : i + 1 < j then
    let actual := windowTokens doc countTokens i j
    if actual ≤ target then .ok j
    else if actual = 0 then .error .zeroDivisionError
    else shrinkRun i (i + scaleBack F target (j - i) actual)
  else .ok j
termination_by j
decreasing_by
  have hback := (scaleBack_bounds F target (windowTokens doc countTokens i j)
    (show 1 < j - i by omega)).2
  omega

/-- `_fit_window` -/
def fitRun (i : ℕ) : Except PyException ℕ :=
  let j := growWindow target ((wordCosts doc countTokens).drop i) 0 i
  if j = i then .ok (i + 1) else shrinkRun F doc countTokens target i j

theorem shrinkRun_ok {i j k : ℕ} (h : shrinkRun F doc countTokens target i j = .ok k) :
    k = shrinkWindow F doc countTokens target i j := by
  fun_induction shrinkRun F doc countTokens target i j with
  | case1 j hlt actual hfit =>
    rw [shrinkWindow, dif_pos hlt, if_pos hfit]
    exact (Except.ok.inj h).symm
  | case2 => cases h
  | case3 j hlt actual hfit _ ih =>
    rw [shrinkWindow, dif_pos hlt, if_neg hfit]
    exact ih h
  | case4 j hlt =>
    rw [shrinkWindow, dif_neg hlt]
    exact (Except.ok.inj h).symm

theorem fitRun_ok {i j : ℕ} (h : fitRun F doc countTokens target i = .ok j) :
    j = fitWindow F doc countTokens target i := by
  unfold fitRun at h
  unfold fitWindow
  simp only at h ⊢
  split_ifs at h ⊢ with hj
  · exact (Except.ok.inj h).symm
  · exact shrinkRun_ok F doc countTokens target h

/-- `while i < len(words)` -/
def fixedRun (docSpans : List (Span α)) (i : ℕ) (chunks : List (Chunk α)) :
    Except PyException (List (Chunk α)) :=
  if _h : i < (spans space doc).length then
    match _hj : fitRun F doc countTokens target i with
    | .error e => .error e
    | .ok j =>
      let chunks := appendRange doc docSpans "fixed" countTokens chunks (windowRange doc i j)
      if (spans space doc).length ≤ j then .ok chunks
      else fixedRun docSpans (resumeAt doc countTokens overlap i j) chunks
  else .ok chunks
termination_by (spans space doc).length - i
decreasing_by
  have hfit := fitRun_ok F doc countTokens target _hj
  have hj := (fitWindow_bounds F doc countTokens target _h).1
  have hk := (resumeAt_bounds doc countTokens overlap (hfit ▸ hj)).1
  omega

/-- `chunk_fixed` -/
def chunkFixedRun (blocks : List (SourceBlock α)) : Except PyException (List (Chunk α)) :=
  let (doc, docSpans) := flatten (prepare blocks)
  if doc.isEmpty then .ok []
  else if (spans space doc).isEmpty then .ok []
  else fixedRun F doc countTokens target overlap docSpans 0 []

theorem wordCosts_nonneg (hcount : ∀ text, 0 ≤ countTokens text) :
    ∀ cost ∈ wordCosts doc countTokens, 0 ≤ cost := by
  intro cost hcost
  obtain ⟨w, -, rfl⟩ := List.mem_map.mp hcost
  exact hcount _

theorem growWindow_of_neg {costs : List ℤ} (hcosts : ∀ cost ∈ costs, 0 ≤ cost)
    (htarget : target < 0) (j : ℕ) : growWindow target costs 0 j = j := by
  cases costs with
  | nil => rfl
  | cons cost costs =>
    have hcost := hcosts cost List.mem_cons_self
    rw [growWindow, if_neg (by omega)]

theorem shrinkRun_eq (htarget : 0 ≤ target) (i j : ℕ) :
    shrinkRun F doc countTokens target i j = .ok (shrinkWindow F doc countTokens target i j) := by
  fun_induction shrinkRun F doc countTokens target i j with
  | case1 j hlt actual hfit => rw [shrinkWindow, dif_pos hlt, if_pos hfit]
  | case2 j hlt actual hfit hzero => omega
  | case3 j hlt actual hfit _ ih =>
    rw [shrinkWindow, dif_pos hlt, if_neg hfit]
    exact ih
  | case4 j hlt => rw [shrinkWindow, dif_neg hlt]

theorem fitRun_eq (hcount : ∀ text, 0 ≤ countTokens text) (i : ℕ) :
    fitRun F doc countTokens target i = .ok (fitWindow F doc countTokens target i) := by
  unfold fitRun fitWindow
  simp only
  split_ifs with hj
  · rfl
  · have htarget : 0 ≤ target := by
      by_contra hneg
      apply hj
      apply growWindow_of_neg target _ (not_le.mp hneg)
      exact fun cost hcost => wordCosts_nonneg doc countTokens hcount cost (List.mem_of_mem_drop hcost)
    exact shrinkRun_eq F doc countTokens target htarget i _

theorem fixedRun_step (hcount : ∀ text, 0 ≤ countTokens text) (docSpans : List (Span α)) {i : ℕ}
    (chunks : List (Chunk α)) (hi : i < (spans space doc).length) :
    fixedRun F doc countTokens target overlap docSpans i chunks =
      let j := fitWindow F doc countTokens target i
      let chunks := appendRange doc docSpans "fixed" countTokens chunks (windowRange doc i j)
      if (spans space doc).length ≤ j then .ok chunks
      else fixedRun F doc countTokens target overlap docSpans
        (resumeAt doc countTokens overlap i j) chunks := by
  have hfit := fitRun_eq F doc countTokens target hcount i
  rw [fixedRun, dif_pos hi]
  split
  · rename_i e he
    rw [hfit] at he
    cases he
  · rename_i j hj
    rw [hfit] at hj
    cases hj
    rfl

theorem fixedRun_eq (hcount : ∀ text, 0 ≤ countTokens text) (docSpans : List (Span α)) (i : ℕ)
    (chunks : List (Chunk α)) :
    fixedRun F doc countTokens target overlap docSpans i chunks =
      .ok (fixedLoop F doc countTokens target overlap docSpans i chunks) := by
  fun_induction fixedLoop F doc countTokens target overlap docSpans i chunks with
  | case1 i chunks hi j chunks' hlast =>
    rw [fixedRun_step F doc countTokens target overlap hcount docSpans chunks hi]
    exact if_pos hlast
  | case2 i chunks hi j chunks' hlast ih =>
    rw [fixedRun_step F doc countTokens target overlap hcount docSpans chunks hi, ← ih]
    exact if_neg hlast
  | case3 i chunks hi => rw [fixedRun, dif_neg hi]

theorem chunkFixedRun_eq (hcount : ∀ text, 0 ≤ countTokens text) (blocks : List (SourceBlock α)) :
    chunkFixedRun F countTokens target overlap blocks =
      .ok (chunkFixed F countTokens target overlap blocks) := by
  unfold chunkFixedRun chunkFixed
  simp only
  split_ifs
  · rfl
  · rfl
  · exact fixedRun_eq F _ countTokens target overlap hcount _ 0 []

theorem shrinkWindow_fits (i j : ℕ) :
    shrinkWindow F doc countTokens target i j ≤ i + 1 ∨
      windowTokens doc countTokens i (shrinkWindow F doc countTokens target i j) ≤ target := by
  fun_induction shrinkWindow F doc countTokens target i j with
  | case1 j hlt hfit => exact Or.inr hfit
  | case2 j hlt hfit ih => exact ih
  | case3 j hlt => exact Or.inl (Nat.le_of_not_lt hlt)

theorem fitWindow_fits {i : ℕ} (hi : i < (spans space doc).length) :
    fitWindow F doc countTokens target i = i + 1 ∨
      windowTokens doc countTokens i (fitWindow F doc countTokens target i) ≤ target := by
  have hlt := (fitWindow_bounds F doc countTokens target hi).1
  unfold fitWindow at hlt ⊢
  simp only at hlt ⊢
  split_ifs at hlt ⊢ with hj
  · exact Or.inl rfl
  · apply (shrinkWindow_fits F doc countTokens target i _).imp_left
    intro hle
    omega

theorem slice_succ_sum (costs : List ℤ) {s e : ℕ} (h : s ≤ e) :
    (slice costs s (e + 1)).sum = (slice costs s e).sum + costs.getD e 0 := by
  rcases Nat.lt_or_ge e costs.length with hlt | hge
  · rw [← slice_append_slice costs h (Nat.le_succ e), List.sum_append]
    have hone : slice costs e (e + 1) = [costs[e]] := by
      rw [slice, List.take_succ_eq_append_getElem hlt, List.drop_left' (by simp; omega)]
    simp [hone, List.getD_eq_getElem?_getD, hlt]
  · rw [slice_of_le costs hge, slice_of_le costs (hge.trans (Nat.le_succ e))]
    simp [List.getD_eq_getElem?_getD, hge]

/-- What is walked back over costs no more than the overlap. -/
theorem walkBack_cost (i k : ℕ) (back : ℤ) :
    back + (slice (wordCosts doc countTokens) (walkBack doc countTokens overlap i k back) k).sum ≤
      max back overlap := by
  induction k generalizing back with
  | zero => simp [walkBack, slice]
  | succ k ih =>
    rw [walkBack]
    split_ifs with hstep
    · have hback := ih (back + (wordCosts doc countTokens).getD k 0)
      have hle := walkBack_le doc countTokens overlap i k
        (back + (wordCosts doc countTokens).getD k 0)
      rw [slice_succ_sum _ hle]
      omega
    · simp [slice_self]

theorem resumeAt_cost (i j : ℕ) :
    (slice (wordCosts doc countTokens) (resumeAt doc countTokens overlap i j) j).sum ≤
      max 0 overlap := by
  rw [resumeAt]
  split_ifs
  · have hback := walkBack_cost doc countTokens overlap i j 0
    omega
  · simp [slice_self]

/-- Windows over the words of these costs: from the first word to the last one, no word left out,
    each starting behind the start of the one before it and sharing no more than the overlap. -/
structure SlidingWindows (costs : List ℤ) (ws : List (ℕ × ℕ)) : Prop where
  nonempty : costs ≠ [] → ws ≠ []
  start : ∀ w ∈ ws.head?, w.1 = 0
  inside : ∀ w ∈ ws, w.1 < w.2 ∧ w.2 ≤ costs.length
  advance : ws.IsChain fun w w' => w.1 < w'.1 ∧ w'.1 ≤ w.2
  shared : ws.IsChain fun w w' =>
    (slice costs (max w.1 w'.1) (min w.2 w'.2)).sum ≤ max 0 overlap
  stop : ∀ w ∈ ws.getLast?, w.2 = costs.length

structure IsWindowChunk (w : ℕ × ℕ) (c : Chunk α) : Prop where
  text : c.text = slice doc (windowRange doc w.1 w.2).1 (windowRange doc w.1 w.2).2
  tokens : c.tokenCount = countTokens (plain c.text)
  budget : c.tokenCount ≤ target ∨ w.2 = w.1 + 1

theorem fixedWindows_head (i : ℕ) :
    ∀ w ∈ (fixedWindows F doc countTokens target overlap i).head?, w.1 = i := by
  rw [fixedWindows]
  split_ifs <;> simp

theorem fixedWindows_ne_nil {i : ℕ} (hi : i < (spans space doc).length) :
    fixedWindows F doc countTokens target overlap i ≠ [] := by
  rw [fixedWindows, dif_pos hi]
  exact List.cons_ne_nil _ _

/-- The loop resumes where the walk back allows, until a window ends at the last word. -/
theorem fixedWindows_chain (i : ℕ) :
    (fixedWindows F doc countTokens target overlap i).IsChain (fun w w' =>
        w.1 < w.2 ∧ w'.1 = resumeAt doc countTokens overlap w.1 w.2) ∧
      ∀ w ∈ (fixedWindows F doc countTokens target overlap i).getLast?,
        w.2 = (spans space doc).length := by
  fun_induction fixedWindows F doc countTokens target overlap i with
  | case1 i hi j ih =>
    have hlt : i < j := (fitWindow_bounds F doc countTokens target hi).1
    have hle : j ≤ (spans space doc).length := (fitWindow_bounds F doc countTokens target hi).2
    split_ifs with hlast
    · refine ⟨List.isChain_singleton _, ?_⟩
      have hj : j = (spans space doc).length := Nat.le_antisymm hle hlast
      simp [hj]
    · have hk := resumeAt_bounds doc countTokens overlap hlt
      have hne := fixedWindows_ne_nil F doc countTokens target overlap
        (show resumeAt doc countTokens overlap i j < (spans space doc).length by omega)
      refine ⟨List.isChain_cons.mpr ⟨fun w hw => ⟨hlt, ?_⟩, ih.1⟩, ?_⟩
      · exact fixedWindows_head F doc countTokens target overlap _ w hw
      · rw [List.getLast?_cons_of_ne_nil hne]
        exact ih.2
  | case2 i hi => exact ⟨List.isChain_nil, by simp⟩

theorem fixedWindows_sliding (hcount : ∀ text, 0 ≤ countTokens text) :
    SlidingWindows overlap (wordCosts doc countTokens)
      (fixedWindows F doc countTokens target overlap 0) := by
  have hlen : (wordCosts doc countTokens).length = (spans space doc).length := by simp [wordCosts]
  obtain ⟨hchain, hlast⟩ := fixedWindows_chain F doc countTokens target overlap 0
  have hbounds := (fixedWindows_windows F doc countTokens target overlap (fun _ _ => True)
    (fun _ => trivial) (fun _ _ _ _ => trivial) 0).bounds
  refine ⟨?_, fixedWindows_head F doc countTokens target overlap 0, hlen ▸ hbounds, ?_, ?_,
    hlen ▸ hlast⟩
  · intro hne
    apply fixedWindows_ne_nil
    have hpos := List.length_pos_iff.mpr hne
    omega
  · refine hchain.imp fun w w' h => ?_
    rw [h.2]
    exact resumeAt_bounds doc countTokens overlap h.1
  · refine hchain.imp fun w w' h => ?_
    have hk := resumeAt_bounds doc countTokens overlap h.1
    rw [h.2, max_eq_right hk.1.le]
    apply le_trans _ (resumeAt_cost doc countTokens overlap w.1 w.2)
    -- fewer words are shared where the second window ends first
    have hsub : (slice (wordCosts doc countTokens) (resumeAt doc countTokens overlap w.1 w.2)
        (min w.2 w'.2)).Sublist (slice (wordCosts doc countTokens)
          (resumeAt doc countTokens overlap w.1 w.2) w.2) :=
      (slice_isInfix_slice _ (le_refl _) (min_le_left _ _)).sublist
    apply hsub.sum_le_sum
    intro cost hcost
    exact wordCosts_nonneg doc countTokens hcount cost ((slice_isInfix _ _ _).subset hcost)

theorem fixedWindows_fit (i : ℕ) : ∀ w ∈ fixedWindows F doc countTokens target overlap i,
    w.2 = w.1 + 1 ∨ windowTokens doc countTokens w.1 w.2 ≤ target := by
  fun_induction fixedWindows F doc countTokens target overlap i with
  | case1 i hi j ih =>
    intro w hw
    rcases List.mem_cons.mp hw with rfl | hw
    · exact fitWindow_fits F doc countTokens target hi
    · split_ifs at hw
      · simp at hw
      · exact ih w hw
  | case2 i hi => simp

/-- `chunk_fixed` returns without dividing by zero; its windows slide over the words, and each of
    its chunks is one window and fits the target unless the window is a single word. -/
theorem fixed_windows_tile_and_fit (blocks : List (SourceBlock Char)) (target overlap : ℤ)
    {countTokens : TokenCounter} (hcount : ∀ text, 0 ≤ countTokens text) :
    chunkFixedRun ℚ countTokens target overlap blocks =
        .ok (chunkFixed ℚ countTokens target overlap blocks) ∧
      SlidingWindows overlap (wordCosts (flatten (prepare blocks)).1 countTokens)
        (fixedWindows ℚ (flatten (prepare blocks)).1 countTokens target overlap 0) ∧
      List.Forall₂ (IsWindowChunk (flatten (prepare blocks)).1 countTokens target)
        (fixedWindows ℚ (flatten (prepare blocks)).1 countTokens target overlap 0)
        (chunkFixed ℚ countTokens target overlap blocks) := by
  refine ⟨chunkFixedRun_eq ℚ countTokens target overlap hcount blocks,
    fixedWindows_sliding ℚ _ countTokens target overlap hcount, ?_⟩
  rw [chunkFixed_eq, appendRanges_eq "fixed" countTokens (flatten_flattened _), List.nil_append]
  generalize hdoc : (flatten (prepare blocks)).1 = doc
  have hbounds := (fixedWindows_windows ℚ doc countTokens target overlap (fun _ _ => True)
    (fun _ => trivial) (fun _ _ _ _ => trivial) 0).bounds
  have hfit := fixedWindows_fit ℚ doc countTokens target overlap 0
  generalize fixedWindows ℚ doc countTokens target overlap 0 = ws at hbounds hfit ⊢
  -- no window is blank
  have hkept : (ws.map (mergeWindow (spans space doc))).filter (notBlank doc) =
      ws.map (mergeWindow (spans space doc)) := by
    rw [List.filter_eq_self]
    intro r hr
    obtain ⟨w, hw, rfl⟩ := List.mem_map.mp hr
    obtain ⟨hne, htrim⟩ := trim_window (q := space) doc (hbounds w hw).1 (hbounds w hw).2
    rw [notBlank_iff]
    intro h0
    exact hne (htrim ▸ trim_eq_nil_iff.mpr h0)
  rw [hkept, List.forall₂_iff_get]
  refine ⟨by simp, fun i hi hi' => ?_⟩
  have hw : ws[i] ∈ ws := List.getElem_mem hi
  obtain ⟨-, htrim⟩ := trim_window (q := space) doc (hbounds _ hw).1 (hbounds _ hw).2
  simp only [List.get_eq_getElem, List.getElem_mapIdx, List.getElem_map]
  refine ⟨htrim, rfl, ?_⟩
  refine (hfit _ hw).symm.imp_left fun h => ?_
  change countTokens (plain (strip _)) ≤ target
  rw [strip, htrim]
  exact h

theorem two_paragraphs_windowed :
    SlidingWindows 1 (wordCosts (flatten (prepare
        [SourceBlock.paragraph "a" 0 "one two" 0, SourceBlock.paragraph "b" 1 "three" 9])).1 wordCount)
      (fixedWindows ℚ (flatten (prepare
        [SourceBlock.paragraph "a" 0 "one two" 0, SourceBlock.paragraph "b" 1 "three" 9])).1
        wordCount 2 1 0) :=
  (fixed_windows_tile_and_fit [SourceBlock.paragraph "a" 0 "one two" 0,
    SourceBlock.paragraph "b" 1 "three" 9] 2 1 fun _ => Int.natCast_nonneg _).2.1

end
end Ragent.FixedWindows
