import Mathlib.Data.Rat.Floor
import Ragent.OrderStatistics
import Ragent.SemanticChunks

set_option autoImplicit false

/-!
# Topic cuts

In exact arithmetic the percentile of the similarities bounds the cuts that `chunk_semantic` makes
where the token budget leaves room.
-/
namespace Ragent.TopicCuts
open SpacedWords PyText PyNumbers SourceTypes FlattenedDocument RangeChunks SemanticChunks
  OrderStatistics

/-- `v` lies between the two order statistics around position `q * (n - 1)`, or is the only one. -/
def BetweenNeighbours (sorted : List ℚ) (q v : ℚ) : Prop :=
  sorted = [v] ∨ ∃ (i : ℕ) (a b : ℚ),
    (i : ℤ) = min ⌊((sorted.length : ℚ) - 1) * q⌋ ((sorted.length : ℤ) - 2) ∧
      sorted[i]? = some a ∧ sorted[i + 1]? = some b ∧ a ≤ v ∧ v ≤ b

structure IsPercentile (values : List ℚ) (q v : ℚ) : Prop where
  between : BetweenNeighbours (values.insertionSort (· ≤ ·)) q v
  below : (below v values : ℤ) ≤ ⌈q * ((values.length : ℚ) - 1)⌉
  level : (∀ x ∈ values, ∀ y ∈ values, x = y) → OrderStatistics.below v values = 0

theorem insertionSort_congr {β : Type} {r r' : β → β → Prop} [DecidableRel r] [DecidableRel r']
    (h : ∀ a b, r a b ↔ r' a b) (l : List β) : l.insertionSort r = l.insertionSort r' := by
  have heq : r = r' := by
    funext a b
    exact propext (h a b)
  subst heq
  congr

theorem index_eq {β : Type} {xs : List β} {i : ℕ} (hi : i < xs.length) :
    index xs (i : ℤ) = .ok xs[i] := by
  simp [index, hi]

theorem trunc_eq_floor {x : ℚ} (hx : 0 ≤ x) : PyFloat.trunc x = ⌊x⌋ := by
  change x.num.tdiv x.den = ⌊x⌋
  rw [Rat.floor_def', Int.tdiv_eq_ediv_of_nonneg (Rat.num_nonneg.mpr hx)]

theorem percentile_two {values : List ℚ} (q : ℚ) {sorted : List ℚ}
    (hsorted : values.insertionSort (· ≤ ·) = sorted) (hlen : 2 ≤ sorted.length) :
    percentile values q = (do
      let last := (sorted.length : ℤ) - 1
      let pos := (last : ℚ) * q
      let lower ← index sorted (PyFloat.trunc pos)
      let upper ← index sorted (min (PyFloat.trunc pos + 1) last)
      return lower + (upper - lower) * (pos - (PyFloat.trunc pos : ℤ))) := by
  have hsort : (values.insertionSort fun a b => PyFloat.lt b a = false) = sorted := by
    rw [← hsorted]
    apply insertionSort_congr
    intro a b
    change decide (b < a) = false ↔ a ≤ b
    simp
  unfold percentile
  rw [hsort]
  match sorted, hlen with
  | x :: y :: rest, _ => rfl

theorem percentile_one (q x : ℚ) : percentile [x] q = .ok x ∧ IsPercentile [x] q x := by
  refine ⟨rfl, Or.inl rfl, ?_, ?_⟩
  · simp [OrderStatistics.below]
  · simp [OrderStatistics.below]

theorem isPercentile_of_interpolated {values sorted : List ℚ} {q : ℚ}
    (hsorted : values.insertionSort (· ≤ ·) = sorted) {lo hi : ℕ}
    (hpos : ⌊((sorted.length : ℚ) - 1) * q⌋ = (lo : ℤ)) (hlo : lo < sorted.length)
    (hhi : hi < sorted.length) (hnext : hi = lo + 1 ∨ hi = lo ∧ lo + 1 = sorted.length)
    (htwo : 2 ≤ sorted.length) :
    IsPercentile values q
      (sorted[lo] + (sorted[hi] - sorted[lo]) * (((sorted.length : ℚ) - 1) * q - lo)) := by
  have hperm : sorted.Perm values := hsorted ▸ List.perm_insertionSort _ _
  have hpair : sorted.Pairwise (· ≤ ·) := hsorted ▸ List.pairwise_insertionSort _ _
  obtain ⟨hlower, hupper, hbelow⟩ :=
    interpolated_orderStatistic hpair hpos hlo hhi (by omega) (by omega)
  generalize sorted[lo] + (sorted[hi] - sorted[lo]) * (((sorted.length : ℚ) - 1) * q - lo) = v
    at hlower hupper hbelow ⊢
  refine ⟨?_, ?_, ?_⟩
  · rw [hsorted]
    apply Or.inr
    rcases hnext with rfl | ⟨rfl, hlast⟩
    · have hi : (lo : ℤ) = min ⌊((sorted.length : ℚ) - 1) * q⌋ ((sorted.length : ℤ) - 2) := by
        omega
      exact ⟨lo, _, _, hi, List.getElem?_eq_getElem hlo, List.getElem?_eq_getElem hhi, hlower,
        hupper⟩
    · -- the last one: the value is that order statistic itself
      obtain ⟨k, rfl⟩ : ∃ k, hi = k + 1 := ⟨hi - 1, by omega⟩
      have hk : k < sorted.length := by omega
      have hle : sorted[k] ≤ sorted[k + 1] :=
        List.pairwise_iff_getElem.mp hpair k (k + 1) hk hhi (Nat.lt_succ_self k)
      have hi : (k : ℤ) = min ⌊((sorted.length : ℚ) - 1) * q⌋ ((sorted.length : ℤ) - 2) := by
        omega
      exact ⟨k, _, _, hi, List.getElem?_eq_getElem hk, List.getElem?_eq_getElem hhi,
        hle.trans hlower, hupper⟩
  · rwa [← below_perm hperm, ← hperm.length_eq, mul_comm q]
  · intro hlevel
    apply below_eq_zero
    intro x hx
    rwa [hlevel x hx sorted[hi] (hperm.subset (List.getElem_mem hhi))]

theorem percentile_ok {values : List ℚ} (hne : values ≠ []) {q : ℚ} (h0 : 0 ≤ q) (h1 : q ≤ 1) :
    ∃ v, percentile values q = .ok v ∧ IsPercentile values q v := by
  generalize hsorted : values.insertionSort (· ≤ ·) = sorted
  have hlen : sorted.length = values.length := by rw [← hsorted, List.length_insertionSort]
  have hvalues := List.length_pos_iff.mpr hne
  by_cases htwo : 2 ≤ sorted.length
  · have hlast : (0 : ℚ) ≤ (sorted.length : ℚ) - 1 := by
      have hcast : (2 : ℚ) ≤ sorted.length := by exact_mod_cast htwo
      linarith
    have hnonneg : 0 ≤ ((sorted.length : ℚ) - 1) * q := mul_nonneg hlast h0
    have hmost : ((sorted.length : ℚ) - 1) * q ≤ (sorted.length : ℚ) - 1 :=
      mul_le_of_le_one_right hlast h1
    obtain ⟨lo, hlo⟩ := Int.eq_ofNat_of_zero_le (Int.floor_nonneg.mpr hnonneg)
    have hlt : (lo : ℤ) ≤ (sorted.length : ℤ) - 1 := by
      rw [← hlo]
      have hfloor := (Int.floor_le (((sorted.length : ℚ) - 1) * q)).trans hmost
      exact_mod_cast hfloor
    have hcast : (((sorted.length : ℤ) - 1 : ℤ) : ℚ) = (sorted.length : ℚ) - 1 := by push_cast; rfl
    have hhi : min ((lo : ℤ) + 1) ((sorted.length : ℤ) - 1) =
        ((min (lo + 1) (sorted.length - 1) : ℕ) : ℤ) := by omega
    refine ⟨_, ?_, isPercentile_of_interpolated hsorted hlo
      (show lo < sorted.length by omega)
      (show min (lo + 1) (sorted.length - 1) < sorted.length by omega) (by omega) htwo⟩
    rw [percentile_two q hsorted htwo]
    simp only [hcast, trunc_eq_floor hnonneg, hlo, hhi]
    rw [index_eq (by omega), index_eq (by omega)]
    rfl
  · match values, hne with
    | [x], _ => exact ⟨x, percentile_one q x⟩
    | x :: y :: rest, _ =>
      simp only [List.length_cons] at hlen
      omega

section
variable {α F : Type} [Glyph α] [PyFloat F]
variable (doc : List α) (spans : List (Span α)) (countTokens : TokenCounter) (target : ℤ)
variable (bounds : List (ℕ × ℕ))

/-- `running + next_cost > target_tokens` -/
def Forced (st : CutState α) (i : ℕ) : Prop :=
  target < st.running + sentenceCost doc countTokens bounds (i + 1)

instance (st : CutState α) (i : ℕ) : Decidable (Forced doc countTokens target bounds st i) :=
  inferInstanceAs (Decidable (_ < _))

def forcedCuts (cutBelow : F) : CutState α → List (F × ℕ) → List ℕ
  | _, [] => []
  | st, gap :: gaps =>
    let later := forcedCuts cutBelow
      (cutStep doc spans countTokens target bounds cutBelow st gap) gaps
    if Forced doc countTokens target bounds st gap.2 then gap.2 :: later else later

/-- The gaps behind which the loop cuts although the budget leaves room. -/
def freeCuts (cutBelow : F) : CutState α → List (F × ℕ) → List ℕ
  | _, [] => []
  | st, gap :: gaps =>
    let later := freeCuts cutBelow
      (cutStep doc spans countTokens target bounds cutBelow st gap) gaps
    if PyFloat.lt gap.1 cutBelow = true ∧ ¬ Forced doc countTokens target bounds st gap.2 then
      gap.2 :: later
    else later

def cutInit : CutState α := ⟨[], 0, sentenceCost doc countTokens bounds 0⟩

theorem cutStep_eq (cutBelow : F) (st : CutState α) (gap : F × ℕ) :
    cutStep doc spans countTokens target bounds cutBelow st gap =
      if PyFloat.lt gap.1 cutBelow = true ∨ Forced doc countTokens target bounds st gap.2 then
        ⟨appendRange doc spans "semantic" countTokens st.chunks
            (mergeWindow bounds (st.startIdx, gap.2 + 1)), gap.2 + 1,
          sentenceCost doc countTokens bounds (gap.2 + 1)⟩
      else
        ⟨st.chunks, st.startIdx, st.running + sentenceCost doc countTokens bounds (gap.2 + 1)⟩ := by
  simp only [cutStep, Forced, Bool.or_eq_true, decide_eq_true_eq]
  congr

theorem appendRange_length_le (chunks : List (Chunk α)) (r : ℕ × ℕ) (strategy : String) :
    (appendRange doc spans strategy countTokens chunks r).length ≤ chunks.length + 1 := by
  unfold appendRange
  split <;> simp

theorem foldl_cutStep_length (cutBelow : F) (gaps : List (F × ℕ)) (st : CutState α) :
    (gaps.foldl (cutStep doc spans countTokens target bounds cutBelow) st).chunks.length ≤
      st.chunks.length + (freeCuts doc spans countTokens target bounds cutBelow st gaps).length +
        (forcedCuts doc spans countTokens target bounds cutBelow st gaps).length := by
  induction gaps generalizing st with
  | nil => simp [freeCuts, forcedCuts]
  | cons gap gaps ih =>
    have hrest := ih (cutStep doc spans countTokens target bounds cutBelow st gap)
    rw [List.foldl_cons, freeCuts, forcedCuts]
    have hstep : (cutStep doc spans countTokens target bounds cutBelow st gap).chunks.length ≤
        st.chunks.length +
          if PyFloat.lt gap.1 cutBelow = true ∨ Forced doc countTokens target bounds st gap.2 then 1
          else 0 := by
      rw [cutStep_eq]
      split_ifs
      · exact appendRange_length_le doc spans countTokens st.chunks _ "semantic"
      · exact le_refl st.chunks.length
    by_cases hforced : Forced doc countTokens target bounds st gap.2
    · simp only [hforced, or_true, ↓reduceIte, not_true_eq_false, and_false, List.length_cons]
        at hstep ⊢
      omega
    · by_cases hlow : PyFloat.lt gap.1 cutBelow = true
      · simp only [hforced, hlow, or_false, ↓reduceIte, not_false_eq_true, and_true,
          List.length_cons] at hstep ⊢
        omega
      · simp only [hforced, hlow, or_false, ↓reduceIte, not_false_eq_true, and_true,
          Bool.false_eq_true] at hstep ⊢
        omega

theorem cutSentences_length_le (gaps : List F) (cutBelow : F) :
    (cutSentences doc spans countTokens target bounds gaps cutBelow).length ≤
      (freeCuts doc spans countTokens target bounds cutBelow (cutInit doc countTokens bounds)
          gaps.zipIdx).length +
        (forcedCuts doc spans countTokens target bounds cutBelow (cutInit doc countTokens bounds)
          gaps.zipIdx).length + 1 := by
  have hloop := foldl_cutStep_length doc spans countTokens target bounds cutBelow gaps.zipIdx
    (cutInit doc countTokens bounds)
  apply (appendRange_length_le doc spans countTokens _ _ "semantic").trans
  change (gaps.zipIdx.foldl _ (cutInit doc countTokens bounds)).chunks.length + 1 ≤ _
  simp only [cutInit, List.length_nil] at hloop ⊢
  omega

end

section
variable {α : Type} [Glyph α]
variable (doc : List α) (spans : List (Span α)) (countTokens : TokenCounter) (target : ℤ)
variable (bounds : List (ℕ × ℕ))

theorem freeCuts_le_below (cutBelow : ℚ) (gaps : List ℚ) (i : ℕ) (st : CutState α) :
    (freeCuts doc spans countTokens target bounds cutBelow st (gaps.zipIdx i)).length ≤
      below cutBelow gaps := by
  induction gaps generalizing i st with
  | nil => exact le_refl 0
  | cons gap gaps ih =>
    have hrest := ih (i + 1) (cutStep doc spans countTokens target bounds cutBelow st (gap, i))
    rw [List.zipIdx_cons, freeCuts, below, List.countP_cons]
    rw [below] at hrest
    by_cases hlow : gap < cutBelow
    · simp only [hlow, decide_true, ↓reduceIte]
      split_ifs
      · exact Nat.succ_le_succ hrest
      · exact hrest.trans (Nat.le_succ _)
    · have hlt : PyFloat.lt gap cutBelow = false := decide_eq_false hlow
      simp only [hlt, hlow, Bool.false_eq_true, false_and, ↓reduceIte, decide_false]
      exact hrest

/-- Any number of sentences from the first on fit the budget together. -/
def BudgetSuffices : Prop :=
  ∀ m ≤ bounds.length, ((List.range m).map (sentenceCost doc countTokens bounds)).sum ≤ target

theorem foldl_cutStep_eq {cutBelow : ℚ} (hbudget : BudgetSuffices doc countTokens target bounds)
    (gaps : List ℚ) (hgaps : ∀ gap ∈ gaps, cutBelow ≤ gap) (i : ℕ)
    (hlen : i + gaps.length < bounds.length) :
    (gaps.zipIdx i).foldl (cutStep doc spans countTokens target bounds cutBelow)
        ⟨[], 0, ((List.range (i + 1)).map (sentenceCost doc countTokens bounds)).sum⟩ =
      ⟨[], 0, ((List.range (i + gaps.length + 1)).map
        (sentenceCost doc countTokens bounds)).sum⟩ := by
  induction gaps generalizing i with
  | nil => rfl
  | cons gap gaps ih =>
    rw [List.length_cons] at hlen
    have hsum : ((List.range (i + 2)).map (sentenceCost doc countTokens bounds)).sum =
        ((List.range (i + 1)).map (sentenceCost doc countTokens bounds)).sum +
          sentenceCost doc countTokens bounds (i + 1) := by
      rw [List.range_succ, List.map_append, List.sum_append, List.map_singleton, List.sum_singleton]
    have hfit := hbudget (i + 2) (by omega)
    have hlow : PyFloat.lt gap cutBelow = false :=
      decide_eq_false (not_lt.mpr (hgaps gap List.mem_cons_self))
    have hstep : cutStep doc spans countTokens target bounds cutBelow
        ⟨[], 0, ((List.range (i + 1)).map (sentenceCost doc countTokens bounds)).sum⟩ (gap, i) =
          ⟨[], 0, ((List.range (i + 2)).map (sentenceCost doc countTokens bounds)).sum⟩ := by
      rw [hsum] at hfit ⊢
      rw [cutStep_eq, if_neg]
      simp only [hlow, Bool.false_eq_true, false_or, Forced]
      omega
    rw [List.zipIdx_cons, List.foldl_cons, hstep, List.length_cons]
    have hrest := ih (fun g hg => hgaps g (List.mem_cons_of_mem gap hg)) (i + 1) (by omega)
    rw [hrest, show i + 1 + gaps.length + 1 = i + (gaps.length + 1) + 1 by omega]

theorem cutSentences_uncut {cutBelow : ℚ} (hbudget : BudgetSuffices doc countTokens target bounds)
    {gaps : List ℚ} (hgaps : ∀ gap ∈ gaps, cutBelow ≤ gap) (hlen : gaps.length + 1 = bounds.length) :
    cutSentences doc spans countTokens target bounds gaps cutBelow =
      appendRange doc spans "semantic" countTokens [] (mergeWindow bounds (0, bounds.length)) := by
  have hloop := foldl_cutStep_eq doc spans countTokens target bounds hbudget gaps hgaps 0 (by omega)
  have hinit : ((List.range (0 + 1)).map (sentenceCost doc countTokens bounds)).sum =
      sentenceCost doc countTokens bounds 0 := by simp
  rw [hinit] at hloop
  unfold cutSentences
  simp only [hloop]

end

/-- `bounds` in `chunk_semantic`. -/
def sentencesOf (doc : List Char) : List (ℕ × ℕ) :=
  sentenceBounds doc.length 0 (sentenceBreaks (plain doc))

theorem whole_range_notBlank {blocks : List (SourceBlock Char)}
    (hne : sentencesOf (flatten (prepare blocks)).1 ≠ []) :
    notBlank (flatten (prepare blocks)).1 (mergeWindow (sentencesOf (flatten (prepare blocks)).1)
      (0, (sentencesOf (flatten (prepare blocks)).1).length)) = true := by
  have hflat := flatten_flattened (prepare blocks)
  have htiles : Tiles space (flatten (prepare blocks)).1 0
      (sentencesOf (flatten (prepare blocks)).1) := bounds_tiles _
  generalize (flatten (prepare blocks)).1 = doc at *
  have hdoc : doc ≠ [] := by
    rintro rfl
    exact hne rfl
  generalize sentencesOf doc = bounds at *
  have hwhole := (htiles.merge (i := 0)
    (.step (List.length_pos_iff.mpr hne) (le_refl _) rfl (.done (le_refl _)))).words
  rw [List.drop_zero, List.map_singleton, List.flatMap_singleton] at hwhole
  rw [notBlank_iff, ← hwhole]
  exact hflat.words_ne_nil hdoc

/-- What a percentile of the similarities says of the chunks cut between the sentences. -/
structure CutsBounded (doc : List Char) (spans : List (Span Char)) (countTokens : TokenCounter)
    (target : ℤ) (bounds : List (ℕ × ℕ)) (gaps : List ℚ) (q cutBelow : ℚ) : Prop where
  chunks : (cutSentences doc spans countTokens target bounds gaps cutBelow).length ≤
    (freeCuts doc spans countTokens target bounds cutBelow (cutInit doc countTokens bounds)
        gaps.zipIdx).length +
      (forcedCuts doc spans countTokens target bounds cutBelow (cutInit doc countTokens bounds)
        gaps.zipIdx).length + 1
  free : ((freeCuts doc spans countTokens target bounds cutBelow (cutInit doc countTokens bounds)
    gaps.zipIdx).length : ℤ) ≤ ⌈q * ((gaps.length : ℚ) - 1)⌉
  level : (∀ x ∈ gaps, ∀ y ∈ gaps, x = y) → BudgetSuffices doc countTokens target bounds →
    (cutSentences doc spans countTokens target bounds gaps cutBelow).length = 1

theorem cutsBounded {gaps : List ℚ} {q cutBelow : ℚ} (h : IsPercentile gaps q cutBelow)
    (blocks : List (SourceBlock Char)) (countTokens : TokenCounter) (target : ℤ)
    (hlen : gaps.length + 1 = (sentencesOf (flatten (prepare blocks)).1).length) :
    CutsBounded (flatten (prepare blocks)).1 (flatten (prepare blocks)).2 countTokens target
      (sentencesOf (flatten (prepare blocks)).1) gaps q cutBelow where
  chunks := cutSentences_length_le _ _ countTokens target _ gaps cutBelow
  free := by
    have hbelow := freeCuts_le_below (flatten (prepare blocks)).1 (flatten (prepare blocks)).2
      countTokens target (sentencesOf (flatten (prepare blocks)).1) cutBelow gaps 0
      (cutInit (flatten (prepare blocks)).1 countTokens (sentencesOf (flatten (prepare blocks)).1))
    exact (Int.ofNat_le.mpr hbelow).trans h.below
  level := by
    intro hlevel hbudget
    have hgaps : ∀ gap ∈ gaps, cutBelow ≤ gap := by
      have hzero := List.countP_eq_zero.mp (h.level hlevel)
      intro gap hgap
      simpa using hzero gap hgap
    have hne : sentencesOf (flatten (prepare blocks)).1 ≠ [] := by
      rintro h0
      simp [h0] at hlen
    rw [cutSentences_uncut _ _ countTokens target _ hbudget hgaps hlen,
      appendRange_eq "semantic" countTokens (flatten_flattened _),
      if_pos (whole_range_notBlank hne)]
    rfl

/-- The percentile of the similarities lies between two neighbouring order statistics and has few
    similarities below it, so `chunk_semantic` makes few cuts that the budget does not force. -/
theorem topic_cuts_bounded_by_percentile {gaps : List ℚ} (hne : gaps ≠ []) {q : ℚ} (h0 : 0 ≤ q)
    (h1 : q ≤ 1) : ∃ cutBelow, percentile gaps q = .ok cutBelow ∧ IsPercentile gaps q cutBelow ∧
      ∀ (blocks : List (SourceBlock Char)) (countTokens : TokenCounter) (target : ℤ),
        gaps.length + 1 = (sentencesOf (flatten (prepare blocks)).1).length →
        CutsBounded (flatten (prepare blocks)).1 (flatten (prepare blocks)).2 countTokens target
            (sentencesOf (flatten (prepare blocks)).1) gaps q cutBelow ∧
          ∀ embed : List (List Char) → List (List ℚ),
            similarities (embed ((sentencesOf (flatten (prepare blocks)).1).map fun r =>
              plain (slice (flatten (prepare blocks)).1 r.1 r.2))) = .ok gaps →
            chunkSemantic countTokens target embed q blocks =
              .ok (cutSentences (flatten (prepare blocks)).1 (flatten (prepare blocks)).2
                countTokens target (sentencesOf (flatten (prepare blocks)).1) gaps cutBelow) := by
  obtain ⟨cutBelow, hok, hspec⟩ := percentile_ok hne h0 h1
  refine ⟨cutBelow, hok, hspec, fun blocks countTokens target hlen => ?_⟩
  refine ⟨cutsBounded hspec blocks countTokens target hlen, fun embed hgaps => ?_⟩
  have hpos := List.length_pos_iff.mpr hne
  have hvectors := similarities_length hgaps
  have hdoc : (flatten (prepare blocks)).1.isEmpty = false := by
    by_contra hempty
    have hnil : (flatten (prepare blocks)).1 = [] := by simpa using hempty
    rw [hnil] at hlen
    change gaps.length + 1 = 0 at hlen
    omega
  have hmany : ¬ (sentencesOf (flatten (prepare blocks)).1).length < 2 := by omega
  unfold chunkSemantic
  simp only [hdoc, Bool.false_eq_true, ↓reduceIte]
  change (if (sentencesOf (flatten (prepare blocks)).1).length < 2 then _
    else chunkSentences _ _ countTokens target (sentencesOf (flatten (prepare blocks)).1) embed q)
      = _
  rw [if_neg hmany]
  unfold chunkSentences
  simp only [List.length_map]
  rw [if_pos (by omega), hgaps]
  change (percentile gaps q).bind _ = _
  rw [hok]
  rfl

def threeSentences : List (SourceBlock Char) :=
  [SourceBlock.paragraph "a" 0 "One two. Three four. Five six." 0]

def turning (_ : List (List Char)) : List (List ℚ) := [[1, 0], [1, 0], [0, 1]]

theorem two_similarities_bounded : ∃ cutBelow : ℚ,
    percentile [1, 0] (1 / 4) = .ok cutBelow ∧ IsPercentile [1, 0] (1 / 4) cutBelow ∧
      CutsBounded (flatten (prepare threeSentences)).1 (flatten (prepare threeSentences)).2 wordCount
        10 (sentencesOf (flatten (prepare threeSentences)).1) [1, 0] (1 / 4) cutBelow ∧
      chunkSemantic wordCount 10 turning (1 / 4) threeSentences =
        .ok (cutSentences (flatten (prepare threeSentences)).1 (flatten (prepare threeSentences)).2
          wordCount 10 (sentencesOf (flatten (prepare threeSentences)).1) [1, 0] cutBelow) := by
  have hne : ([1, 0] : List ℚ) ≠ [] := List.cons_ne_nil _ _
  obtain ⟨cutBelow, hok, hspec, hcuts⟩ :=
    topic_cuts_bounded_by_percentile hne (q := 1 / 4) (by norm_num) (by norm_num)
  have hcount : ([1, 0] : List ℚ).length + 1 =
      (sentencesOf (flatten (prepare threeSentences)).1).length := by decide +kernel
  obtain ⟨hbounded, hchunks⟩ := hcuts threeSentences wordCount 10 hcount
  have hgaps : similarities (turning ((sentencesOf (flatten (prepare threeSentences)).1).map
      fun r => plain (slice (flatten (prepare threeSentences)).1 r.1 r.2))) = .ok [1, 0] := by
    have hcosine : cosine [1, 0] [1, 0] = .ok (1 : ℚ) ∧ cosine [1, 0] [0, 1] = .ok (0 : ℚ) := by
      norm_num [cosine, PyFloat.isZero, PyFloat.sum, PyFloat.mul, PyFloat.sqrt, PyFloat.div,
        PyFloat.ofInt]
    simp only [similarities, turning, List.tail_cons, List.zip_cons_cons, List.zip_nil_right,
      List.mapM_cons, List.mapM_nil, hcosine.1, hcosine.2]
    rfl
  exact ⟨cutBelow, hok, hspec, hbounded, hchunks turning hgaps⟩

theorem cosine_ok {a b : List ℚ} (h : a.length = b.length) : ∃ x, cosine a b = .ok x := by
  unfold cosine
  rw [if_neg (by omega), if_neg (by omega)]
  simp only
  split_ifs with hnone hzero
  · exact ⟨_, rfl⟩
  · -- over the rationals a product of two norms that are not zero is not zero
    simp only [Bool.or_eq_true, not_or] at hnone
    have hproduct := mul_ne_zero (of_decide_eq_false (Bool.not_eq_true _ ▸ hnone.1))
      (of_decide_eq_false (Bool.not_eq_true _ ▸ hnone.2))
    exact absurd (of_decide_eq_true hzero) hproduct
  · exact ⟨_, rfl⟩

/-- Vectors of one length and a percentile from 0 to 1 are enough in exact arithmetic. -/
theorem embeds_of_width {embed : List (List Char) → List (List ℚ)} {n : ℕ} {q : ℚ}
    (hcount : ∀ sentences, (embed sentences).length = sentences.length)
    (hwidth : ∀ sentences, ∀ v ∈ embed sentences, v.length = n) (h0 : 0 ≤ q) (h1 : q ≤ 1) :
    Embeds embed q := by
  intro sentences
  have hcompared : ∀ pair ∈ (embed sentences).zip (embed sentences).tail,
      ∃ x, cosine pair.1 pair.2 = .ok x := by
    intro pair hpair
    obtain ⟨hleft, hright⟩ := List.of_mem_zip hpair
    apply cosine_ok
    rw [hwidth sentences _ hleft, hwidth sentences _ (List.mem_of_mem_tail hright)]
  obtain ⟨gaps, hgaps, -⟩ := Exceptions.mapM_ok hcompared
  refine ⟨hcount sentences, gaps, ?_⟩
  by_cases hnone : gaps = []
  · exact ⟨0, hgaps, hnone ▸ rfl⟩
  · obtain ⟨cutBelow, hok, -⟩ := percentile_ok hnone h0 h1
    exact ⟨cutBelow, hgaps, hok⟩

end Ragent.TopicCuts
