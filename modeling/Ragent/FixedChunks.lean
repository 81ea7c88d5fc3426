import Ragent.PyNumbers
import Ragent.RangeChunks

set_option autoImplicit false

/-!
# The fixed strategy

`_fit_window` and `chunk_fixed` of `ragent/ingest/chunking.py`: sliding token windows.
-/
namespace Ragent.FixedChunks
open SpacedWords PyText PyNumbers SourceTypes FlattenedDocument RangeChunks

/-- `while j < len(words) and est + costs[j] <= target`, `costs` being what is left from `j` on. -/
def growWindow (target : ℤ) : List ℤ → ℤ → ℕ → ℕ
  | [], _, j => j
  | cost :: costs, est, j =>
    if est + cost ≤ target then growWindow target costs (est + cost) (j + 1) else j

section
variable {α : Type} [Glyph α] (F : Type) [PyFloat F]
variable (doc : List α) (countTokens : TokenCounter) (target overlap : ℤ)

def wordCosts : List ℤ :=
  (spans space doc).map fun w => countTokens (plain (slice doc w.1 w.2))

/-- `(words[i][0], words[j - 1][1])` -/
def windowRange (i j : ℕ) : ℕ × ℕ := mergeWindow (spans space doc) (i, j)

def windowTokens (i j : ℕ) : ℤ :=
  countTokens (plain (slice doc (windowRange doc i j).1 (windowRange doc i j).2))

/-- `scaled if scaled < span else span - 1` -/
def scaleBack (span : ℕ) (actual : ℤ) : ℕ :=
  -- under a counter that is never negative `actual > target ≥ 0`, so nothing is divided by 0
  let scaled := max 1 (PyFloat.trunc (PyFloat.trueDiv (span * target) actual : F))
  if scaled < span then scaled.toNat else span - 1

omit [Glyph α] in
theorem scaleBack_bounds {span : ℕ} (actual : ℤ) (h : 1 < span) :
    0 < scaleBack F target span actual ∧ scaleBack F target span actual < span := by
  rw [scaleBack]
  have hone := le_max_left 1 (PyFloat.trunc (PyFloat.trueDiv (span * target) actual : F))
  split_ifs with hlt
  · omega
  · omega

/-- `while j > i + 1`: verify the window with the real counter and scale it back. -/
def shrinkWindow (i j : ℕ) : ℕ :=
  if _h : i + 1 < j then
    if windowTokens doc countTokens i j ≤ target then j
    else shrinkWindow i (i + scaleBack F target (j - i) (windowTokens doc countTokens i j))
  else j
termination_by j
decreasing_by
  have hback := (scaleBack_bounds F target (windowTokens doc countTokens i j)
    (show 1 < j - i by omega)).2
  omega

def fitWindow (i : ℕ) : ℕ :=
  let j := growWindow target ((wordCosts doc countTokens).drop i) 0 i
  if j = i then i + 1 else shrinkWindow F doc countTokens target i j

/-- `while k > i + 1 and back + costs[k - 1] <= overlap_tokens` -/
def walkBack (i : ℕ) : ℕ → ℤ → ℕ
  | 0, _ => 0
  | k + 1, back =>
    let cost := (wordCosts doc countTokens).getD k 0
    if i + 1 < k + 1 ∧ back + cost ≤ overlap then walkBack i k (back + cost) else k + 1

/-- `i = k if k > i else j` -/
def resumeAt (i j : ℕ) : ℕ :=
  let k := walkBack doc countTokens overlap i j 0
  if i < k then k else j

theorem growWindow_bounds (target : ℤ) (costs : List ℤ) (est : ℤ) (j : ℕ) :
    j ≤ growWindow target costs est j ∧ growWindow target costs est j ≤ j + costs.length := by
  induction costs generalizing est j with
  | nil => simp [growWindow]
  | cons cost costs ih =>
    rw [growWindow, List.length_cons]
    split_ifs
    · obtain ⟨h1, h2⟩ := ih (est + cost) (j + 1)
      omega
    · omega

theorem shrinkWindow_bounds {i j : ℕ} (h : i < j) :
    i < shrinkWindow F doc countTokens target i j ∧
      shrinkWindow F doc countTokens target i j ≤ j := by
  induction j using Nat.strong_induction_on with
  | _ j ih =>
    unfold shrinkWindow
    split_ifs with hlt
    · exact ⟨h, le_refl j⟩
    · have hback := scaleBack_bounds F target (windowTokens doc countTokens i j)
        (show 1 < j - i by omega)
      obtain ⟨h1, h2⟩ := ih (i + scaleBack F target (j - i) (windowTokens doc countTokens i j))
        (by omega) (by omega)
      exact ⟨h1, by omega⟩
    · exact ⟨h, le_refl j⟩

theorem fitWindow_bounds {i : ℕ} (h : i < (spans space doc).length) :
    i < fitWindow F doc countTokens target i ∧
      fitWindow F doc countTokens target i ≤ (spans space doc).length := by
  have hgrow := growWindow_bounds target ((wordCosts doc countTokens).drop i) 0 i
  have hlen : ((wordCosts doc countTokens).drop i).length = (spans space doc).length - i := by
    simp [wordCosts]
  unfold fitWindow
  simp only
  split_ifs with hj
  · omega
  · have hshrink := shrinkWindow_bounds F doc countTokens target
      (lt_of_le_of_ne hgrow.1 (Ne.symm hj))
    omega

theorem walkBack_le (i k : ℕ) (back : ℤ) : walkBack doc countTokens overlap i k back ≤ k := by
  induction k generalizing back with
  | zero => exact le_refl 0
  | succ k ih =>
    rw [walkBack]
    split_ifs
    · exact (ih _).trans (Nat.le_succ k)
    · exact le_refl _

theorem resumeAt_bounds {i j : ℕ} (h : i < j) :
    i < resumeAt doc countTokens overlap i j ∧ resumeAt doc countTokens overlap i j ≤ j := by
  rw [resumeAt]
  split_ifs with hk
  · exact ⟨hk, walkBack_le doc countTokens overlap i j 0⟩
  · exact ⟨h, le_refl j⟩

/-- `while i < len(words)` -/
def fixedLoop (docSpans : List (Span α)) (i : ℕ) (chunks : List (Chunk α)) : List (Chunk α) :=
  if _h : i < (spans space doc).length then
    let j := fitWindow F doc countTokens target i
    let chunks := appendRange doc docSpans "fixed" countTokens chunks (windowRange doc i j)
    if (spans space doc).length ≤ j then chunks
    else fixedLoop docSpans (resumeAt doc countTokens overlap i j) chunks
  else chunks
termination_by (spans space doc).length - i
decreasing_by
  have hj := (fitWindow_bounds F doc countTokens target _h).1
  have hk := (resumeAt_bounds doc countTokens overlap hj).1
  omega

def chunkFixed (blocks : List (SourceBlock α)) : List (Chunk α) :=
  let (doc, docSpans) := flatten (prepare blocks)
  if doc.isEmpty then []
  else if (spans space doc).isEmpty then []
  else fixedLoop F doc countTokens target overlap docSpans 0 []

def fixedWindows (i : ℕ) : List (ℕ × ℕ) :=
  if _h : i < (spans space doc).length then
    let j := fitWindow F doc countTokens target i
    (i, j) :: if (spans space doc).length ≤ j then []
      else fixedWindows (resumeAt doc countTokens overlap i j)
  else []
termination_by (spans space doc).length - i
decreasing_by
  have hj := (fitWindow_bounds F doc countTokens target _h).1
  have hk := (resumeAt_bounds doc countTokens overlap hj).1
  omega

theorem fixedLoop_eq (docSpans : List (Span α)) (i : ℕ) (chunks : List (Chunk α)) :
    fixedLoop F doc countTokens target overlap docSpans i chunks =
      appendRanges doc docSpans "fixed" countTokens chunks
        ((fixedWindows F doc countTokens target overlap i).map (mergeWindow (spans space doc))) := by
  fun_induction fixedWindows F doc countTokens target overlap i generalizing chunks with
  | case1 i hi j ih =>
    rw [fixedLoop, dif_pos hi, List.map_cons]
    change (if _ then _ else _) = appendRanges doc docSpans "fixed" countTokens
      (appendRange doc docSpans "fixed" countTokens chunks (windowRange doc i j)) _
    split_ifs with hlast
    · rfl
    · exact ih _
  | case2 i hi =>
    rw [fixedLoop, dif_neg hi]
    rfl

theorem fixedWindows_windows (next : ℕ → ℕ → Prop) (hstay : ∀ j, next j j)
    (hnext : ∀ i j, i < j → j ≤ (spans space doc).length →
      next j (resumeAt doc countTokens overlap i j)) (i : ℕ) :
    Windows next (spans space doc).length i (fixedWindows F doc countTokens target overlap i) := by
  fun_induction fixedWindows F doc countTokens target overlap i with
  | case1 i hi j ih =>
    obtain ⟨hlt, hle⟩ := fitWindow_bounds F doc countTokens target hi
    split_ifs with hlast
    · exact .step hlt hle (hstay j) (.done hlast)
    · exact .step hlt hle (hnext i j hlt hle) ih
  | case2 i hi => exact .done (Nat.le_of_not_lt hi)

theorem chunkFixed_eq (blocks : List (SourceBlock α)) :
    chunkFixed F countTokens target overlap blocks =
      appendRanges (flatten (prepare blocks)).1 (flatten (prepare blocks)).2 "fixed" countTokens []
        ((fixedWindows F (flatten (prepare blocks)).1 countTokens target overlap 0).map
          (mergeWindow (spans space (flatten (prepare blocks)).1))) := by
  rw [← fixedLoop_eq]
  unfold chunkFixed
  simp only
  split_ifs with hdoc hwords
  · rw [fixedLoop, dif_neg (by simp [List.isEmpty_iff.mp hdoc, spans, spansFrom])]
  · rw [fixedLoop, dif_neg (by simp [List.isEmpty_iff.mp hwords])]
  · rfl

/-- The fixed strategy cuts ranges that leave no character out and cut through no word. -/
theorem chunkFixed_covering (blocks : List (SourceBlock α)) :
    ∃ rs, CoveringCuts (flatten (prepare blocks)).1 rs ∧
      chunkFixed F countTokens target overlap blocks =
        appendRanges (flatten (prepare blocks)).1 (flatten (prepare blocks)).2 "fixed" countTokens
          [] rs := by
  have hws := fixedWindows_windows F (flatten (prepare blocks)).1 countTokens target overlap
    (fun j k => k ≤ j) (fun j => le_refl j)
    (fun i j hij _ => (resumeAt_bounds _ countTokens overlap hij).2) 0
  have htiles := spans_tiles (q := space) (flatten (prepare blocks)).1
  exact ⟨_, ⟨fun p a hp ha => htiles.covers_windows hws hp ha, htiles.isCut_windows hws⟩,
    chunkFixed_eq F countTokens target overlap blocks⟩

theorem resumeAt_eq (hcost : CountsWords countTokens) {i j : ℕ} (hij : i < j) (hj : j ≤ (spans space doc).length) :
    resumeAt doc countTokens 0 i j = j := by
  have hwalk : walkBack doc countTokens 0 i j 0 = j := by
    cases j with
    | zero => rfl
    | succ k =>
      have hword := spans_words doc _ (List.getElem_mem (Nat.lt_of_succ_le hj))
      have hplain := hcost (plain (slice doc ((spans space doc)[k]).1 ((spans space doc)[k]).2))
        (fun h0 => hword (by simpa using (plain_words _).symm.trans h0))
      have hk : (wordCosts doc countTokens).getD k 0 =
          countTokens (plain (slice doc ((spans space doc)[k]).1 ((spans space doc)[k]).2)) := by
        simp [wordCosts, List.getD_eq_getElem?_getD, Nat.lt_of_succ_le hj]
      rw [walkBack, if_neg]
      simp only [hk]
      omega
  rw [resumeAt, hwalk, if_pos hij]

/-- Without overlap the windows of the fixed strategy tile the document. -/
theorem chunkFixed_tiles (hcost : CountsWords countTokens) (blocks : List (SourceBlock α)) :
    ∃ rs, Tiles space (flatten (prepare blocks)).1 0 rs ∧
      chunkFixed F countTokens target 0 blocks =
        appendRanges (flatten (prepare blocks)).1 (flatten (prepare blocks)).2 "fixed" countTokens
          [] rs := by
  have hws := fixedWindows_windows F (flatten (prepare blocks)).1 countTokens target 0
    (fun j k => k = j) (fun _ => rfl) (fun i j hij hj => resumeAt_eq _ _ hcost hij hj) 0
  exact ⟨_, (spans_tiles (q := space) (flatten (prepare blocks)).1).merge (i := 0) hws,
    chunkFixed_eq F countTokens target 0 blocks⟩

end
end Ragent.FixedChunks
