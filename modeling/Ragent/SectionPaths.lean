import Ragent.FlowBlocks
import Ragent.OutlineStacks

set_option autoImplicit false

/-!
# Section paths of markdown blocks

`split_markdown` keeps a stack of headings while it scans, and files a block under the section that
is current when it closes. The path is that of the headings in front of the block all the same.
-/
namespace Ragent.SectionPaths
open SpacedWords PyText FlowText FlowBlocks OutlineStacks

structure Heading where
  line : ℕ
  level : ℕ
  title : String
  deriving DecidableEq

/-- The ATX headings outside fenced code, from line `i` on. A fence is open with its marker. -/
def headingsFrom : Option (List Char) → ℕ → List (List Char) → List Heading
  | _, _, [] => []
  | some marker, i, line :: lines =>
    headingsFrom (if marker.isPrefixOf (strip line) then none else some marker) (i + 1) lines
  | none, i, line :: lines =>
    match fenceOf line, headingOf line with
    | some marker, _ => headingsFrom (some marker) (i + 1) lines
    | none, some (level, title) => ⟨i, level, title⟩ :: headingsFrom none (i + 1) lines
    | none, none => headingsFrom none (i + 1) lines

section
variable {α : Type} [Glyph α]

def headings (text : List α) : List Heading := headingsFrom none 0 (chompedLines text)

/-- The headings at or before a block that no later one of these has closed. -/
def openHeadings (text : List α) (b : FlowBlock α) : List Heading :=
  (headings text).filter fun h => offset text h.line ≤ b.charStart ∧
    ∀ h' ∈ headings text, h.line < h'.line → offset text h'.line ≤ b.charStart → h.level < h'.level

end

theorem line_of_headingsFrom {fence : Option (List Char)} {i : ℕ} {lines : List (List Char)} :
    ∀ h ∈ headingsFrom fence i lines, i ≤ h.line := by
  induction lines generalizing fence i with
  | nil =>
    intro h hmem
    cases fence <;> cases hmem
  | cons line lines ih =>
    have hlater : ∀ fence, ∀ h ∈ headingsFrom fence (i + 1) lines, i ≤ h.line :=
      fun fence h hmem => Nat.le_of_succ_le (ih h hmem)
    cases fence with
    | some marker => exact hlater _
    | none =>
      unfold headingsFrom
      split
      · exact hlater _
      · intro h hmem
        cases List.mem_cons.mp hmem with
        | inl heq => exact heq ▸ le_refl i
        | inr hmem => exact hlater _ h hmem
      · exact hlater _

theorem headingsFrom_pairwise (fence : Option (List Char)) (i : ℕ) (lines : List (List Char)) :
    (headingsFrom fence i lines).Pairwise fun h h' => h.line < h'.line := by
  induction lines generalizing fence i with
  | nil => cases fence <;> exact List.Pairwise.nil
  | cons line lines ih =>
    cases fence with
    | some marker => exact ih _ _
    | none =>
      unfold headingsFrom
      split
      · exact ih _ _
      · exact (ih _ _).cons fun h hmem => line_of_headingsFrom h hmem
      · exact ih _ _

/-- Nothing inside a fence is a heading, up to the line that closes it. -/
theorem headingsFrom_fenced (marker : List Char) (i : ℕ) (lines : List (List Char)) :
    headingsFrom (some marker) i lines =
      headingsFrom none (i + (lines.takeWhile fun line => !marker.isPrefixOf (strip line)).length + 1)
        (lines.drop ((lines.takeWhile fun line => !marker.isPrefixOf (strip line)).length + 1)) := by
  induction lines generalizing i with
  | nil => rfl
  | cons line lines ih =>
    rw [headingsFrom]
    by_cases hclose : marker.isPrefixOf (strip line) = true
    · simp [hclose]
    · have hopen : (!marker.isPrefixOf (strip line)) = true := by
        rw [Bool.eq_false_of_not_eq_true hclose]
        rfl
      rw [if_neg hclose, ih]
      simp only [List.takeWhile_cons, hopen, ↓reduceIte, List.length_cons, List.drop_succ_cons]
      congr 1
      omega

section
variable {α : Type} [Glyph α]

theorem openHeadings_eq {text : List α} {done rest : List Heading} {b : FlowBlock α}
    (hsplit : headings text = done ++ rest) (hdone : ∀ h ∈ done, offset text h.line ≤ b.charStart)
    (hrest : ∀ h ∈ rest, b.charStart < offset text h.line) :
    openHeadings text b = opened Heading.level done := by
  have hsorted : done.Pairwise fun h h' => h.line < h'.line := by
    have hall := headingsFrom_pairwise none 0 (chompedLines text)
    rw [show headingsFrom none 0 (chompedLines text) = done ++ rest from hsplit] at hall
    exact (List.pairwise_append.mp hall).1
  have hnone : rest.filter (fun h => offset text h.line ≤ b.charStart ∧
      ∀ h' ∈ done ++ rest, h.line < h'.line → offset text h'.line ≤ b.charStart →
        h.level < h'.level) = [] := by
    apply List.filter_eq_nil_iff.mpr
    intro h hmem hkeep
    exact absurd (of_decide_eq_true hkeep).1 (not_le.mpr (hrest h hmem))
  rw [opened_eq_filter Heading.level hsorted]
  unfold openHeadings
  rw [hsplit, List.filter_append, hnone, List.append_nil]
  apply List.filter_congr
  intro h hmem
  apply decide_eq_decide.mpr
  constructor
  · intro hkeep h' hmem' hlt
    exact hkeep.2 h' (List.mem_append_left _ hmem') hlt (hdone h' hmem')
  · intro hkeep
    refine ⟨hdone h hmem, ?_⟩
    intro h' hmem' hlt hle
    cases List.mem_append.mp hmem' with
    | inl hmem' => exact hkeep h' hmem' hlt
    | inr hmem' => exact absurd hle (not_le.mpr (hrest h' hmem'))

/-- The block's path is that of the headings open at it, and if it is a heading, its own title comes
    last. -/
structure FiledRight (text : List α) (b : FlowBlock α) : Prop where
  path : b.sectionPath = (openHeadings text b).map (·.title)
  own : b.kind = "heading" → ∃ h ∈ headings text, offset text h.line = b.charStart ∧
    b.sectionPath.getLast? = some h.title

theorem of_emit {text : List α} {start stop : ℕ} {kind : String} {sectionPath : List String}
    {b : FlowBlock α} (h : emit text start stop kind sectionPath = some b) :
    start ≤ b.charStart ∧ b.charStart < stop ∧ b.kind = kind ∧ b.sectionPath = sectionPath := by
  unfold emit at h
  simp only at h
  split at h
  · cases h
  · next hlt =>
    cases h
    refine ⟨Nat.le_add_right _ _, ?_, rfl, rfl⟩
    dsimp only
    omega

theorem charStart_of_emit {text : List α} {start stop : ℕ} {kind : String}
    {sectionPath : List String} {b : FlowBlock α} {a : α} {rest : List α}
    (hraw : slice text start stop = a :: rest) (ha : space a = false)
    (h : emit text start stop kind sectionPath = some b) : b.charStart = start := by
  unfold emit at h
  simp only [hraw, List.dropWhile_cons_of_neg (show ¬ space a = true by simp [ha]),
    Nat.sub_self] at h
  split at h
  · cases h
  · cases h
    rfl

/-- `done` are the headings in front of line `i`, which is not inside a fence. -/
structure SectionInv (source : List α) (st : MarkdownState α) (i : ℕ) (done : List Heading) :
    Prop where
  rest : headings source = done ++ headingsFrom none i ((chompedLines source).drop i)
  before : ∀ h ∈ done, h.line < i
  stack : st.stack = opened Prod.fst (done.map fun h => (h.level, h.title))
  path : st.sectionPath = st.stack.map (·.2)
  pending : ∀ start, st.pendingStart = some start →
    ∃ p, start = offset source p ∧ p < i ∧ ∀ h ∈ done, h.line < p
  pendingKind : st.pendingKind ≠ "heading"
  blocks : ∀ b ∈ st.blocks, FiledRight source b

section
variable {source : List α} {st : MarkdownState α} {i : ℕ} {done : List Heading}

theorem SectionInv.path_eq (h : SectionInv source st i done) :
    st.sectionPath = (opened Heading.level done).map (·.title) := by
  rw [h.path, h.stack, opened_map, List.map_map]
  rfl

theorem addBlock_inv (h : SectionInv source st i done) {start stop : ℕ} {kind : String}
    (hkind : kind ≠ "heading") (hdone : ∀ h ∈ done, offset source h.line ≤ start)
    (hrest : ∀ h ∈ headingsFrom none i ((chompedLines source).drop i),
      stop ≤ offset source h.line) :
    SectionInv source (addBlock source st start stop kind) i done := by
  refine ⟨h.rest, h.before, h.stack, h.path, h.pending, h.pendingKind, ?_⟩
  intro b hb
  cases List.mem_append.mp hb with
  | inl hb => exact h.blocks b hb
  | inr hb =>
    obtain ⟨hstart, hstop, hkind', hpath⟩ := of_emit (Option.mem_toList.mp hb)
    constructor
    · rw [hpath, h.path_eq, openHeadings_eq h.rest]
      · exact fun h hmem => (hdone h hmem).trans hstart
      · exact fun h hmem => hstop.trans_le (hrest h hmem)
    · intro hheading
      exact absurd (hkind'.symm.trans hheading) hkind

/-- The pending block is filed under the section it began in: no heading came since. -/
theorem flush_sectionInv (h : SectionInv source st i done) {endLine : ℕ}
    (hend : ∀ h ∈ headingsFrom none i ((chompedLines source).drop i),
      ((lineSpans source).getD (endLine - 1) (0, 0)).2 ≤ offset source h.line) :
    SectionInv source (flush source (lineSpans source) st endLine) i done ∧
      (flush source (lineSpans source) st endLine).pendingStart = none := by
  unfold flush
  cases hp : st.pendingStart with
  | none => exact ⟨h, hp⟩
  | some start =>
    obtain ⟨p, hstart, -, hdone⟩ := h.pending start hp
    have hbefore : ∀ h ∈ done, offset source h.line ≤ start :=
      fun h hmem => hstart ▸ offset_mono source (hdone h hmem).le
    have hadd := addBlock_inv h h.pendingKind hbefore hend
    exact ⟨⟨hadd.rest, hadd.before, hadd.stack, hadd.path, by simp, hadd.pendingKind,
      hadd.blocks⟩, rfl⟩

theorem flush_line (h : SectionInv source st i done) (hi : i ≤ (splitlines source).length) :
    SectionInv source (flush source (lineSpans source) st i) i done ∧
      (flush source (lineSpans source) st i).pendingStart = none := by
  cases hp : st.pendingStart with
  | none =>
    unfold flush
    rw [hp]
    exact ⟨h, hp⟩
  | some start =>
    obtain ⟨p, -, hp', -⟩ := h.pending start hp
    apply flush_sectionInv h
    intro h hmem
    rw [lineSpans_getD source (by omega)]
    exact offset_mono source (by have := line_of_headingsFrom h hmem; omega)

theorem drop_chompedLines (hi : i < (splitlines source).length) : (chompedLines source).drop i =
    (chompedLines source).getD i [] :: (chompedLines source).drop (i + 1) := by
  have hlen : i < (chompedLines source).length := by simpa [chompedLines] using hi
  rw [List.drop_eq_getElem_cons hlen, List.getD_eq_getElem?_getD, List.getElem?_eq_getElem hlen]
  rfl

theorem SectionInv.advance (h : SectionInv source st i done) {j : ℕ} (hle : i ≤ j)
    (hrest : headingsFrom none i ((chompedLines source).drop i) =
      headingsFrom none j ((chompedLines source).drop j)) : SectionInv source st j done where
  rest := hrest ▸ h.rest
  before := fun h' hmem => (h.before h' hmem).trans_le hle
  stack := h.stack
  path := h.path
  pending := by
    intro start hp
    obtain ⟨p, hstart, hlt, hdone⟩ := h.pending start hp
    exact ⟨p, hstart, hlt.trans_le hle, hdone⟩
  pendingKind := h.pendingKind
  blocks := h.blocks

theorem hash_of_headingOf {line : List Char} {level : ℕ} {title : String}
    (h : headingOf line = some (level, title)) : ∃ rest, line = '#' :: rest := by
  cases line with
  | nil => cases h
  | cons c rest =>
    by_cases hc : c = '#'
    · exact ⟨rest, by rw [hc]⟩
    · have hhash : (c == '#') = false := beq_eq_false_iff_ne.mpr hc
      simp [headingOf, hhash] at h

theorem line_of_hash {rest : List Char} (hi : i < (splitlines source).length)
    (h : (chompedLines source).getD i [] = '#' :: rest) :
    ∃ a tail, slice source (offset source i) (offset source (i + 1)) = a :: tail ∧
      space a = false := by
  rw [chompedLines_getD source hi] at h
  rw [slice_line source hi]
  cases hline : (splitlines source)[i] with
  | nil =>
    rw [hline] at h
    cases h
  | cons a tail =>
    rw [hline, plain, List.map_cons, List.takeWhile_cons] at h
    split at h
    · have hchar : Glyph.char a = '#' := (List.cons.inj h).1
      exact ⟨a, tail, rfl, by rw [space, hchar]; rfl⟩
    · cases h

theorem lineKind_ne_heading (line : List Char) : lineKind line ≠ "heading" := by
  unfold lineKind
  split_ifs <;> decide

section
variable (h : SectionInv source st i done) (hi : i < (splitlines source).length)
include h hi

theorem fenceStep_sectionInv {marker : List Char}
    (hfence : fenceOf ((chompedLines source).getD i []) = some marker) :
    SectionInv source (fenceStep source (chompedLines source) (lineSpans source) st i marker).2
      (fenceStep source (chompedLines source) (lineSpans source) st i marker).1 done := by
  have hrest : headingsFrom none i ((chompedLines source).drop i) =
      headingsFrom none (closingLine (chompedLines source) marker (i + 1) + 1)
        ((chompedLines source).drop (closingLine (chompedLines source) marker (i + 1) + 1)) := by
    rw [drop_chompedLines hi, headingsFrom, hfence]
    dsimp only
    rw [headingsFrom_fenced, List.drop_drop]
    rfl
  have hle : i ≤ closingLine (chompedLines source) marker (i + 1) + 1 := by
    unfold closingLine
    omega
  have hflush := ((flush_line h hi.le).1).advance hle hrest
  unfold fenceStep
  simp only
  apply addBlock_inv hflush (by decide)
  · intro h' hmem
    rw [lineSpans_getD source hi]
    exact offset_mono source (h.before h' hmem).le
  · intro h' hmem
    have hlen : (chompedLines source).length = (splitlines source).length := by simp [chompedLines]
    have hline := line_of_headingsFrom h' hmem
    rw [lineSpans_getD source (by omega)]
    apply offset_mono
    omega

theorem headingStep_sectionInv {level : ℕ} {title : String}
    (hfence : fenceOf ((chompedLines source).getD i []) = none)
    (hheading : headingOf ((chompedLines source).getD i []) = some (level, title)) :
    SectionInv source (headingStep source (lineSpans source) st i level title) (i + 1)
      (done ++ [⟨i, level, title⟩]) := by
  obtain ⟨hflush, hnone⟩ := flush_line h hi.le
  have hrest : headings source = done ++ [⟨i, level, title⟩] ++
      headingsFrom none (i + 1) ((chompedLines source).drop (i + 1)) := by
    rw [h.rest, drop_chompedLines hi, headingsFrom, hfence, hheading, List.append_assoc]
    rfl
  have hbefore : ∀ h' ∈ done ++ [⟨i, level, title⟩], h'.line ≤ i := by
    intro h' hmem
    cases List.mem_append.mp hmem with
    | inl hmem => exact (h.before h' hmem).le
    | inr hmem => exact List.mem_singleton.mp hmem ▸ le_refl i
  have hstack : push Prod.fst (flush source (lineSpans source) st i).stack (level, title) =
      opened Prod.fst ((done ++ [(⟨i, level, title⟩ : Heading)]).map fun h => (h.level, h.title)) := by
    rw [hflush.stack, ← opened_push, List.map_append]
    rfl
  have hopened : SectionInv source { flush source (lineSpans source) st i with
      stack := push Prod.fst (flush source (lineSpans source) st i).stack (level, title)
      sectionPath := (push Prod.fst (flush source (lineSpans source) st i).stack
        (level, title)).map (·.2) } (i + 1) (done ++ [⟨i, level, title⟩]) :=
    { rest := hrest
      before := fun h' hmem => Nat.lt_succ_of_le (hbefore h' hmem)
      stack := hstack
      path := rfl
      pending := by
        intro start hp
        rw [hnone] at hp
        cases hp
      pendingKind := hflush.pendingKind
      blocks := hflush.blocks }
  refine ⟨hopened.rest, hopened.before, hopened.stack, hopened.path, hopened.pending,
    hopened.pendingKind, ?_⟩
  intro b hb
  cases List.mem_append.mp hb with
  | inl hb => exact hopened.blocks b hb
  | inr hb =>
    rw [lineSpans_getD source hi] at hb
    obtain ⟨rest, hhash⟩ := hash_of_headingOf hheading
    obtain ⟨a, tail, hraw, ha⟩ := line_of_hash hi hhash
    obtain ⟨-, hstop, -, hpath⟩ := of_emit (Option.mem_toList.mp hb)
    have hstart := charStart_of_emit hraw ha (Option.mem_toList.mp hb)
    dsimp only at hstop hstart
    constructor
    · rw [hpath, openHeadings_eq hrest]
      · exact hopened.path_eq
      · exact fun h' hmem => hstart ▸ offset_mono source (hbefore h' hmem)
      · exact fun h' hmem => hstop.trans_le (offset_mono source (line_of_headingsFrom h' hmem))
    · intro _
      refine ⟨⟨i, level, title⟩, ?_, hstart.symm, ?_⟩
      · rw [hrest]
        simp
      · rw [hpath]
        simp

theorem textStep_sectionInv (hfence : fenceOf ((chompedLines source).getD i []) = none)
    (hheading : headingOf ((chompedLines source).getD i []) = none) {kind : String}
    (hkind : kind ≠ "heading") :
    SectionInv source (textStep source (lineSpans source) st i kind) (i + 1) done := by
  have hrest : headingsFrom none i ((chompedLines source).drop i) =
      headingsFrom none (i + 1) ((chompedLines source).drop (i + 1)) := by
    rw [drop_chompedLines hi, headingsFrom, hfence, hheading]
  have hbegin : ∀ start, some (offset source i) = some start →
      ∃ p, start = offset source p ∧ p < i + 1 ∧ ∀ h ∈ done, h.line < p := by
    intro start hp
    exact ⟨i, (Option.some.inj hp).symm, Nat.lt_succ_self i, h.before⟩
  have hadvance := h.advance (Nat.le_succ i) hrest
  unfold textStep
  simp only [lineSpans_getD source hi]
  cases hp : st.pendingStart with
  | none =>
    exact ⟨hadvance.rest, hadvance.before, hadvance.stack, hadvance.path, hbegin, hkind,
      hadvance.blocks⟩
  | some start =>
    simp only
    split_ifs
    · exact hadvance
    · have hflush := (flush_line h hi.le).1.advance (Nat.le_succ i) hrest
      exact ⟨hflush.rest, hflush.before, hflush.stack, hflush.path, hbegin, hkind, hflush.blocks⟩

theorem lineStep_sectionInv : ∃ done',
    SectionInv source (lineStep source (chompedLines source) (lineSpans source) st i).2
      (lineStep source (chompedLines source) (lineSpans source) st i).1 done' := by
  unfold lineStep
  simp only
  split
  · next hfence => exact ⟨done, fenceStep_sectionInv h hi hfence⟩
  · next hfence hheading => exact ⟨_, headingStep_sectionInv h hi hfence hheading⟩
  · next hfence hheading =>
    split_ifs
    · have hrest : headingsFrom none i ((chompedLines source).drop i) =
          headingsFrom none (i + 1) ((chompedLines source).drop (i + 1)) := by
        rw [drop_chompedLines hi, headingsFrom, hfence, hheading]
      exact ⟨done, (flush_line h hi.le).1.advance (Nat.le_succ i) hrest⟩
    · exact ⟨done, textStep_sectionInv h hi hfence hheading (lineKind_ne_heading _)⟩

end

theorem markdownLoop_filed (h : SectionInv source st i done) :
    ∀ b ∈ (markdownLoop source (chompedLines source) (lineSpans source) st i).blocks,
      FiledRight source b := by
  have hlen : (chompedLines source).length = (splitlines source).length := by simp [chompedLines]
  induction hn : (splitlines source).length - i using Nat.strong_induction_on
    generalizing st i done with
  | _ n ih =>
    unfold markdownLoop
    split_ifs with hi
    · rw [hlen] at hi
      have hnext := lt_lineStep source (chompedLines source) (lineSpans source) st i
      obtain ⟨done', hstep⟩ := lineStep_sectionInv h hi
      exact ih _ (by omega) hstep rfl
    · have hrest : (chompedLines source).drop i = [] := List.drop_eq_nil_of_le (Nat.le_of_not_lt hi)
      refine (flush_sectionInv h ?_).1.blocks
      intro h' hmem
      rw [hrest] at hmem
      cases hmem

end

/-- Every block is filed under the headings in front of it that no later one has closed, with levels
    that go down along the path, and a heading is the last on its own path. -/
theorem section_paths_are_the_open_headings (text : List α) :
    ∀ b ∈ splitMarkdown text,
      b.sectionPath = (openHeadings text b).map (·.title) ∧
      ((openHeadings text b).Pairwise fun h h' => h.line < h'.line ∧ h.level < h'.level) ∧
      (b.kind = "heading" → ∃ h ∈ headings text, offset text h.line = b.charStart ∧
        b.sectionPath.getLast? = some h.title) := by
  have hinit : SectionInv text ({} : MarkdownState α) 0 [] :=
    { rest := rfl
      before := by simp
      stack := rfl
      path := rfl
      pending := by simp
      pendingKind := show "paragraph" ≠ "heading" by decide
      blocks := by simp }
  intro b hb
  have hfiled := markdownLoop_filed hinit b hb
  refine ⟨hfiled.path, ?_, hfiled.own⟩
  have hsorted : (openHeadings text b).Pairwise fun h h' => h.line < h'.line :=
    (headingsFrom_pairwise none 0 (chompedLines text)).sublist List.filter_sublist
  apply hsorted.imp_of_mem
  intro h h' hmem hmem' hlt
  have hopen := of_decide_eq_true (List.mem_filter.mp hmem).2
  have hbefore := of_decide_eq_true (List.mem_filter.mp hmem').2
  exact ⟨hlt, hopen.2 h' (List.mem_filter.mp hmem').1 hlt hbefore.1⟩

end

def fencedComment : List Char := "# A\n```\n# x\n```\n## B\ny\n".toList

theorem paragraph_of_the_inner_section :
    ∃ b ∈ splitMarkdown fencedComment, b.sectionPath = ["A", "B"] ∧
      (openHeadings fencedComment b).map (·.title) = ["A", "B"] := by
  have hpaths : ((splitMarkdown fencedComment).map (·.sectionPath))[3]? = some ["A", "B"] := by
    decide +kernel
  rw [List.getElem?_map] at hpaths
  obtain ⟨b, hb, hpath⟩ := Option.map_eq_some_iff.mp hpaths
  have hmem := List.mem_of_getElem? hb
  have hfiled := (section_paths_are_the_open_headings fencedComment b hmem).1
  exact ⟨b, hmem, hpath, hfiled.symm.trans hpath⟩

end Ragent.SectionPaths
