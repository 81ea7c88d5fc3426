import Ragent.FlowText

set_option autoImplicit false

/-!
# Where flow blocks lie

The blocks of `split_markdown` and `split_plain` read exactly as their ranges of the source do,
come in order, and leave only white space outside.
-/
namespace Ragent.FlowBlocks
open SpacedWords PyText SourceTypes FlowText

section
variable {α : Type} [Glyph α]

def range (b : FlowBlock α) : ℕ × ℕ := (b.charStart, b.charEnd)

def blockKinds : List String := ["paragraph", "heading", "table", "list"]

structure Exact (source : List α) (b : FlowBlock α) : Prop where
  text : b.text = slice source b.charStart b.charEnd
  stripped : strip b.text = b.text
  inside : b.charEnd ≤ source.length
  notBlank : words space b.text ≠ []
  kind : b.kind ∈ blockKinds

structure SplitTo (source : List α) (e : ℕ) (bs : List (FlowBlock α)) : Prop where
  tiles : TilesTo space source e 0 (bs.map range)
  exact : ∀ b ∈ bs, Exact source b

/-- What `_emit` makes of a range that reads `front ++ mid ++ back`. -/
theorem emit_of_split {source front mid back : List α} {start stop : ℕ} (kind : String)
    (sectionPath : List String) (hraw : slice source start stop = front ++ mid ++ back)
    (hlen : stop = start + (front.length + mid.length + back.length)) (hne : mid ≠ [])
    (hstrip : strip (front ++ mid ++ back) = mid)
    (hdrop : (front ++ mid ++ back).dropWhile space = mid ++ back)
    (hrdrop : (front ++ mid ++ back).rdropWhile space = front ++ mid) :
    ∃ b, emit source start stop kind sectionPath = some b ∧ b.charStart = start + front.length ∧
      b.charEnd = start + front.length + mid.length ∧ b.text = mid ∧ b.kind = kind ∧
      b.sectionPath = sectionPath := by
  have hpos := List.length_pos_iff.mpr hne
  have hlead : (front ++ mid ++ back).length - (mid ++ back).length = front.length := by
    simp only [List.length_append]
    omega
  have htrail : (front ++ mid ++ back).length - (front ++ mid).length = back.length := by
    simp only [List.length_append]
    omega
  have hlt : ¬ stop - back.length ≤ start + front.length := by omega
  unfold emit
  simp only [hraw, hdrop, hrdrop, hlead, htrail, hstrip]
  rw [dif_neg hlt]
  exact ⟨_, rfl, rfl, by change stop - back.length = _; omega, rfl, rfl, rfl⟩

theorem emit_of_blank {source : List α} {start stop : ℕ} (kind : String)
    (sectionPath : List String) (hle : start ≤ stop) (hstop : stop ≤ source.length)
    (h : ∀ a ∈ slice source start stop, space a = true) :
    emit source start stop kind sectionPath = none := by
  have hdrop : (slice source start stop).dropWhile space = [] := List.dropWhile_eq_nil_iff.mpr h
  have hlen : (slice source start stop).length = stop - start := by
    rw [slice_length, Nat.min_eq_left hstop]
  unfold emit
  simp only [hdrop, List.length_nil, Nat.sub_zero, hlen]
  rw [dif_pos (by omega)]

theorem strip_of_emit {source : List α} {start stop : ℕ} {kind : String}
    {sectionPath : List String} {b : FlowBlock α}
    (h : emit source start stop kind sectionPath = some b) : strip b.text = b.text := by
  unfold emit at h
  simp only at h
  split at h
  · cases h
  · cases h
    exact trim_trim _

theorem emit_spec {source : List α} {start stop : ℕ} (kind : String) (sectionPath : List String)
    (hle : start ≤ stop) (hstop : stop ≤ source.length) :
    (emit source start stop kind sectionPath = none ∧
      ∀ a ∈ slice source start stop, space a = true) ∨
    ∃ b, emit source start stop kind sectionPath = some b ∧ start ≤ b.charStart ∧
      b.charEnd ≤ stop ∧ (∀ a ∈ slice source start b.charStart, space a = true) ∧
      (∀ a ∈ slice source b.charEnd stop, space a = true) ∧
      b.text = slice source b.charStart b.charEnd ∧ words space b.text ≠ [] ∧ b.kind = kind := by
  have hlen : (slice source start stop).length = stop - start := by
    rw [slice_length, Nat.min_eq_left hstop]
  have hinner : ∀ s e, start + e ≤ stop → slice source (start + s) (start + e) =
      slice (slice source start stop) s e := fun s e he => by
    rw [slice_slice, Nat.min_eq_right he]
  by_cases hblank : strip (slice source start stop) = []
  · have hall := words_eq_nil_iff.mp (strip_eq_nil_iff.mp hblank)
    exact Or.inl ⟨emit_of_blank kind sectionPath hle hstop hall, hall⟩
  · obtain ⟨front, back, hsplit, hfront, hback, hdrop, hrdrop⟩ := trim_split hblank
    have hwords : words space (strip (slice source start stop)) ≠ [] := fun h0 =>
      hblank (strip_eq_nil_iff.mpr (by rwa [words_strip] at h0))
    change slice source start stop = front ++ strip (slice source start stop) ++ back at hsplit
    change _ = strip (slice source start stop) ++ back at hdrop
    change _ = front ++ strip (slice source start stop) at hrdrop
    have hstrip : strip (slice source start stop) = strip (slice source start stop) := rfl
    generalize hmid : strip (slice source start stop) = mid at *
    generalize hraw : slice source start stop = raw at *
    subst hsplit
    simp only [List.length_append] at hlen
    obtain ⟨b, hb, hs, he, htext, hkind, -⟩ := emit_of_split kind sectionPath hraw (by omega) hblank
      hmid hdrop hrdrop
    refine Or.inr ⟨b, hb, by omega, by omega, ?_, ?_, ?_, htext ▸ hwords, hkind⟩
    · have hslice := hinner 0 front.length (by omega)
      rw [Nat.add_zero, List.append_assoc, slice_zero, List.take_left] at hslice
      rw [hs, hslice]
      exact hfront
    · have hslice := hinner (front.length + mid.length)
        (front.length + mid.length + back.length) (by omega)
      have hstop' : start + (front.length + mid.length + back.length) = stop := by omega
      rw [hstop', ← List.length_append, ← List.length_append, slice_to_end, List.drop_left,
        List.length_append] at hslice
      rw [he, Nat.add_assoc, hslice]
      exact hback
    · have hslice := hinner front.length (front.length + mid.length) (by omega)
      have hmiddle : slice (front ++ mid ++ back) front.length (front.length + mid.length) = mid := by
        rw [slice, ← List.length_append, List.take_left, List.drop_left]
      rw [hs, he, htext, Nat.add_assoc, hslice, hmiddle]

theorem SplitTo.emit {source : List α} {start stop : ℕ} {bs : List (FlowBlock α)}
    (h : SplitTo source start bs) {kind : String} (sectionPath : List String)
    (hkind : kind ∈ blockKinds) (hle : start ≤ stop) (hstop : stop ≤ source.length)
    (hcut : IsCut space source stop) :
    SplitTo source stop (bs ++ (FlowText.emit source start stop kind sectionPath).toList) := by
  rcases emit_spec kind sectionPath hle hstop with ⟨hnone, hgap⟩ |
    ⟨b, hb, hs, he, hfront, hback, htext, hwords, hk⟩
  · rw [hnone, Option.toList_none, List.append_nil]
    exact ⟨h.tiles.widen hle hgap, h.exact⟩
  · have hend : IsCut space source b.charEnd := by
      rcases Nat.eq_or_lt_of_le he with heq | hlt
      · exact heq ▸ hcut
      · exact isCut_of_space_after fun a ha =>
          hback a (mem_slice.mpr ⟨b.charEnd, le_refl _, hlt, ha⟩)
    rw [hb, Option.toList_some]
    constructor
    · rw [List.map_append, List.map_singleton]
      exact (h.tiles.snoc hs b.nonempty.le hfront hend).widen he hback
    · intro b' hb'
      rcases List.mem_append.mp hb' with hb' | hb'
      · exact h.exact b' hb'
      · rw [List.mem_singleton.mp hb']
        exact ⟨htext, strip_of_emit hb, he.trans hstop, hwords, hk ▸ hkind⟩

theorem splitlines_flatten (text : List α) : (splitlines text).flatten = text := by
  induction text with
  | nil => rfl
  | cons a text ih =>
    unfold splitlines
    simp only
    split_ifs
    · rw [List.flatten_cons, ih, List.singleton_append]
    · cases hl : splitlines text with
      | nil =>
        rw [hl] at ih
        simp [← ih]
      | cons line lines =>
        rw [hl, List.flatten_cons] at ih
        simp [← ih]

theorem splitlines_break (text : List α) : ∀ line ∈ (splitlines text).dropLast,
    ∃ a, line.getLast? = some a ∧ isLineBreak (Glyph.char a) = true := by
  induction text with
  | nil => simp [splitlines]
  | cons a text ih =>
    unfold splitlines
    simp only
    split_ifs with hbreak
    · intro line hline
      cases hl : splitlines text with
      | nil => simp [hl] at hline
      | cons l lines =>
        rw [hl] at ih hline
        rw [List.dropLast_cons_of_ne_nil (List.cons_ne_nil l lines), List.mem_cons] at hline
        rcases hline with rfl | hline
        · exact ⟨a, rfl, by simpa using (Bool.and_eq_true_iff.mp hbreak).1⟩
        · exact ih line hline
    · intro line hline
      cases hl : splitlines text with
      | nil => simp [hl] at hline
      | cons l lines =>
        rw [hl] at ih hline
        cases lines with
        | nil => simp at hline
        | cons l' lines =>
          rw [List.dropLast_cons_of_ne_nil (List.cons_ne_nil l' lines), List.mem_cons] at hline
          rw [List.dropLast_cons_of_ne_nil (List.cons_ne_nil l' lines)] at ih
          rcases hline with rfl | hline
          · obtain ⟨c, hc, hb⟩ := ih l List.mem_cons_self
            cases l with
            | nil => simp at hc
            | cons d l => exact ⟨c, by rwa [List.getLast?_cons_cons], hb⟩
          · exact ih line (List.mem_cons_of_mem _ hline)

theorem isSpace_of_isLineBreak {c : Char} (h : isLineBreak c = true) : isSpace c = true := by
  simp only [isLineBreak, isSpace, Bool.or_eq_true, Bool.and_eq_true, decide_eq_true_eq,
    beq_iff_eq] at *
  omega

theorem splitlines_tail (text : List α) : ∀ line ∈ splitlines text,
    ∀ a ∈ line.dropWhile (fun a => !isLineBreak (Glyph.char a)), space a = true := by
  induction text with
  | nil => simp [splitlines]
  | cons a text ih =>
    unfold splitlines
    simp only
    split_ifs with hbreak
    · have ha := (Bool.and_eq_true_iff.mp hbreak).1
      intro line hline
      rcases List.mem_cons.mp hline with rfl | hline
      · intro b hb
        rw [List.mem_singleton.mp ((List.dropWhile_sublist _).subset hb)]
        exact isSpace_of_isLineBreak ha
      · exact ih line hline
    · cases hlb : isLineBreak (Glyph.char a) with
      | false =>
        -- the line grows in front of its content
        cases hl : splitlines text with
        | nil => simp [hlb]
        | cons l lines =>
          rw [hl] at ih
          intro line hline
          rcases List.mem_cons.mp hline with rfl | hline
          · rw [List.dropWhile_cons_of_pos (by simp [hlb])]
            exact ih l List.mem_cons_self
          · exact ih line (List.mem_cons_of_mem l hline)
      | true =>
        -- a carriage return in front of its line feed
        have hcr : text.head?.map Glyph.char = some '\n' := by
          simp only [hlb, Bool.true_and, Bool.not_eq_true', Bool.not_eq_false, Bool.and_eq_true,
            beq_iff_eq] at hbreak
          exact hbreak.2
        cases text with
        | nil => simp at hcr
        | cons n rest =>
          have hn : Glyph.char n = '\n' := by simpa using hcr
          have hlines : splitlines (n :: rest) = [n] :: splitlines rest := by
            rw [splitlines]
            simp only [hn]
            rfl
          rw [hlines] at ih ⊢
          intro line hline
          rcases List.mem_cons.mp hline with rfl | hline
          · intro b hb
            rcases List.mem_cons.mp ((List.dropWhile_sublist _).subset hb) with rfl | hb
            · exact isSpace_of_isLineBreak hlb
            · rw [List.mem_singleton.mp hb, space, hn]
              rfl
          · exact ih line (List.mem_cons_of_mem _ hline)

/-- Where line `i` starts, or the end of the text behind the last line. -/
def offset (text : List α) (i : ℕ) : ℕ := ((splitlines text).take i).flatten.length

theorem offset_length (text : List α) {i : ℕ} (h : (splitlines text).length ≤ i) :
    offset text i = text.length := by
  rw [offset, List.take_of_length_le h, splitlines_flatten]

theorem offset_mono (text : List α) {i j : ℕ} (h : i ≤ j) : offset text i ≤ offset text j := by
  have hpre : (splitlines text).take i <+: (splitlines text).take j :=
    List.take_prefix_take_left h
  exact (List.IsPrefix.sublist (List.IsPrefix.flatten hpre)).length_le

theorem take_offset (text : List α) (i : ℕ) :
    text.take (offset text i) = ((splitlines text).take i).flatten := by
  have hpre : ((splitlines text).take i).flatten <+: (splitlines text).flatten :=
    List.IsPrefix.flatten (List.take_prefix i _)
  rw [splitlines_flatten] at hpre
  exact (List.prefix_iff_eq_take.mp hpre).symm

omit [Glyph α] in
theorem spansOf_getElem? (cursor : ℕ) (lines : List (List α)) (i : ℕ) (h : i < lines.length) :
    (spansOf cursor lines)[i]? =
      some (cursor + (lines.take i).flatten.length, cursor + (lines.take (i + 1)).flatten.length) := by
  induction lines generalizing cursor i with
  | nil => simp at h
  | cons line lines ih =>
    cases i with
    | zero => simp [spansOf]
    | succ i =>
      have hi := ih (cursor + line.length) i (by simpa using h)
      rw [spansOf, List.getElem?_cons_succ, hi]
      simp [Nat.add_assoc]

theorem lineSpans_getD (text : List α) {i : ℕ} (h : i < (splitlines text).length) :
    (lineSpans text).getD i (0, 0) = (offset text i, offset text (i + 1)) := by
  rw [List.getD_eq_getElem?_getD, lineSpans, spansOf_getElem? 0 _ i h]
  simp [offset]

theorem isCut_offset (text : List α) (i : ℕ) : IsCut space text (offset text i) := by
  rcases Nat.lt_or_ge i (splitlines text).length with hlt | hge
  · cases i with
    | zero =>
      have h0 : offset text 0 = 0 := rfl
      exact h0 ▸ isCut_zero text
    | succ i =>
      have hbound : i < (splitlines text).length := by omega
      have hlast : (splitlines text)[i] ∈ (splitlines text).dropLast := by
        rw [List.mem_iff_getElem]
        exact ⟨i, by simp; omega, by simp⟩
      obtain ⟨a, ha, hbreak⟩ := splitlines_break text _ hlast
      apply apart_of_last
      intro b hb
      rw [take_offset, List.take_succ_eq_append_getElem (by omega), List.flatten_append,
        List.flatten_singleton, List.getLast?_append, ha] at hb
      have hab : a = b := by simpa using hb
      exact hab ▸ isSpace_of_isLineBreak hbreak
  · rw [offset_length text hge]
    exact isCut_of_length_le (le_refl _)

theorem chompedLines_getD (text : List α) {i : ℕ} (h : i < (splitlines text).length) :
    (chompedLines text).getD i [] =
      (plain ((splitlines text)[i])).takeWhile fun c => !isLineBreak c := by
  simp [chompedLines, List.getD_eq_getElem?_getD, h]

theorem slice_line (text : List α) {i : ℕ} (hi : i < (splitlines text).length) :
    slice text (offset text i) (offset text (i + 1)) = (splitlines text)[i] := by
  rw [slice, take_offset, List.take_succ_eq_append_getElem hi, List.flatten_append,
    List.flatten_singleton, offset, List.drop_left]

theorem blank_line (text : List α) {i : ℕ} (hi : i < (splitlines text).length)
    (h : strip ((chompedLines text).getD i []) = []) :
    ∀ a ∈ slice text (offset text i) (offset text (i + 1)), space a = true := by
  have hslice := slice_line text hi
  have htail := splitlines_tail text _ (List.getElem_mem hi)
  rw [chompedLines_getD text hi] at h
  have hhead := words_eq_nil_iff.mp (strip_eq_nil_iff.mp h)
  rw [hslice]
  generalize (splitlines text)[i] = line at htail hhead
  intro a ha
  rw [← List.takeWhile_append_dropWhile (p := fun a => !isLineBreak (Glyph.char a)) (l := line),
    List.mem_append] at ha
  rcases ha with ha | ha
  · refine hhead (Glyph.char a) ?_
    rw [plain, List.takeWhile_map]
    exact List.mem_map_of_mem ha
  · exact htail a ha

/-- What the loop state of `split_markdown` means in front of line `i`: the blocks tile the source
    up to the pending block, or up to the line. -/
structure MarkdownInv (source : List α) (st : MarkdownState α) (i : ℕ) : Prop where
  split : SplitTo source (st.pendingStart.getD (offset source i)) st.blocks
  behind : st.pendingStart.getD (offset source i) ≤ offset source i
  first : st.pendingStart.isSome → 0 < i
  kind : st.pendingKind ∈ blockKinds

section
variable {source : List α} {st : MarkdownState α} {i : ℕ}

theorem offset_le (source : List α) (i : ℕ) : offset source i ≤ source.length := by
  rw [← offset_length source (Nat.le_max_right i (splitlines source).length)]
  exact offset_mono source (le_max_left _ _)

theorem addBlock_split {start stop : ℕ} {kind : String} (h : SplitTo source start st.blocks)
    (hkind : kind ∈ blockKinds) (hle : start ≤ stop) (hstop : stop ≤ source.length)
    (hcut : IsCut space source stop) :
    SplitTo source stop (addBlock source st start stop kind).blocks :=
  h.emit st.sectionPath hkind hle hstop hcut

/-- `flush` closes the pending block where line `i` starts. -/
theorem flush_inv (h : MarkdownInv source st i) (hi : i ≤ (splitlines source).length) :
    MarkdownInv source (flush source (lineSpans source) st i) i ∧
      (flush source (lineSpans source) st i).pendingStart = none := by
  unfold flush
  cases hp : st.pendingStart with
  | none => exact ⟨h, hp⟩
  | some start =>
    have hpos := h.first (by simp [hp])
    have hend : ((lineSpans source).getD (i - 1) (0, 0)).2 = offset source i := by
      rw [lineSpans_getD source (by omega), Nat.sub_add_cancel hpos]
    have hsplit := h.split
    have hbehind := h.behind
    rw [hp, Option.getD_some] at hsplit hbehind
    refine ⟨⟨?_, le_refl _, by simp, h.kind⟩, rfl⟩
    rw [hend]
    exact addBlock_split hsplit h.kind hbehind (offset_le source i) (isCut_offset source i)

theorem flush_split (h : MarkdownInv source st i) (hi : i ≤ (splitlines source).length) :
    SplitTo source (offset source i) (flush source (lineSpans source) st i).blocks := by
  obtain ⟨hinv, hnone⟩ := flush_inv h hi
  have hsplit := hinv.split
  rwa [hnone, Option.getD_none] at hsplit

theorem fenceStep_inv (h : MarkdownInv source st i) (hi : i < (splitlines source).length)
    (marker : List Char) :
    MarkdownInv source
      (fenceStep source (chompedLines source) (lineSpans source) st i marker).2
      (fenceStep source (chompedLines source) (lineSpans source) st i marker).1 := by
  obtain ⟨hinv, hnone⟩ := flush_inv h hi.le
  have hlen : (chompedLines source).length = (splitlines source).length := by simp [chompedLines]
  have hj : i + 1 ≤ closingLine (chompedLines source) marker (i + 1) := Nat.le_add_right _ _
  have hclose : ((lineSpans source).getD (min (closingLine (chompedLines source) marker (i + 1))
      ((chompedLines source).length - 1)) (0, 0)).2 =
        offset source (closingLine (chompedLines source) marker (i + 1) + 1) := by
    rw [lineSpans_getD source (by omega), hlen]
    rcases Nat.lt_or_ge (closingLine (chompedLines source) marker (i + 1))
      (splitlines source).length with hlt | hge
    · rw [Nat.min_eq_left (by omega)]
    · rw [Nat.min_eq_right (by omega)]
      change offset source ((splitlines source).length - 1 + 1) = _
      rw [offset_length source (show (splitlines source).length ≤
        (splitlines source).length - 1 + 1 by omega), offset_length source (by omega)]
  unfold fenceStep
  simp only [hclose, lineSpans_getD source hi]
  have hsplit := addBlock_split (flush_split h hi.le) (show "paragraph" ∈ blockKinds by decide)
    (offset_mono source (show i ≤ closingLine (chompedLines source) marker (i + 1) + 1 by omega))
    (offset_le source _) (isCut_offset source _)
  have hpending : (addBlock source (flush source (lineSpans source) st i) (offset source i)
      (offset source (closingLine (chompedLines source) marker (i + 1) + 1))
      "paragraph").pendingStart = none := hnone
  exact ⟨by rw [hpending]; exact hsplit, by rw [hpending]; exact le_refl _,
    by rw [hpending]; simp, hinv.kind⟩

theorem headingStep_inv (h : MarkdownInv source st i) (hi : i < (splitlines source).length)
    (level : ℕ) (title : String) :
    MarkdownInv source (headingStep source (lineSpans source) st i level title) (i + 1) := by
  obtain ⟨hinv, hnone⟩ := flush_inv h hi.le
  have hsplit := (flush_split h hi.le).emit
    (((flush source (lineSpans source) st i).stack.rdropWhile
      fun heading => decide (level ≤ heading.1)) ++ [(level, title)] |>.map (·.2))
    (show "heading" ∈ blockKinds by decide) (offset_mono source (Nat.le_succ i))
    (offset_le source _) (isCut_offset source (i + 1))
  have hpending : (headingStep source (lineSpans source) st i level title).pendingStart = none :=
    hnone
  refine ⟨?_, by rw [hpending]; exact le_refl _, by rw [hpending]; simp, hinv.kind⟩
  rw [hpending]
  unfold headingStep addBlock
  simp only [lineSpans_getD source hi]
  exact hsplit

theorem lineKind_mem (line : List Char) : lineKind line ∈ blockKinds := by
  unfold lineKind
  split_ifs <;> decide

theorem textStep_inv (h : MarkdownInv source st i) (hi : i < (splitlines source).length)
    {kind : String} (hkind : kind ∈ blockKinds) :
    MarkdownInv source (textStep source (lineSpans source) st i kind) (i + 1) := by
  have hmono := offset_mono source (Nat.le_succ i)
  unfold textStep
  simp only [lineSpans_getD source hi]
  cases hp : st.pendingStart with
  | none =>
    have hsplit := h.split
    rw [hp, Option.getD_none] at hsplit
    exact ⟨hsplit, hmono, fun _ => Nat.succ_pos i, hkind⟩
  | some start =>
    simp only
    split_ifs
    · have hsplit := h.split
      have hbehind := h.behind
      rw [hp, Option.getD_some] at hsplit hbehind
      exact ⟨by rw [hp]; exact hsplit, by rw [hp]; exact hbehind.trans hmono,
        fun _ => Nat.succ_pos i, h.kind⟩
    · exact ⟨flush_split h hi.le, hmono, fun _ => Nat.succ_pos i, hkind⟩

theorem lineStep_inv (h : MarkdownInv source st i) (hi : i < (splitlines source).length) :
    MarkdownInv source (lineStep source (chompedLines source) (lineSpans source) st i).2
      (lineStep source (chompedLines source) (lineSpans source) st i).1 := by
  unfold lineStep
  simp only
  split
  · exact fenceStep_inv h hi _
  · exact headingStep_inv h hi _ _
  · split_ifs with hblank
    · obtain ⟨hinv, hnone⟩ := flush_inv h hi.le
      have hgap := blank_line source hi (List.isEmpty_iff.mp hblank)
      have hmono := offset_mono source (Nat.le_succ i)
      refine ⟨?_, by rw [hnone]; exact le_refl _, by rw [hnone]; simp, hinv.kind⟩
      rw [hnone]
      exact ⟨(flush_split h hi.le).tiles.widen hmono hgap, (flush_split h hi.le).exact⟩
    · exact textStep_inv h hi (lineKind_mem _)

theorem markdownLoop_split (h : MarkdownInv source st i)
    (hfirst : st.pendingStart.isSome → 0 < (splitlines source).length) :
    SplitTo source source.length
      (markdownLoop source (chompedLines source) (lineSpans source) st i).blocks := by
  have hlen : (chompedLines source).length = (splitlines source).length := by simp [chompedLines]
  induction hn : (splitlines source).length - i using Nat.strong_induction_on
    generalizing st i with
  | _ n ih =>
    unfold markdownLoop
    split_ifs with hi
    · rw [hlen] at hi
      have hnext := lt_lineStep source (chompedLines source) (lineSpans source) st i
      exact ih _ (by omega) (lineStep_inv h hi) (fun _ => by omega) rfl
    · -- a fence that is never closed leaves `i` behind the last line
      rw [hlen] at hi ⊢
      have hoffset : offset source i = offset source (splitlines source).length := by
        rw [offset_length source (Nat.le_of_not_lt hi), offset_length source (le_refl _)]
      have hend : MarkdownInv source st (splitlines source).length :=
        ⟨hoffset ▸ h.split, hoffset ▸ h.behind, hfirst, h.kind⟩
      have hsplit := flush_split hend (le_refl _)
      rwa [offset_length source (le_refl _)] at hsplit

end

/-- The blocks of a splitter: they read as their ranges, come in order, and leave only white space
    outside. -/
structure FlowSplit (source : List α) (bs : List (FlowBlock α)) : Prop where
  tiles : Tiles space source 0 (bs.map range)
  exact : ∀ b ∈ bs, Exact source b

theorem splitMarkdown_flowSplit (source : List α) : FlowSplit source (splitMarkdown source) := by
  have hinit : MarkdownInv source ({} : MarkdownState α) 0 :=
    ⟨⟨⟨le_refl 0, by simp [offset, slice]⟩, by simp⟩, le_refl _, by simp,
      show "paragraph" ∈ blockKinds by decide⟩
  have h := markdownLoop_split hinit (by simp)
  exact ⟨h.tiles.tiles, h.exact⟩

theorem blankLines_le (text : List Char) : blankLines text ≤ text.length ∧
    ∀ c ∈ text.take (blankLines text), isSpace c = true := by
  cases text with
  | nil => simp [blankLines]
  | cons c text =>
    have hrun : (text.takeWhile isSpace).rdropWhile (· != '\n') <+: text :=
      (List.rdropWhile_prefix _ _).trans (List.takeWhile_prefix _)
    unfold blankLines
    simp only
    split_ifs with hmatch
    · have hc : c = '\n' := by simpa using (Bool.and_eq_true_iff.mp hmatch).1
      rw [Nat.add_comm, List.take_succ_cons, ← List.prefix_iff_eq_take.mp hrun]
      refine ⟨by simpa using hrun.length_le, fun d hd => ?_⟩
      rcases List.mem_cons.mp hd with rfl | hd
      · rw [hc]
        rfl
      · exact List.mem_takeWhile_imp ((List.rdropWhile_prefix _ _).subset hd)
    · simp

theorem blankRunsFrom_gaps (front text : List Char) (resume : ℕ) :
    Gaps isSpace (front ++ text) (max resume front.length)
      (blankRunsFrom front.length resume text) := by
  induction text generalizing front resume with
  | nil => trivial
  | cons c text ih =>
    have hnext : ∀ resume, Gaps isSpace (front ++ c :: text) (max resume (front.length + 1))
        (blankRunsFrom (front.length + 1) resume text) := by
      intro resume
      have htail := ih (front ++ [c]) resume
      rwa [List.append_assoc, List.singleton_append, List.length_append,
        List.length_singleton] at htail
    unfold blankRunsFrom
    simp only
    split_ifs with hmatch
    · refine ⟨max_le hmatch.1 (le_refl _), Nat.lt_add_of_pos_right hmatch.2, fun a ha => ?_,
        (hnext _).of_le (le_max_left _ _)⟩
      rw [slice_append_right front _ _ (le_refl _), Nat.sub_self, slice_zero] at ha
      exact (blankLines_le (c :: text)).2 a ha
    · exact (hnext resume).of_le (by omega)

theorem blankRunsFrom_inside (text : List Char) (i resume : ℕ) :
    ∀ m ∈ blankRunsFrom i resume text, m.2 ≤ i + text.length := by
  induction text generalizing i resume with
  | nil => simp [blankRunsFrom]
  | cons c text ih =>
    have hle := (blankLines_le (c :: text)).1
    unfold blankRunsFrom
    simp only
    split_ifs
    · intro m hm
      rcases List.mem_cons.mp hm with rfl | hm
      · change i + blankLines (c :: text) ≤ _
        omega
      · have := ih _ _ m hm
        rw [List.length_cons]
        omega
    · intro m hm
      have := ih _ _ m hm
      rw [List.length_cons]
      omega

theorem plainPiece_split (piece : ℕ × ℕ) {source : List α} {bs : List (FlowBlock α)}
    (h : SplitTo source piece.1 bs) (hle : piece.1 ≤ piece.2) (hstop : piece.2 ≤ source.length)
    (hcut : IsCut space source piece.2) :
    SplitTo source piece.2 (bs ++ (plainPiece source piece).toList) := by
  unfold plainPiece
  simp only
  split_ifs with hskip
  · have hblank : ∀ a ∈ slice source piece.1 piece.2, space a = true := by
      rcases Bool.or_eq_true_iff.mp hskip with hempty | hrun
      · have hnil : slice source piece.1 piece.2 = [] := by simpa [plain] using hempty
        simp [hnil]
      · unfold isBlankRun at hrun
        simp only [Bool.and_eq_true, List.all_eq_true] at hrun
        exact fun a ha => hrun.1.1.1 _ (List.mem_map_of_mem ha)
    rw [Option.toList_none, List.append_nil]
    exact ⟨h.tiles.widen hle hblank, h.exact⟩
  · exact h.emit [] (show "paragraph" ∈ blockKinds by decide) hle hstop hcut

theorem piecesOf_split {source : List α} (ms : List (ℕ × ℕ)) {cursor : ℕ}
    {bs : List (FlowBlock α)} (h : SplitTo source cursor bs) (hle : cursor ≤ source.length)
    (hgaps : Gaps space source cursor ms) (hin : ∀ m ∈ ms, m.2 ≤ source.length) :
    SplitTo source source.length
      (bs ++ (piecesOf source.length cursor ms).filterMap (plainPiece source)) := by
  induction ms generalizing cursor bs with
  | nil =>
    have hlast := plainPiece_split (cursor, source.length) h hle (le_refl _)
      (isCut_of_length_le (le_refl _))
    rw [piecesOf, List.filterMap_cons]
    cases hp : plainPiece source (cursor, source.length) <;> simpa [hp] using hlast
  | cons m ms ih =>
    obtain ⟨h1, h2, h3, h4⟩ := hgaps
    have hm := hin m List.mem_cons_self
    have hcut : IsCut space source m.1 := isCut_of_space_after fun a ha =>
      h3 a (mem_slice.mpr ⟨m.1, le_refl _, h2, ha⟩)
    have hcut' : IsCut space source m.2 := by
      obtain ⟨k, hk⟩ : ∃ k, m.2 = k + 1 := ⟨m.2 - 1, by omega⟩
      rw [hk]
      exact isCut_of_space_before fun a ha => h3 a (mem_slice.mpr ⟨k, by omega, by omega, ha⟩)
    have hpiece := plainPiece_split (cursor, m.1) h h1 (by change m.1 ≤ _; omega) hcut
    have hsep := plainPiece_split m hpiece h2.le hm hcut'
    have hrest := ih hsep hm h4 fun m' hm' => hin m' (List.mem_cons_of_mem m hm')
    rw [piecesOf, List.filterMap_cons, List.filterMap_cons]
    cases hp : plainPiece source (cursor, m.1) <;> cases hq : plainPiece source m <;>
      simpa [hp, hq] using hrest

theorem gaps_plain (source : List α) {p : ℕ} {ms : List (ℕ × ℕ)}
    (h : Gaps isSpace (plain source) p ms) : Gaps space source p ms := by
  induction ms generalizing p with
  | nil => trivial
  | cons m ms ih =>
    obtain ⟨h1, h2, h3, h4⟩ := h
    refine ⟨h1, h2, fun a ha => h3 (Glyph.char a) ?_, ih h4⟩
    rw [← plain_slice]
    exact List.mem_map_of_mem ha

theorem splitPlain_flowSplit (source : List α) : FlowSplit source (splitPlain source) := by
  have hinit : SplitTo source 0 ([] : List (FlowBlock α)) := ⟨⟨le_refl 0, by simp [slice]⟩, by simp⟩
  have hgaps := gaps_plain source (blankRunsFrom_gaps [] (plain source) 0)
  have hin := blankRunsFrom_inside (plain source) 0 0
  rw [Nat.zero_add, plain_length] at hin
  have h := piecesOf_split _ hinit (Nat.zero_le _) hgaps hin
  exact ⟨h.tiles.tiles, h.exact⟩

/-- Blocks in the order of the text, each the stripped text of its own range, with every visible
    character in one of them. -/
structure Lossless (source : List α) (bs : List (FlowBlock α)) : Prop where
  ordered : bs.Pairwise fun b b' => b.charEnd ≤ b'.charStart
  inside : ∀ b ∈ bs, b.charStart < b.charEnd ∧ b.charEnd ≤ source.length
  reads : ∀ b ∈ bs, slice source b.charStart b.charEnd = b.text ∧ strip b.text = b.text
  once : ∀ (i : ℕ) (a : α), source[i]? = some a → space a = false →
    ∃! j : ℕ, ∃ b, bs[j]? = some b ∧ b.charStart ≤ i ∧ i < b.charEnd

theorem FlowSplit.lossless {source : List α} {bs : List (FlowBlock α)} (h : FlowSplit source bs) :
    Lossless source bs := by
  have hordered : bs.Pairwise fun b b' => b.charEnd ≤ b'.charStart :=
    List.pairwise_map.mp h.tiles.ordered
  constructor
  · exact hordered
  · exact fun b hb => ⟨b.nonempty, (h.exact b hb).inside⟩
  · exact fun b hb => ⟨(h.exact b hb).text.symm, (h.exact b hb).stripped⟩
  · intro i a hi ha
    obtain ⟨r, hr, hstart, hend⟩ := h.tiles.covers (Nat.zero_le i) hi ha
    obtain ⟨b, hb, rfl⟩ := List.mem_map.mp hr
    obtain ⟨j, hj⟩ := List.mem_iff_getElem?.mp hb
    refine ⟨j, ⟨b, hj, hstart, hend⟩, ?_⟩
    rintro k ⟨b', hk, hstart', hend'⟩
    -- of two blocks the first ends before the other starts
    obtain ⟨hjlt, rfl⟩ := List.getElem?_eq_some_iff.mp hj
    obtain ⟨hklt, rfl⟩ := List.getElem?_eq_some_iff.mp hk
    have hapart := List.pairwise_iff_getElem.mp hordered
    change bs[j].charStart ≤ i at hstart
    change i < bs[j].charEnd at hend
    by_contra hne
    rcases Nat.lt_or_gt_of_ne hne with hlt | hgt
    · have := hapart k j hklt hjlt hlt
      omega
    · have := hapart j k hjlt hklt hgt
      omega

/-- `split_markdown` and `split_plain` lose nothing; that no `FlowBlock` is refused is in their
    types. -/
theorem flow_splitting_is_lossless (text : List Char) :
    Lossless text (splitMarkdown text) ∧ Lossless text (splitPlain text) :=
  ⟨(splitMarkdown_flowSplit text).lossless, (splitPlain_flowSplit text).lossless⟩

end
end Ragent.FlowBlocks
