import Ragent.CsvBlocks

set_option autoImplicit false

/-!
# Records between lines

The CSV reader cuts the text into records, `split_csv` into lines. Every record begins and ends
between two lines, so it takes a run of the rows; where the run begins and ends is counted here.
-/
namespace Ragent.RecordRows
open SpacedWords PyText FlowText FlowBlocks CsvReader CsvBlocks

/-- The rows above a record, the header line not counted. -/
def rowsAbove (text : List Char) (r : Record) : ℕ := rowCount (text.take r.start) - 1

section
variable {text : List Char}

theorem splitlines_ne_nil (text : List Char) : ∀ line ∈ splitlines text, line ≠ [] := by
  induction text with
  | nil => simp [splitlines]
  | cons c text ih =>
    unfold splitlines
    simp only
    split_ifs
    · simpa using ih
    · cases hl : splitlines text with
      | nil => simp
      | cons line lines =>
        rw [hl] at ih
        simp only [List.mem_cons, forall_eq_or_imp] at ih ⊢
        exact ⟨List.cons_ne_nil c line, ih.2⟩

theorem offset_lt {idx : ℕ} (h : idx < (splitlines text).length) :
    offset text idx < offset text (idx + 1) := by
  have hne := splitlines_ne_nil text _ (List.getElem_mem h)
  have hpos := List.length_pos_iff.mpr hne
  rw [offset, offset, List.take_succ_eq_append_getElem h, List.flatten_append,
    List.flatten_singleton, List.length_append]
  omega

/-- `splitlines` cuts between `c` and `text`. -/
def endsLine (c : Char) (text : List Char) : Bool :=
  isLineBreak c && !(c == '\r' && text.head? == some '\n')

theorem splitlines_of_endsLine {c : Char} {text : List Char} (h : endsLine c text = true) :
    splitlines (c :: text) = [c] :: splitlines text := by
  unfold endsLine at h
  rw [splitlines]
  simp only [Glyph.char, Option.map_id']
  rw [if_pos h]

theorem splitlines_of_not_endsLine {c : Char} {text line : List Char} {lines : List (List Char)}
    (h : endsLine c text = false) (hl : splitlines text = line :: lines) :
    splitlines (c :: text) = (c :: line) :: lines := by
  unfold endsLine at h
  rw [splitlines, hl]
  simp only [Glyph.char, Option.map_id']
  rw [if_neg (by rw [h]; exact Bool.false_ne_true)]

theorem splitlines_append {front : List Char} (back : List Char)
    (h : front.getLast? = some '\n') :
    splitlines (front ++ back) = splitlines front ++ splitlines back := by
  induction front with
  | nil => cases h
  | cons c front ih =>
    cases front with
    | nil =>
      cases h
      rfl
    | cons d front =>
      have hrest := ih (List.getLast?_cons_cons ▸ h)
      have hsame : endsLine c (d :: front ++ back) = endsLine c (d :: front) := rfl
      cases hbreak : endsLine c (d :: front) with
      | true =>
        rw [List.cons_append, splitlines_of_endsLine (hsame.trans hbreak), hrest,
          splitlines_of_endsLine hbreak, List.cons_append]
      | false =>
        cases hl : splitlines (d :: front) with
        | nil =>
          have hnil := splitlines_flatten (d :: front)
          rw [hl] at hnil
          cases hnil
        | cons line lines =>
          rw [hl] at hrest
          rw [splitlines_of_not_endsLine hbreak hl, List.cons_append,
            splitlines_of_not_endsLine (hsame.trans hbreak) hrest]
          rfl

structure Located (text : List Char) (r : Record) (front back ending : List Char) : Prop where
  whole : text = front ++ r.source ++ back
  lines : splitlines text = splitlines front ++ splitlines r.source ++ splitlines back
  start : front.length = r.start
  source : r.source = r.text ++ ending
  ending : ∀ c ∈ ending, space c = true
  below : splitlines front ≠ []

theorem space_of_isNewline {c : Char} (h : isNewline c = true) : space c = true := by
  simp only [isNewline, Bool.or_eq_true, beq_iff_eq] at h
  rcases h with rfl | rfl
  · rfl
  · rfl

theorem splitlines_flatten_append {before after : List (List Char)} (read : List (List Char))
    (h : ioLines text = before ++ after) (hbefore : before ≠ []) (hread : after = [] → read = []) :
    splitlines (before.flatten ++ read.flatten) =
      splitlines before.flatten ++ splitlines read.flatten := by
  rcases ioLines_cut h with hnil | hnil | hlast
  · exact absurd hnil hbefore
  · rw [hread hnil]
    simp [splitlines]
  · exact splitlines_append _ hlast

theorem splitlines_flatten_ne_nil {lines after : List (List Char)} (h : ioLines text = lines ++ after)
    (hne : lines ≠ []) : splitlines lines.flatten ≠ [] := by
  intro hnil
  have hflat := splitlines_flatten lines.flatten
  rw [hnil] at hflat
  cases lines with
  | nil => exact hne rfl
  | cons line lines =>
    have hline := ioLines_ne_nil text line (h ▸ List.mem_cons_self)
    rw [List.flatten_cons] at hflat
    exact hline (List.append_eq_nil_iff.mp hflat.symm).1

/-- Every record below the header lies between whole lines. -/
theorem located_of_mem {delimiter : Char} {header : Record} {data : List Record}
    (hread : records delimiter 0 (ioLines text) = header :: data) :
    ∀ r ∈ data, ∃ front back ending, Located text r front back ending := by
  intro r hr
  rcases records_cons hread with ⟨rest, hnext, hrest⟩
  rcases next_spec hnext with ⟨first, -, hlines, hne, -, hfirst, -⟩
  rcases records_spec hrest r hr with
    ⟨before, read, after, ending, hrestlines, hstart, hsource, htext, hending⟩
  rw [hrestlines, List.append_assoc, ← List.append_assoc] at hlines
  have hlines' := hlines
  rw [← List.append_assoc] at hlines'
  have habove : first ++ before ≠ [] := fun hnil => hne (List.append_eq_nil_iff.mp hnil).1
  have hthrough : first ++ before ++ read ≠ [] := fun hnil =>
    habove (List.append_eq_nil_iff.mp hnil).1
  have hfront := splitlines_flatten_append read hlines habove fun hnil =>
    (List.append_eq_nil_iff.mp hnil).1
  have hback := splitlines_flatten_append after hlines' hthrough id
  have hwhole : text = (first ++ before).flatten ++ read.flatten ++ after.flatten := by
    rw [← List.flatten_append, ← List.flatten_append, ← hlines', ioLines_flatten]
  refine ⟨(first ++ before).flatten, after.flatten, ending, ?_, ?_, ?_, htext, ?_, ?_⟩
  · rw [hsource]
    exact hwhole
  · rw [hsource, ← hfront, ← List.flatten_append, ← hback, List.flatten_append, ← hwhole]
  · rw [hstart, hfirst, List.flatten_append, List.length_append, Nat.zero_add]
  · exact fun c hc => space_of_isNewline (hending c hc)
  · exact splitlines_flatten_ne_nil hlines habove

namespace Located
variable {r : Record} {front back ending : List Char} (h : Located text r front back ending)
include h

theorem take_start : text.take r.start = front := by
  rw [← h.start, h.whole, List.append_assoc, List.take_left]

theorem stop_le : r.stop ≤ r.start + r.source.length := by
  rw [Record.stop, h.source, List.length_append]
  omega

theorem offset_front : offset text (splitlines front).length = r.start := by
  rw [offset, h.lines, List.append_assoc, List.take_left, splitlines_flatten, h.start]

theorem offset_back : offset text ((splitlines front).length + (splitlines r.source).length) =
    r.start + r.source.length := by
  rw [offset, h.lines, ← List.length_append, List.take_left, List.flatten_append,
    splitlines_flatten, splitlines_flatten, List.length_append, h.start]

theorem chomped : chompedLines text =
    chompedLines front ++ chompedLines r.source ++ chompedLines back := by
  unfold chompedLines
  rw [h.lines, List.map_append, List.map_append]

theorem rows_above (hfirst : isBlankLine text 0 = false) :
    (rows text).countP (· < (splitlines front).length) = rowsAbove text r := by
  have hlen := chompedLines_length front
  have hpos := List.length_pos_iff.mpr h.below
  rw [countP_rows hpos (by rw [h.chomped]; simp only [List.length_append]; omega), rowsAbove,
    h.take_start, rowCount, h.chomped]
  cases hcl : chompedLines front with
  | nil =>
    rw [hcl, List.length_nil] at hlen
    omega
  | cons line lines =>
    rw [isBlankLine, h.chomped, hcl] at hfirst
    rw [hcl, List.length_cons] at hlen
    rw [List.countP_cons_of_pos (by simpa using hfirst), Nat.add_sub_cancel, ← hlen,
      Nat.add_sub_cancel]
    simp

theorem rows_through (hfirst : isBlankLine text 0 = false) :
    (rows text).countP (· < (splitlines front).length + (splitlines r.source).length) =
      rowsAbove text r + rowCount r.source := by
  have hlen := chompedLines_length front
  have hlen' := chompedLines_length r.source
  have hpos := List.length_pos_iff.mpr h.below
  have habove := h.rows_above hfirst
  rw [countP_rows (by omega) (by rw [h.chomped]; simp only [List.length_append]; omega)] at habove ⊢
  rw [← habove, rowCount, ← List.countP_append]
  congr 1
  rw [h.chomped]
  cases hcl : chompedLines front with
  | nil =>
    rw [hcl, List.length_nil] at hlen
    omega
  | cons line lines =>
    rw [hcl, List.length_cons] at hlen
    rw [← hlen, ← hlen']
    simp [List.take_append]

variable (hfirst : isBlankLine text 0 = false) {k idx : ℕ}
include hfirst

theorem lt_front_iff (hk : (rows text)[k]? = some idx) :
    idx < (splitlines front).length ↔ k < rowsAbove text r := by
  rw [← h.rows_above hfirst]
  exact lt_iff_of_pairwise (rows_pairwise text) _ hk

theorem lt_back_iff (hk : (rows text)[k]? = some idx) :
    idx < (splitlines front).length + (splitlines r.source).length ↔
      k < rowsAbove text r + rowCount r.source := by
  rw [← h.rows_through hfirst]
  exact lt_iff_of_pairwise (rows_pairwise text) _ hk

theorem rowStop_above (hk : (rows text)[k]? = some idx) (hlt : k < rowsAbove text r) :
    rowStop text idx ≤ r.start := by
  have hidx := (h.lt_front_iff hfirst hk).mpr hlt
  calc
    rowStop text idx ≤ offset text (idx + 1) := rowStop_le idx
    _ ≤ offset text (splitlines front).length := offset_mono text hidx
    _ = r.start := h.offset_front

theorem start_le_offset (hk : (rows text)[k]? = some idx) (hle : rowsAbove text r ≤ k) :
    r.start ≤ offset text idx := by
  have hidx := mt (h.lt_front_iff hfirst hk).mp (Nat.not_lt.mpr hle)
  rw [← h.offset_front]
  exact offset_mono text (Nat.not_lt.mp hidx)

theorem stop_le_offset (hk : (rows text)[k]? = some idx)
    (hle : rowsAbove text r + rowCount r.source ≤ k) : r.stop ≤ offset text idx := by
  have hidx := mt (h.lt_back_iff hfirst hk).mp (Nat.not_lt.mpr hle)
  calc
    r.stop ≤ r.start + r.source.length := h.stop_le
    _ = offset text ((splitlines front).length + (splitlines r.source).length) :=
      h.offset_back.symm
    _ ≤ offset text idx := offset_mono text (Nat.not_lt.mp hidx)

/-- The first row of the record begins with it unless the record begins with a blank line. -/
theorem offset_le_start_iff (hpos : 0 < rowCount r.source)
    (hrow : (rows text)[rowsAbove text r]? = some idx) :
    offset text idx ≤ r.start ↔ isBlankLine r.source 0 = false := by
  have hge := mt (h.lt_front_iff hfirst hrow).mp (Nat.lt_irrefl _)
  have hlt := (h.lt_back_iff hfirst hrow).mpr (by omega)
  have hmem := mem_rows.mp (List.mem_of_getElem? hrow)
  have hline : isBlankLine text (splitlines front).length = isBlankLine r.source 0 := by
    have hlen := chompedLines_length front
    have hlen' := chompedLines_length r.source
    unfold isBlankLine
    rw [h.chomped, List.append_assoc, List.getD_eq_getElem?_getD, List.getD_eq_getElem?_getD,
      List.getElem?_append_right hlen.le, hlen, Nat.sub_self, List.getElem?_append_left (by omega)]
  rw [← h.offset_front, ← hline]
  constructor
  · intro hle
    have heq : idx = (splitlines front).length := by
      by_contra hne
      have hsucc := offset_mono text (show (splitlines front).length + 1 ≤ idx by omega)
      have hstep := offset_lt (show (splitlines front).length < (splitlines text).length by omega)
      omega
    rw [← heq]
    exact hmem.2.2
  · intro hnot
    have hpositive := List.length_pos_iff.mpr h.below
    have hfront : (splitlines front).length ∈ rows text :=
      mem_rows.mpr ⟨hpositive, by omega, hnot⟩
    rcases List.mem_iff_getElem?.mp hfront with ⟨j, hj⟩
    have hji := mt (h.lt_front_iff hfirst hj).mpr (Nat.lt_irrefl _)
    apply offset_mono text
    exact rows_le (Nat.not_lt.mp hji) hrow hj

theorem rowStop_last (hpos : 0 < rowCount r.source)
    (hrow : (rows text)[rowsAbove text r + rowCount r.source - 1]? = some idx) :
    rowStop text idx = r.start + (r.text.rdropWhile space).length := by
  have hlt := (h.lt_back_iff hfirst hrow).mpr (by omega)
  have hend : (splitlines front).length + (splitlines r.source).length ≤
      (splitlines text).length := by
    rw [h.lines]
    simp only [List.length_append]
    omega
  have hmem := mem_rows.mp (List.mem_of_getElem? hrow)
  have hblank : ∀ i, idx < i → i < (splitlines front).length + (splitlines r.source).length →
      isBlankLine text i = true := by
    intro i hi hib
    by_contra hnot
    have hin : i ∈ rows text := mem_rows.mpr ⟨by omega, by omega, Bool.not_eq_true _ ▸ hnot⟩
    rcases List.mem_iff_getElem?.mp hin with ⟨j, hj⟩
    have hjk := (h.lt_back_iff hfirst hj).mp hib
    have hle := rows_le (by omega) hj hrow
    omega
  have hstop := rowStop_of_blank hlt hend hblank
  have htake : text.take (r.start + r.source.length) = front ++ r.text ++ ending := by
    rw [← h.start, ← List.length_append, h.whole, List.take_left, h.source, List.append_assoc]
  rw [h.offset_back, htake, rdropWhile_append_all _ h.ending] at hstop
  have hge := h.start_le_offset hfirst hrow (by omega)
  have habove := lt_rowStop hmem.2.1 hmem.2.2
  have hle : front.length ≤ ((front ++ r.text).rdropWhile space).length := by
    rw [hstop, h.start]
    omega
  have hdrop := congrArg List.length (rdropWhile_drop hle)
  rw [List.drop_left, List.length_drop, hstop, h.start] at hdrop
  omega

theorem rows_bound :
    rowsAbove text r + rowCount r.source ≤ (rows text).length := by
  rw [← h.rows_through hfirst]
  exact List.countP_le_length

theorem charStart_le_iff (hpos : 0 < rowCount r.source) (hk : (rows text)[k]? = some idx) :
    offset text idx ≤ r.start ↔
      k < rowsAbove text r ∨ k = rowsAbove text r ∧ isBlankLine r.source 0 = false := by
  rcases Nat.lt_trichotomy k (rowsAbove text r) with hlt | heq | hgt
  · have habove := h.rowStop_above hfirst hk hlt
    have hrow := offset_lt_rowStop hk
    omega
  · rw [h.offset_le_start_iff hfirst hpos (heq ▸ hk)]
    constructor
    · intro hrow
      exact Or.inr ⟨heq, hrow⟩
    · rintro (hlt | ⟨-, hrow⟩)
      · omega
      · exact hrow
  · have hbound := h.rows_bound hfirst
    have hown := List.getElem?_eq_getElem (show rowsAbove text r < (rows text).length by omega)
    have hge := h.start_le_offset hfirst hown (le_refl _)
    have hrow := offset_lt_rowStop hown
    have hcut := rowStop_le_offset hgt hown hk
    omega

theorem stop_le_charEnd_iff (hpos : 0 < rowCount r.source) (hk : (rows text)[k]? = some idx) :
    r.stop ≤ rowStop text idx ↔ rowsAbove text r + rowCount r.source < k + 1 ∨
      k + 1 = rowsAbove text r + rowCount r.source ∧ r.text.rdropWhile space = r.text := by
  have hlen := (List.rdropWhile_prefix space r.text).length_le
  have hstop : r.stop = r.start + r.text.length := rfl
  rcases Nat.lt_trichotomy (k + 1) (rowsAbove text r + rowCount r.source) with hlt | heq | hgt
  · have hbound := h.rows_bound hfirst
    have hown := List.getElem?_eq_getElem
      (show rowsAbove text r + rowCount r.source - 1 < (rows text).length by omega)
    have hlast := h.rowStop_last hfirst hpos hown
    have hrow := offset_lt_rowStop hown
    have hcut := rowStop_le_offset (by omega) hk hown
    omega
  · have hown : (rows text)[rowsAbove text r + rowCount r.source - 1]? = some idx := by
      rw [← heq]
      exact hk
    rw [h.rowStop_last hfirst hpos hown]
    constructor
    · intro hle
      apply Or.inr
      refine ⟨heq, (List.rdropWhile_prefix space r.text).eq_of_length ?_⟩
      omega
    · rintro (hlt | ⟨-, hsame⟩)
      · omega
      · rw [hsame, hstop]
  · have hbelow := h.stop_le_offset hfirst hk (by omega)
    have hrow := offset_lt_rowStop hk
    omega

end Located

theorem rowCount_eq_zero_iff : rowCount text = 0 ↔ ∀ c ∈ text, space c = true := by
  have hlen := chompedLines_length text
  rw [rowCount, List.countP_eq_zero]
  constructor
  · intro hall c hc
    rw [← splitlines_flatten text] at hc
    rcases List.mem_flatten.mp hc with ⟨line, hline, hcl⟩
    rcases List.mem_iff_getElem.mp hline with ⟨i, hi, rfl⟩
    have hnot := hall _ (List.getElem_mem (hlen ▸ hi))
    apply (isBlankLine_iff hi).mp ?_ c hcl
    rw [isBlankLine, List.getD_eq_getElem?_getD, List.getElem?_eq_getElem (hlen ▸ hi)]
    simpa using hnot
  · intro hall line hline
    rcases List.mem_iff_getElem.mp hline with ⟨i, hi, rfl⟩
    have hblank : isBlankLine text i = true := by
      rw [isBlankLine_iff (hlen ▸ hi)]
      intro c hc
      apply hall
      rw [← splitlines_flatten text]
      exact List.mem_flatten.mpr ⟨_, List.getElem_mem _, hc⟩
    rw [isBlankLine, List.getD_eq_getElem?_getD, List.getElem?_eq_getElem hi] at hblank
    simpa using hblank

theorem take_offset_blank {m : ℕ} (hpos : 0 < m) (hm : m ≤ (splitlines text).length)
    (h : ∀ i, 0 < i → i < m → isBlankLine text i = true) :
    ∃ gap, text.take (offset text m) = (chompedLines text).getD 0 [] ++ gap ∧
      ∀ c ∈ gap, space c = true := by
  induction m with
  | zero => omega
  | succ m ih =>
    rw [take_offset_succ hm]
    cases m with
    | zero =>
      have hline := chompedLines_getD text hm
      rw [plain_char] at hline
      refine ⟨((splitlines text)[0]).dropWhile fun c => !isLineBreak c, ?_, ?_⟩
      · rw [hline, List.takeWhile_append_dropWhile]
        rfl
      · exact splitlines_tail text _ (List.getElem_mem hm)
    | succ m =>
      rcases ih (Nat.succ_pos m) (Nat.le_of_succ_le hm)
        (fun i hi him => h i hi (Nat.lt_succ_of_lt him)) with ⟨gap, htake, hgap⟩
      have hblank := (isBlankLine_iff hm).mp (h (m + 1) (Nat.succ_pos m) (Nat.lt_succ_self _))
      refine ⟨gap ++ (splitlines text)[m + 1], ?_, ?_⟩
      · rw [htake, List.append_assoc]
      · intro c hc
        rcases List.mem_append.mp hc with hc | hc
        · exact hgap c hc
        · exact hblank c hc

theorem first_length_le (h : 0 < (splitlines text).length) :
    ((chompedLines text).getD 0 []).length ≤ offset text 1 := by
  rcases take_offset_blank Nat.one_pos h (fun i hi hlt => by omega) with ⟨gap, htake, -⟩
  rw [← length_take_offset 1, htake, List.length_append]
  omega

theorem not_isLineBreak_of_mem_first {c : Char} (h : c ∈ (chompedLines text).getD 0 []) :
    isLineBreak c = false := by
  cases hlines : splitlines text with
  | nil => simp [chompedLines, hlines] at h
  | cons line lines =>
    rw [chompedLines, hlines, List.map_cons, List.getD_cons_zero] at h
    simpa using List.mem_takeWhile_imp h

theorem first_isPrefix : (chompedLines text).getD 0 [] <+: text := by
  cases hlines : splitlines text with
  | nil => simp [chompedLines, hlines]
  | cons line lines =>
    have hflat := splitlines_flatten text
    rw [hlines, List.flatten_cons] at hflat
    rw [chompedLines, hlines, List.map_cons, List.getD_cons_zero, plain_char, ← hflat]
    exact (List.takeWhile_prefix _).trans (List.prefix_append line _)

theorem isNewline_of_mem_first {c : Char} (h : c ∈ (chompedLines text).getD 0 []) :
    isNewline c = false := by
  have hnot := not_isLineBreak_of_mem_first h
  rw [← Bool.not_eq_true]
  intro hnewline
  simp only [isNewline, Bool.or_eq_true, beq_iff_eq] at hnewline
  rcases hnewline with rfl | rfl
  · cases hnot
  · cases hnot

theorem blank_above_first_row {idx : ℕ} (hrow : (rows text)[0]? = some idx) :
    ∀ i, 0 < i → i < idx → isBlankLine text i = true := by
  have hmem := mem_rows.mp (List.mem_of_getElem? hrow)
  intro i hi hlt
  by_contra hnot
  have hin : i ∈ rows text := mem_rows.mpr ⟨hi, by omega, Bool.not_eq_true _ ▸ hnot⟩
  rcases List.mem_iff_getElem?.mp hin with ⟨j, hj⟩
  have hle := rows_le (Nat.zero_le j) hrow hj
  omega

theorem solid_behind_row {idx s : ℕ} (hrow : idx ∈ rows text) (hs : s ≤ offset text idx) :
    ∃ c ∈ text.drop s, space c = false := by
  have hmem := mem_rows.mp hrow
  rcases (not_isBlankLine_iff hmem.2.1).mp hmem.2.2 with ⟨c, hc, hsolid⟩
  have hline : c ∈ text.drop (offset text idx) := by
    rw [← slice_append_drop text (offset_mono text (Nat.le_succ idx)), slice_line text hmem.2.1]
    exact List.mem_append_left _ hc
  rw [← Nat.add_sub_cancel' hs, ← List.drop_drop] at hline
  exact ⟨c, List.mem_of_mem_drop hline, hsolid⟩

section
variable {delimiter : Char} {header : Record} {data : List Record}
  (h : records delimiter 0 (ioLines text) = header :: data)
include h

theorem header_spec : ∃ rest read ending,
    next delimiter 0 (ioLines text) = .ok (some (header, rest)) ∧ ioLines text = read ++ rest ∧
      read ≠ [] ∧ header.source = read.flatten ∧ header.source = header.text ++ ending ∧
      (∀ c ∈ ending, isNewline c = true) ∧ text = header.text ++ (ending ++ rest.flatten) := by
  rcases records_cons h with ⟨rest, hnext, -⟩
  rcases next_spec hnext with ⟨read, ending, hlines, hread, -, hsource, htext, hending⟩
  refine ⟨rest, read, ending, hnext, hlines, hread, hsource, htext, hending, ?_⟩
  rw [← List.append_assoc, ← htext, hsource, ← List.flatten_append, ← hlines, ioLines_flatten]

theorem header_stop : header.stop = header.text.length := by
  rcases records_cons h with ⟨rest, hnext, -⟩
  rcases next_spec hnext with ⟨-, -, -, -, hstart, -⟩
  rw [Record.stop, hstart, Nat.zero_add]

theorem header_extends : ∃ more, header.text = (chompedLines text).getD 0 [] ++ more := by
  rcases header_spec h with
    ⟨rest, read, ending, -, hlines, hread, hsource, htext, hending, hwhole⟩
  have hpre : header.text <+: text := ⟨_, hwhole.symm⟩
  rcases List.prefix_or_prefix_of_prefix hpre first_isPrefix with ⟨more, hmore⟩ | ⟨more, hmore⟩
  · -- the header line ends no later than the line feed behind the record
    have htail : more <+: ending ++ rest.flatten := by
      have hfirst : (chompedLines text).getD 0 [] <+: text := first_isPrefix
      rw [← hmore] at hfirst
      rw [hwhole] at hfirst
      exact (List.prefix_append_right_inj _).mp hfirst
    have hbreak : ∀ c ∈ header.text ++ more, isNewline c = false := by
      rw [hmore]
      exact fun c => isNewline_of_mem_first
    cases more with
    | nil => exact ⟨[], by rw [← hmore, List.append_nil, List.append_nil]⟩
    | cons c more =>
      exfalso
      cases ending with
      | cons d ending =>
        rw [List.cons_append, List.cons_prefix_cons] at htail
        have hc := hbreak c (List.mem_append_right _ List.mem_cons_self)
        rw [htail.1, hending d List.mem_cons_self] at hc
        cases hc
      | nil =>
        rw [List.append_nil] at htext
        rcases ioLines_cut hlines with hnone | hnone | hlast
        · exact hread hnone
        · rw [hnone] at htail
          exact List.cons_ne_nil c more (List.prefix_nil.mp htail)
        · rw [← hsource, htext] at hlast
          have hc := hbreak '\n' (List.mem_append_left _ (List.mem_of_getLast? hlast))
          cases hc
  · exact ⟨more, hmore.symm⟩

/-- Where a block stands under the whole header record, and none of it among the rows, the record
    is the header line. -/
theorem header_eq_first {idx : ℕ} {body : List Char} (hrow : (rows text)[0]? = some idx)
    (hheaded : header.text <+: (chompedLines text).getD 0 [] ++ '\n' :: body)
    (hbelow : header.stop ≤ offset text idx) :
    header.text = (chompedLines text).getD 0 [] := by
  rcases header_extends h with ⟨more, hmore⟩
  rcases header_spec h with ⟨rest, -, ending, hnext, -, -, -, htext, hending, hwhole⟩
  rw [header_stop h] at hbelow
  cases more with
  | nil => rw [hmore, List.append_nil]
  | cons c more =>
    exfalso
    rw [hmore, List.prefix_append_right_inj, List.cons_prefix_cons] at hheaded
    have hmem := List.mem_of_getElem? hrow
    have hidx := mem_rows.mp hmem
    -- the record lies above the first row, so what is behind the header line is white space
    have hspace : ∀ d ∈ c :: more, space d = true := by
      rcases take_offset_blank hidx.1 hidx.2.1.le (blank_above_first_row hrow) with
        ⟨gap, htake, hgap⟩
      have hpre : header.text <+: text.take (offset text idx) := by
        rw [List.prefix_take_iff]
        exact ⟨⟨_, hwhole.symm⟩, hbelow⟩
      rw [htake, hmore, List.prefix_append_right_inj] at hpre
      exact fun d hd => hgap d (hpre.subset hd)
    have hnot : '\n' ∉ (chompedLines text).getD 0 [] := by
      intro hc
      have hnewline := isNewline_of_mem_first hc
      cases hnewline
    have hfirst : ioLines text = ((chompedLines text).getD 0 [] ++ ['\n']) ::
        ioLines (more ++ (ending ++ rest.flatten)) := by
      rw [← ioLines_line _ hnot]
      congr 1
      rw [← hheaded.1, ← List.cons_append, ← List.append_assoc, ← hmore]
      exact hwhole
    rw [hfirst] at hnext
    rcases next_lines hnext with hshort | hend | ⟨behind, hbehind, hquote⟩
    · -- a record of one line ends in front of the line feed
      rw [List.rdropWhile_concat_pos _ _ _ rfl] at hshort
      have hlen := (List.rdropWhile_prefix isNewline ((chompedLines text).getD 0 [])).length_le
      rw [← hshort, hmore, List.length_append, List.length_cons] at hlen
      omega
    · -- the record is the whole text, and a row lies behind it
      rcases solid_behind_row hmem hbelow with ⟨d, hd, hsolid⟩
      have hdrop : text.drop header.text.length = ending := by
        nth_rewrite 1 [hwhole]
        rw [List.drop_left, hend, List.flatten_nil, List.append_nil]
      rw [hdrop] at hd
      rw [space_of_isNewline (hending d hd)] at hsolid
      cases hsolid
    · -- the quote that closes the header is no white space
      rw [htext, hmore, ← hheaded.1, List.append_assoc, List.append_assoc,
        List.append_cancel_left_eq, List.cons_append, List.singleton_append,
        List.cons.injEq] at hbehind
      rw [← hbehind.2] at hquote
      rcases List.mem_append.mp hquote with hquote | hquote
      · have hbad := hspace '"' (List.mem_cons_of_mem c hquote)
        cases hbad
      · have hbad := hending '"' hquote
        cases hbad

end

end
end Ragent.RecordRows
