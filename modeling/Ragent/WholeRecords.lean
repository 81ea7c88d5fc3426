import Ragent.RecordRows

set_option autoImplicit false

/-!
# Records in blocks

The blocks of `split_csv` keep a record whole where its rows fall into one batch, and the header
where it is one line.
-/
namespace Ragent.WholeRecords
open SpacedWords PyText FlowText FlowBlocks CsvReader CsvBlocks RecordRows Batches

def Blank (r : Record) : Prop := strip r.text = []

/-- The block contains the record, in its range and in its text. -/
structure LiesIn (r : Record) (b : FlowBlock Char) : Prop where
  start : b.charStart ≤ r.start
  stop : r.stop ≤ b.charEnd
  text : r.text <:+: b.text

def Meets (r : Record) (b : FlowBlock Char) : Prop := b.charStart < r.stop ∧ r.start < b.charEnd

theorem LiesIn.meets {r : Record} {b : FlowBlock Char} (h : LiesIn r b) (hblank : ¬ Blank r) :
    Meets r b := by
  have hne : r.text ≠ [] := by
    intro hnil
    apply hblank
    rw [Blank, hnil]
    rfl
  have hpos := List.length_pos_iff.mpr hne
  have hstart := h.start
  have hstop := h.stop
  unfold Meets
  unfold Record.stop at hstop ⊢
  omega

structure KeptWhole (header : Record) (data : List Record) (bs : List (FlowBlock Char)) : Prop where
  ordered : bs.Pairwise fun b b' => b.charEnd ≤ b'.charStart
  headed : ∀ b ∈ bs, header.text <+: b.text
  undivided : ∀ r ∈ data, ∀ b ∈ bs, ∀ b' ∈ bs, Meets r b → Meets r b' → b = b'
  placed : ∀ r ∈ data, ¬ Blank r → ∃! b, b ∈ bs ∧ LiesIn r b
  below : ∀ b ∈ bs, header.stop ≤ b.charStart

/-- The rows of the record fall into one batch. A record that begins with a blank line is not the
    first of its batch, and one that ends in white space is not the last. -/
structure Aligned (text : List Char) (rowsPerBlock : ℕ) (r : Record) : Prop where
  together : rowsAbove text r / rowsPerBlock =
    (rowsAbove text r + rowCount r.source - 1) / rowsPerBlock
  front : rowsAbove text r % rowsPerBlock ≠ 0 ∨ isBlankLine r.source 0 = false
  back : r.text.rdropWhile space = r.text ∨
    (rowsAbove text r + rowCount r.source) % rowsPerBlock ≠ 0 ∧
      rowsAbove text r + rowCount r.source < rowCount text - 1

section
variable {text : List Char}

section
variable {r : Record} {front back ending headerLine : List Char} {rowsPerBlock x y : ℕ}
  {b b' : FlowBlock Char} (h : Located text r front back ending)
  (hat : BlockAt text headerLine rowsPerBlock x b)
include h hat

theorem text_isInfix (hstart : b.charStart ≤ r.start) (hstop : r.stop ≤ b.charEnd) :
    r.text <:+: b.text := by
  have hslice : slice text r.start r.stop = r.text := by
    rw [slice, Record.stop, ← h.start, h.whole, h.source, List.append_assoc, List.append_assoc,
      List.take_length_add_append, List.drop_left, List.take_left]
  rw [hat.text, ← hslice]
  have hbody := slice_isInfix_slice text hstart hstop
  exact hbody.trans ((List.suffix_cons '\n' _).trans (List.suffix_append headerLine _)).isInfix

variable (hfirst : isBlankLine text 0 = false) (hsize : 0 < rowsPerBlock)
include hfirst hsize

theorem liesIn_iff (hpos : 0 < rowCount r.source) : LiesIn r b ↔
    (rowsPerBlock * x < rowsAbove text r ∨
      rowsPerBlock * x = rowsAbove text r ∧ isBlankLine r.source 0 = false) ∧
    (rowsAbove text r + rowCount r.source < batchStop rowsPerBlock (rows text).length x ∨
      batchStop rowsPerBlock (rows text).length x = rowsAbove text r + rowCount r.source ∧
        r.text.rdropWhile space = r.text) := by
  have hlt := lt_batchStop hsize hat.inside
  rcases hat.start with ⟨first, hhead, hcharStart⟩
  rcases hat.stop with ⟨last, hlast, hcharEnd⟩
  have hstart := h.charStart_le_iff hfirst hpos hhead
  have hstop := h.stop_le_charEnd_iff hfirst hpos hlast
  rw [Nat.sub_add_cancel (by omega)] at hstop
  rw [← hstart, ← hstop, ← hcharStart, ← hcharEnd]
  constructor
  · intro hin
    exact ⟨hin.start, hin.stop⟩
  · rintro ⟨hs, he⟩
    exact ⟨hs, he, text_isInfix h hat hs he⟩

theorem not_lt_of_meets (hat' : BlockAt text headerLine rowsPerBlock y b')
    (htogether : rowCount r.source = 0 ∨ rowsAbove text r / rowsPerBlock =
      (rowsAbove text r + rowCount r.source - 1) / rowsPerBlock)
    (hmeets : Meets r b) (hmeets' : Meets r b') : ¬ x < y := by
  intro hxy
  have hcut := batchStop_le_start rowsPerBlock (rows text).length hxy
  have hlt := lt_batchStop hsize hat.inside
  rcases hat.stop with ⟨last, hlast, hcharEnd⟩
  rcases hat'.start with ⟨first, hhead, hcharStart⟩
  -- the last row of the first batch is not above the record, the first of the second not below
  have habove : ¬ batchStop rowsPerBlock (rows text).length x - 1 < rowsAbove text r := by
    intro habove
    have hend := h.rowStop_above hfirst hlast habove
    have hmeet := hmeets.2
    omega
  have hbelow : ¬ rowsAbove text r + rowCount r.source ≤ rowsPerBlock * y := by
    intro hbelow
    have hbegin := h.stop_le_offset hfirst hhead hbelow
    have hmeet := hmeets'.1
    omega
  rcases htogether with hnone | hsame
  · omega
  · have hlow : rowsAbove text r / rowsPerBlock < y := by
      rw [Nat.div_lt_iff_lt_mul hsize, Nat.mul_comm]
      omega
    have hhigh : y ≤ (rowsAbove text r + rowCount r.source - 1) / rowsPerBlock := by
      rw [Nat.le_div_iff_mul_le hsize, Nat.mul_comm]
      omega
    omega

end

section
variable {headerLine : List Char} {rowsPerBlock : ℕ} {bs : List (FlowBlock Char)}
  (hsize : 0 < rowsPerBlock)
  (hat : ∀ x b, bs[x]? = some b → BlockAt text headerLine rowsPerBlock x b)
include hsize hat

theorem blocks_ordered : bs.Pairwise fun b b' => b.charEnd ≤ b'.charStart := by
  rw [List.pairwise_iff_getElem]
  intro x y hx hy hxy
  have hatx := hat x bs[x] (List.getElem?_eq_getElem hx)
  have haty := hat y bs[y] (List.getElem?_eq_getElem hy)
  have hcut := batchStop_le_start rowsPerBlock (rows text).length hxy
  have hlt := lt_batchStop hsize hatx.inside
  rcases hatx.stop with ⟨last, hlast, hcharEnd⟩
  rcases haty.start with ⟨first, hhead, hcharStart⟩
  rw [hcharEnd, hcharStart]
  exact rowStop_le_offset (by omega) hlast hhead

variable {r : Record} {front back ending : List Char} (h : Located text r front back ending)
  (hfirst : isBlankLine text 0 = false)
include h hfirst

omit hsize hat hfirst in
theorem blank_iff : Blank r ↔ rowCount r.source = 0 := by
  rw [Blank, strip_eq_nil_iff, words_eq_nil_iff, rowCount_eq_zero_iff, h.source]
  constructor
  · intro hall c hc
    rcases List.mem_append.mp hc with hc | hc
    · exact hall c hc
    · exact h.ending c hc
  · exact fun hall c hc => hall c (List.mem_append_left _ hc)

/-- A record that is not blank lies in a block where it is aligned. -/
theorem placed_iff (hall : ∀ x, rowsPerBlock * x < (rows text).length → ∃ b, bs[x]? = some b)
    (hpos : 0 < rowCount r.source) : (∃ b, b ∈ bs ∧ LiesIn r b) ↔ Aligned text rowsPerBlock r := by
  have hbatch := @exists_batch_iff rowsPerBlock (rowsAbove text r) _ _
    (isBlankLine r.source 0 = false) (r.text.rdropWhile space = r.text) hpos (h.rows_bound hfirst)
    hsize
  rw [rows_length hfirst] at hbatch
  constructor
  · rintro ⟨b, hb, hin⟩
    rcases List.mem_iff_getElem?.mp hb with ⟨x, hx⟩
    have hatx := hat x b hx
    have hinside := hatx.inside
    rw [liesIn_iff h hatx hfirst hsize hpos] at hin
    rw [rows_length hfirst] at hin hinside
    rcases hbatch.mp ⟨x, hinside, hin⟩ with ⟨htogether, hstart, hstop⟩
    exact ⟨htogether, hstart, hstop⟩
  · intro haligned
    rcases hbatch.mpr ⟨haligned.together, haligned.front, haligned.back⟩ with ⟨x, hinside, hin⟩
    rw [← rows_length hfirst] at hin hinside
    rcases hall x hinside with ⟨b, hb⟩
    exact ⟨b, List.mem_of_getElem? hb, (liesIn_iff h (hat x b hb) hfirst hsize hpos).mpr hin⟩

/-- No two blocks meet a record whose rows fall into one batch. -/
theorem undivided (htogether : rowCount r.source = 0 ∨ rowsAbove text r / rowsPerBlock =
      (rowsAbove text r + rowCount r.source - 1) / rowsPerBlock) :
    ∀ b ∈ bs, ∀ b' ∈ bs, Meets r b → Meets r b' → b = b' := by
  intro b hb b' hb' hmeets hmeets'
  rcases List.mem_iff_getElem?.mp hb with ⟨x, hx⟩
  rcases List.mem_iff_getElem?.mp hb' with ⟨y, hy⟩
  have hxy := not_lt_of_meets h (hat x b hx) hfirst hsize (hat y b' hy) htogether hmeets hmeets'
  have hyx := not_lt_of_meets h (hat y b' hy) hfirst hsize (hat x b hx) htogether hmeets' hmeets
  have heq : x = y := by omega
  rw [heq, hy] at hx
  exact (Option.some.inj hx).symm

end

/-- The blocks keep records and header whole exactly where the header record is the first line, or
    nothing lies below it, and every record that is not blank has its rows in one batch. -/
theorem records_are_kept_whole_iff {delimiter : Char} {rowsPerBlock : ℕ} {header : Record}
    {data : List Record} (hfirst : isBlankLine text 0 = false)
    (hread : records delimiter 0 (ioLines text) = header :: data) (hheader : header.fields ≠ [])
    (hrows : 1 ≤ rowsPerBlock) :
    (∃ bs, splitCsv text rowsPerBlock delimiter = .ok bs ∧ KeptWhole header data bs) ↔
      (header.text = (chompedLines text).getD 0 [] ∨ rowCount text = 1) ∧
        ∀ r ∈ data, ¬ Blank r → Aligned text rowsPerBlock r := by
  have hfields : headerOf text delimiter ≠ [] := by
    rcases records_cons hread with ⟨rest, hnext, -⟩
    rw [headerOf, hnext]
    exact hheader
  rcases splitCsv_spec hfirst hfields hrows with ⟨bs, hbs, hall, hat⟩
  have hlocated := located_of_mem hread
  have hpos : ∀ r ∈ data, ¬ Blank r → 0 < rowCount r.source := by
    intro r hr hblank
    rcases hlocated r hr with ⟨front, back, ending, h⟩
    rw [blank_iff h] at hblank
    exact Nat.pos_of_ne_zero hblank
  constructor
  · rintro ⟨bs', hbs', hkept⟩
    rw [hbs] at hbs'
    cases hbs'
    constructor
    · by_cases hnone : (rows text).length = 0
      · apply Or.inr
        rw [rowCount_eq hfirst, hnone]
      · apply Or.inl
        rcases hall 0 (by omega) with ⟨b, hb⟩
        have hatb := hat 0 b hb
        rcases hatb.start with ⟨idx, hrow, hcharStart⟩
        have hmem := List.mem_of_getElem? hb
        have hheaded := hkept.headed b hmem
        have hbelow := hkept.below b hmem
        rw [hatb.text] at hheaded
        rw [hcharStart] at hbelow
        exact header_eq_first hread hrow hheaded hbelow
    · intro r hr hblank
      rcases hlocated r hr with ⟨front, back, ending, h⟩
      rcases hkept.placed r hr hblank with ⟨b, hb, -⟩
      exact (placed_iff hrows hat h hfirst hall (hpos r hr hblank)).mp ⟨b, hb⟩
  · rintro ⟨hheaderLine, haligned⟩
    have hundivided : ∀ r ∈ data, ∀ b ∈ bs, ∀ b' ∈ bs, Meets r b → Meets r b' → b = b' := by
      intro r hr
      rcases hlocated r hr with ⟨front, back, ending, h⟩
      apply undivided hrows hat h hfirst
      by_cases hblank : Blank r
      · exact Or.inl ((blank_iff h).mp hblank)
      · exact Or.inr (haligned r hr hblank).together
    have hline : ∀ b ∈ bs, header.text = (chompedLines text).getD 0 [] := by
      intro b hb
      rcases hheaderLine with hline | hone
      · exact hline
      · rcases List.mem_iff_getElem?.mp hb with ⟨x, hx⟩
        have hinside := (hat x b hx).inside
        rw [rows_length hfirst, hone] at hinside
        omega
    refine ⟨bs, hbs, blocks_ordered hrows hat, ?_, hundivided, ?_, ?_⟩
    · intro b hb
      rcases List.mem_iff_getElem?.mp hb with ⟨x, hx⟩
      rw [(hat x b hx).text, hline b hb]
      exact List.prefix_append _ _
    · intro r hr hblank
      rcases hlocated r hr with ⟨front, back, ending, h⟩
      rcases (placed_iff hrows hat h hfirst hall (hpos r hr hblank)).mpr (haligned r hr hblank) with
        ⟨b, hb, hin⟩
      refine ⟨b, ⟨hb, hin⟩, ?_⟩
      rintro b' ⟨hb', hin'⟩
      exact hundivided r hr b' hb' b hb (hin'.meets hblank) (hin.meets hblank)
    · intro b hb
      rcases List.mem_iff_getElem?.mp hb with ⟨x, hx⟩
      rcases (hat x b hx).start with ⟨idx, hrow, hcharStart⟩
      have hmem := mem_rows.mp (List.mem_of_getElem? hrow)
      rw [hcharStart, header_stop hread, hline b hb]
      exact (first_length_le (by omega)).trans (offset_mono text hmem.1)

end

def quotedRow : List Char := "a,b\n\"x\ny\",1\n".toList

def shortHeader : Record where
  fields := ["a".toList, "b".toList]
  start := 0
  source := "a,b\n".toList
  text := "a,b".toList

def twoLines : Record where
  fields := ["x\ny".toList, "1".toList]
  start := 4
  source := "\"x\ny\",1\n".toList
  text := "\"x\ny\",1".toList

theorem quotedRow_records : records ',' 0 (ioLines quotedRow) = [shortHeader, twoLines] := by
  have hnext : next ',' 0 (ioLines quotedRow) =
      .ok (some (shortHeader, ["\"x\n".toList, "y\",1\n".toList])) := rfl
  have hlast : next ',' 4 ["\"x\n".toList, "y\",1\n".toList] = .ok (some (twoLines, [])) := rfl
  have hrest := (records_of_next hlast).trans (congrArg (twoLines :: ·) (records_of_end rfl))
  exact (records_of_next hnext).trans (congrArg (shortHeader :: ·) hrest)

theorem two_lines_fit_in_one_block : ∃ bs, splitCsv quotedRow 2 ',' = .ok bs ∧
    KeptWhole shortHeader [twoLines] bs := by
  rw [records_are_kept_whole_iff (by decide) quotedRow_records (by decide) (by decide)]
  refine ⟨Or.inl rfl, ?_⟩
  intro r hr _
  rw [List.mem_singleton.mp hr]
  exact ⟨by decide, Or.inr (by decide), Or.inl (by decide)⟩

def quotedHeader : List Char := "\"Amount\n(USD)\",Year\n10,2020\n".toList

def longHeader : Record where
  fields := ["Amount\n(USD)".toList, "Year".toList]
  start := 0
  source := "\"Amount\n(USD)\",Year\n".toList
  text := "\"Amount\n(USD)\",Year".toList

def dataRow : Record where
  fields := ["10".toList, "2020".toList]
  start := 20
  source := "10,2020\n".toList
  text := "10,2020".toList

theorem quotedHeader_records : records ',' 0 (ioLines quotedHeader) = [longHeader, dataRow] := by
  have hnext : next ',' 0 (ioLines quotedHeader) =
      .ok (some (longHeader, ["10,2020\n".toList])) := rfl
  have hlast : next ',' 20 ["10,2020\n".toList] = .ok (some (dataRow, [])) := rfl
  have hrest := (records_of_next hlast).trans (congrArg (dataRow :: ·) (records_of_end rfl))
  exact (records_of_next hnext).trans (congrArg (longHeader :: ·) hrest)

/-- The second line of the header record becomes a row of data. -/
theorem quoted_header_is_emitted_as_data :
    isBlankLine quotedHeader 0 = false ∧
      records ',' 0 (ioLines quotedHeader) = [longHeader, dataRow] ∧ longHeader.fields ≠ [] ∧
      ¬ ∃ bs, splitCsv quotedHeader 40 ',' = .ok bs ∧ KeptWhole longHeader [dataRow] bs := by
  refine ⟨by decide, quotedHeader_records, by decide, ?_⟩
  rintro ⟨bs, hbs, hkept⟩
  have hstarts : (splitCsv quotedHeader 40 ',').map (List.map (·.charStart)) = .ok [8] := rfl
  rw [hbs] at hstarts
  cases bs with
  | nil => cases hstarts
  | cons b bs =>
    have hbelow := hkept.below b List.mem_cons_self
    injection hstarts with hstarts
    injection hstarts with hstart _
    change b.charStart = 8 at hstart
    rw [hstart] at hbelow
    exact absurd hbelow (by decide)

end Ragent.WholeRecords
