import Ragent.Batches
import Ragent.CsvReader
import Ragent.FlowBlocks

set_option autoImplicit false

/-!
# Tables of rows

`split_csv` of `ragent/ingest/flowtext.py`. The header is read by the CSV reader; the rows below it
are the lines of the text that are not blank.
-/
namespace Ragent.CsvBlocks
open SpacedWords PyText FlowText FlowBlocks CsvReader Batches

structure CsvState where
  blocks : List (FlowBlock Char) := []
  group : List ℕ := []

/-- `FlowBlock(kind="table", …)` -/
def tableBlock (text : List Char) (start stop : ℕ) : Except String (FlowBlock Char) :=
  if h : start < stop then
    .ok { kind := "table", text := text, charStart := start, charEnd := stop, nonempty := h }
  else .error s!"empty span at {start}"

section
variable (text headerLine : List Char)

/-- `not lines[idx].strip()` -/
def isBlankLine (idx : ℕ) : Bool := (strip ((chompedLines text).getD idx [])).isEmpty

/-- The block `flush_group` makes of the lines of a group. -/
def groupBlock (group : List ℕ) : Except String (FlowBlock Char) :=
  let start := ((lineSpans text).getD (group.headD 0) (0, 0)).1
  let stop := ((lineSpans text).getD (group.getLastD 0) (0, 0)).2
  let bodyText := (slice text start stop).rdropWhile space
  let combined := if headerLine.isEmpty then bodyText else headerLine ++ '\n' :: bodyText
  tableBlock combined start (start + bodyText.length)

def flushGroup (st : CsvState) : Except String CsvState :=
  if st.group.isEmpty then .ok st
  else do
    let block ← groupBlock text headerLine st.group
    return { blocks := st.blocks ++ [block], group := [] }

/-- The body of `for idx in body`. -/
def rowStep (rowsPerBlock : ℕ) (st : CsvState) (idx : ℕ) : Except String CsvState :=
  if isBlankLine text idx then .ok st
  else
    let st := { st with group := st.group ++ [idx] }
    if rowsPerBlock ≤ st.group.length then flushGroup text headerLine st else .ok st

/-- `header`, with `[]` for `None`: both are false. -/
def headerOf (delimiter : Char) : List (List Char) :=
  match next delimiter 0 (ioLines text) with
  | .ok (some (r, _)) => r.fields
  | _ => []

def splitCsv (rowsPerBlock : ℕ := 40) (delimiter : optParam Char ',') :
    Except String (List (FlowBlock Char)) :=
  let lines := chompedLines text
  if lines.isEmpty then .ok []
  else do
    let hasHeader := !(headerOf text delimiter).isEmpty
    let headerLine := if hasHeader then lines.getD 0 [] else []
    let body := if hasHeader then List.range' 1 (lines.length - 1) else List.range' 0 lines.length
    let st ← body.foldlM (rowStep text headerLine rowsPerBlock) {}
    let st ← flushGroup text headerLine st
    return st.blocks

end

section
variable {text headerLine : List Char} {rowsPerBlock : ℕ}

theorem foldlM_rowStep (st : CsvState) (body : List ℕ) :
    (do
      let st ← body.foldlM (rowStep text headerLine rowsPerBlock) st
      let st ← flushGroup text headerLine st
      return st.blocks) =
    (do
      let blocks ← (batchesFrom rowsPerBlock st.group
        (body.filter fun idx => !isBlankLine text idx)).mapM (groupBlock text headerLine)
      return st.blocks ++ blocks) := by
  induction body generalizing st with
  | nil =>
    rw [List.foldlM_nil, List.filter_nil, batchesFrom, pure_bind, flushGroup]
    by_cases hempty : st.group.isEmpty
    · rw [if_pos hempty, if_pos hempty]
      simp [bind, Except.bind, pure, Except.pure]
    · rw [if_neg hempty, if_neg hempty]
      simp
  | cons idx body ih =>
    rw [List.foldlM_cons, bind_assoc]
    by_cases hblank : isBlankLine text idx
    · have hstep : rowStep text headerLine rowsPerBlock st idx = .ok st := by
        rw [rowStep, if_pos hblank]
      rw [hstep, List.filter_cons_of_neg (by simp [hblank])]
      exact ih st
    · rw [List.filter_cons_of_pos (by simp [hblank]), batchesFrom, rowStep, if_neg hblank]
      by_cases hfull : rowsPerBlock ≤ (st.group ++ [idx]).length
      · have hopen : (st.group ++ [idx]).isEmpty = false := by simp
        simp only [if_pos hfull, flushGroup, hopen, List.mapM_cons, bind_assoc]
        cases groupBlock text headerLine (st.group ++ [idx]) with
        | error e => rfl
        | ok block =>
          have hrest := ih { blocks := st.blocks ++ [block], group := [] }
          simp only [List.append_assoc] at hrest
          exact hrest
      · simp only [if_neg hfull]
        exact ih { st with group := st.group ++ [idx] }

section
variable {α : Type} {q : α → Bool}

theorem rdropWhile_append_all (l : List α) {m : List α} (h : ∀ a ∈ m, q a = true) :
    (l ++ m).rdropWhile q = l.rdropWhile q := by
  unfold List.rdropWhile
  rw [List.reverse_append, List.dropWhile_append_of_pos]
  intro a ha
  exact h a (List.mem_reverse.mp ha)

theorem rdropWhile_drop {l : List α} {s : ℕ} (h : s ≤ (l.rdropWhile q).length) :
    (l.drop s).rdropWhile q = (l.rdropWhile q).drop s := by
  induction l using List.reverseRecOn with
  | nil => simp
  | append_singleton l a ih =>
    by_cases ha : q a = true
    · rw [List.rdropWhile_concat_pos q l a ha] at h ⊢
      have hle : s ≤ l.length := h.trans (List.rdropWhile_prefix q l).length_le
      rw [List.drop_append_of_le_length hle, List.rdropWhile_concat_pos q _ a ha]
      exact ih h
    · rw [List.rdropWhile_concat_neg q l a ha] at h ⊢
      rcases Nat.lt_or_ge l.length s with hlt | hle
      · have hnil : (l ++ [a]).drop s = [] := by
          apply List.drop_eq_nil_of_le
          rw [List.length_append, List.length_singleton]
          exact hlt
        rw [hnil, List.rdropWhile_nil]
      · rw [List.drop_append_of_le_length hle, List.rdropWhile_concat_neg q _ a ha]

theorem length_rdropWhile_append {l m : List α} (h : ∃ a ∈ m, q a = false) :
    l.length < ((l ++ m).rdropWhile q).length := by
  induction m using List.reverseRecOn with
  | nil => simp at h
  | append_singleton m a ih =>
    rw [← List.append_assoc]
    by_cases ha : q a = true
    · rw [List.rdropWhile_concat_pos q _ a ha]
      apply ih
      rcases h with ⟨b, hb, hqb⟩
      rcases List.mem_append.mp hb with hb | hb
      · exact ⟨b, hb, hqb⟩
      · rw [List.mem_singleton.mp hb, ha] at hqb
        cases hqb
    · rw [List.rdropWhile_concat_neg q _ a ha]
      simp only [List.length_append, List.length_singleton]
      omega

end

/-- The lines `split_csv` groups: those below the header that are not blank. -/
def rows (text : List Char) : List ℕ :=
  (List.range' 1 ((chompedLines text).length - 1)).filter fun idx => !isBlankLine text idx

/-- Where the text of line `idx` ends, or of the one above where the line is blank. -/
def rowStop (text : List Char) (idx : ℕ) : ℕ :=
  ((text.take (offset text (idx + 1))).rdropWhile space).length

theorem chompedLines_length (text : List Char) :
    (chompedLines text).length = (splitlines text).length := by
  simp [chompedLines]

theorem isBlankLine_iff {idx : ℕ} (h : idx < (splitlines text).length) :
    isBlankLine text idx = true ↔ ∀ c ∈ (splitlines text)[idx], space c = true := by
  rw [isBlankLine, List.isEmpty_iff]
  constructor
  · intro hblank
    rw [← slice_line text h]
    exact blank_line text h hblank
  · intro hall
    rw [chompedLines_getD text h, plain_char, strip_eq_nil_iff, words_eq_nil_iff]
    intro c hc
    exact hall c ((List.takeWhile_sublist _).subset hc)

theorem not_isBlankLine_iff {idx : ℕ} (h : idx < (splitlines text).length) :
    isBlankLine text idx = false ↔ ∃ c ∈ (splitlines text)[idx], space c = false := by
  rw [← Bool.not_eq_true, isBlankLine_iff h]
  simp

theorem take_offset_succ {idx : ℕ} (h : idx < (splitlines text).length) :
    text.take (offset text (idx + 1)) = text.take (offset text idx) ++ (splitlines text)[idx] := by
  rw [take_offset, take_offset, List.take_succ_eq_append_getElem h, List.flatten_append,
    List.flatten_singleton]

theorem length_take_offset (idx : ℕ) : (text.take (offset text idx)).length = offset text idx := by
  rw [List.length_take, Nat.min_eq_left (offset_le text idx)]

theorem rowStop_le (idx : ℕ) : rowStop text idx ≤ offset text (idx + 1) := by
  rw [← length_take_offset (idx + 1)]
  exact (List.rdropWhile_prefix _ _).length_le

theorem lt_rowStop {idx : ℕ} (h : idx < (splitlines text).length)
    (hrow : isBlankLine text idx = false) : offset text idx < rowStop text idx := by
  rw [rowStop, take_offset_succ h]
  have hlt := length_rdropWhile_append (l := text.take (offset text idx))
    ((not_isBlankLine_iff h).mp hrow)
  rwa [length_take_offset] at hlt

theorem rowStop_of_blank {idx m : ℕ} (hlt : idx < m) (hm : m ≤ (splitlines text).length)
    (h : ∀ i, idx < i → i < m → isBlankLine text i = true) :
    ((text.take (offset text m)).rdropWhile space).length = rowStop text idx := by
  induction m with
  | zero => omega
  | succ m ih =>
    rcases Nat.eq_or_lt_of_le (Nat.le_of_lt_succ hlt) with heq | hbelow
    · rw [heq]
      rfl
    · have hblank := (isBlankLine_iff hm).mp (h m hbelow (Nat.lt_succ_self m))
      rw [take_offset_succ hm, rdropWhile_append_all _ hblank]
      exact ih hbelow (Nat.le_of_succ_le hm) fun i hi him => h i hi (Nat.lt_succ_of_lt him)

/-- The block of a group runs from its first line to the end of the text of its last one. -/
theorem groupBlock_spec {group : List ℕ} {a b : ℕ} (hheader : headerLine ≠ [])
    (hfirst : group.head? = some a) (hlast : group.getLast? = some b) (hab : a ≤ b)
    (hb : b < (splitlines text).length) (hrow : isBlankLine text b = false) :
    ∃ block, groupBlock text headerLine group = .ok block ∧ block.charStart = offset text a ∧
      block.charEnd = rowStop text b ∧
      block.text = headerLine ++ '\n' :: slice text (offset text a) (rowStop text b) := by
  have hstart : ((lineSpans text).getD (group.headD 0) (0, 0)).1 = offset text a := by
    rw [List.headD_eq_head?_getD, hfirst, Option.getD_some, lineSpans_getD text (by omega)]
  have hstop : ((lineSpans text).getD (group.getLastD 0) (0, 0)).2 = offset text (b + 1) := by
    rw [List.getLastD_eq_getLast?, hlast, Option.getD_some, lineSpans_getD text hb]
  have hle : offset text a ≤ offset text b := offset_mono text hab
  have hlt := lt_rowStop hb hrow
  have hbody : (slice text (offset text a) (offset text (b + 1))).rdropWhile space =
      slice text (offset text a) (rowStop text b) := by
    have htake : (text.take (offset text (b + 1))).rdropWhile space =
        text.take (rowStop text b) := by
      have hpre := (List.rdropWhile_prefix space (text.take (offset text (b + 1)))).trans
        (List.take_prefix (offset text (b + 1)) text)
      exact List.prefix_iff_eq_take.mp hpre
    rw [slice, rdropWhile_drop, htake, slice]
    change offset text a ≤ rowStop text b
    omega
  have hlen : offset text a + (slice text (offset text a) (rowStop text b)).length =
      rowStop text b := by
    have hend : rowStop text b ≤ text.length := (rowStop_le b).trans (offset_le text (b + 1))
    rw [slice_length, Nat.min_eq_left hend]
    omega
  have hempty : headerLine.isEmpty = false := by simpa using hheader
  unfold groupBlock tableBlock
  simp only [hstart, hstop, hbody, hlen, hempty]
  rw [dif_pos (by omega)]
  exact ⟨_, rfl, rfl, rfl, rfl⟩

theorem mem_rows {idx : ℕ} : idx ∈ rows text ↔
    1 ≤ idx ∧ idx < (splitlines text).length ∧ isBlankLine text idx = false := by
  rw [rows, List.mem_filter, List.mem_range'_1, chompedLines_length, Bool.not_eq_true', and_assoc]
  apply and_congr_right
  intro hpos
  have hend : idx < 1 + ((splitlines text).length - 1) ↔ idx < (splitlines text).length := by omega
  rw [hend]

theorem rows_pairwise (text : List Char) : (rows text).Pairwise (· < ·) :=
  (List.pairwise_lt_range' 1).filter _

theorem rows_lt {i j a b : ℕ} (h : i < j) (ha : (rows text)[i]? = some a)
    (hb : (rows text)[j]? = some b) : a < b := by
  rcases List.getElem?_eq_some_iff.mp ha with ⟨hi, rfl⟩
  rcases List.getElem?_eq_some_iff.mp hb with ⟨hj, rfl⟩
  exact List.pairwise_iff_getElem.mp (rows_pairwise text) i j hi hj h

theorem rows_le {i j a b : ℕ} (h : i ≤ j) (ha : (rows text)[i]? = some a)
    (hb : (rows text)[j]? = some b) : a ≤ b := by
  rcases Nat.eq_or_lt_of_le h with heq | hlt
  · rw [heq, hb] at ha
    cases ha
    exact le_refl _
  · exact (rows_lt hlt ha hb).le

theorem offset_lt_rowStop {k idx : ℕ} (hk : (rows text)[k]? = some idx) :
    offset text idx < rowStop text idx := by
  have hmem := mem_rows.mp (List.mem_of_getElem? hk)
  exact lt_rowStop hmem.2.1 hmem.2.2

theorem rowStop_le_offset {j k a b : ℕ} (h : j < k) (ha : (rows text)[j]? = some a)
    (hb : (rows text)[k]? = some b) : rowStop text a ≤ offset text b :=
  (rowStop_le a).trans (offset_mono text (rows_lt h ha hb))

def rowCount (text : List Char) : ℕ :=
  (chompedLines text).countP fun line => !(strip line).isEmpty

theorem lt_iff_of_pairwise {l : List ℕ} (h : l.Pairwise (· < ·)) {k a : ℕ} (m : ℕ)
    (hk : l[k]? = some a) : a < m ↔ k < l.countP (· < m) := by
  induction l generalizing k with
  | nil => simp at hk
  | cons b l ih =>
    rw [List.pairwise_cons] at h
    by_cases hb : b < m
    · rw [List.countP_cons_of_pos (by simpa using hb)]
      cases k with
      | zero =>
        cases hk
        simpa using hb
      | succ k =>
        rw [ih h.2 hk]
        omega
    · have hzero : l.countP (· < m) = 0 := by
        rw [List.countP_eq_zero]
        intro c hc
        have hlt := h.1 c hc
        simp only [decide_eq_true_eq]
        omega
      rw [List.countP_cons_of_neg (by simpa using hb), hzero]
      cases k with
      | zero =>
        cases hk
        simpa using hb
      | succ k =>
        have hlt := h.1 a (List.mem_of_getElem? hk)
        omega

theorem length_filter_range' {β : Type} (p : β → Bool) (l : List β) (d : β) (s k : ℕ)
    (h : s + k ≤ l.length) :
    ((List.range' s k).filter fun i => p (l.getD i d)).length = ((l.drop s).take k).countP p := by
  induction k generalizing s with
  | zero => simp
  | succ k ih =>
    have hlt : s < l.length := by omega
    have hget : l.getD s d = l[s] := by simp [List.getD_eq_getElem?_getD, hlt]
    rw [List.range'_succ, List.drop_eq_getElem_cons hlt, List.take_succ_cons, List.filter_cons, hget,
      List.countP_cons, ← ih (s + 1) (by omega)]
    split_ifs <;> simp

theorem countP_rows {m : ℕ} (hpos : 1 ≤ m) (hm : m ≤ (chompedLines text).length) :
    (rows text).countP (· < m) =
      (((chompedLines text).drop 1).take (m - 1)).countP fun line => !(strip line).isEmpty := by
  have hsplit : List.range' 1 ((chompedLines text).length - 1) =
      List.range' 1 (m - 1) ++ List.range' m ((chompedLines text).length - m) := by
    have happend : List.range' 1 (m - 1) ++
        List.range' (1 + (m - 1)) ((chompedLines text).length - m) = _ := List.range'_append_1
    rw [Nat.add_sub_cancel' hpos] at happend
    rw [happend]
    congr 1
    omega
  rw [rows, hsplit, List.filter_append, List.countP_append,
    List.countP_eq_length.mpr, List.countP_eq_zero.mpr, Nat.add_zero]
  · exact length_filter_range' (fun line => !(strip line).isEmpty) _ [] 1 (m - 1) (by omega)
  · intro idx hidx
    have hrange := List.mem_range'_1.mp (List.mem_of_mem_filter hidx)
    simp only [decide_eq_true_eq]
    omega
  · intro idx hidx
    have hrange := List.mem_range'_1.mp (List.mem_of_mem_filter hidx)
    simp only [decide_eq_true_eq]
    omega

theorem rowCount_eq (hfirst : isBlankLine text 0 = false) :
    rowCount text = (rows text).length + 1 := by
  have hlen := chompedLines_length text
  cases hl : chompedLines text with
  | nil =>
    rw [isBlankLine, hl] at hfirst
    cases hfirst
  | cons line lines =>
    have hpos : 1 ≤ (chompedLines text).length := by
      rw [hl, List.length_cons]
      omega
    have hall := countP_rows hpos (le_refl _)
    rw [List.countP_eq_length.mpr] at hall
    · rw [isBlankLine, hl] at hfirst
      rw [hall, rowCount, hl, List.countP_cons_of_pos (by simpa using hfirst)]
      simp
    · intro idx hidx
      have hmem := mem_rows.mp hidx
      simp only [decide_eq_true_eq]
      omega

theorem rows_length (hfirst : isBlankLine text 0 = false) :
    (rows text).length = rowCount text - 1 := by
  rw [rowCount_eq hfirst, Nat.add_sub_cancel]

structure BlockAt (text headerLine : List Char) (rowsPerBlock x : ℕ) (b : FlowBlock Char) : Prop where
  inside : rowsPerBlock * x < (rows text).length
  start : ∃ idx, (rows text)[rowsPerBlock * x]? = some idx ∧ b.charStart = offset text idx
  stop : ∃ idx, (rows text)[batchStop rowsPerBlock (rows text).length x - 1]? = some idx ∧
    b.charEnd = rowStop text idx
  text : b.text = headerLine ++ '\n' :: slice text b.charStart b.charEnd

theorem batch_block {group : List ℕ} {x : ℕ} (hheader : headerLine ≠ []) (hsize : 0 < rowsPerBlock)
    (h : (batches rowsPerBlock (rows text))[x]? = some group) :
    ∃ b, groupBlock text headerLine group = .ok b ∧ BlockAt text headerLine rowsPerBlock x b := by
  rcases of_batches_getElem? hsize h with ⟨hlt, hhead, hlast⟩
  have hstop := lt_batchStop hsize hlt
  have hbound := batchStop_le rowsPerBlock (rows text).length x
  have hend : batchStop rowsPerBlock (rows text).length x - 1 < (rows text).length := by omega
  have hhead' := List.getElem?_eq_getElem hlt
  have hlast' := List.getElem?_eq_getElem hend
  have hle := rows_le (by omega) hhead' hlast'
  have hrow := mem_rows.mp (List.getElem_mem hend)
  rcases groupBlock_spec hheader (hhead.trans hhead') (hlast.trans hlast') hle hrow.2.1 hrow.2.2 with
    ⟨b, hb, hcharStart, hcharEnd, htext⟩
  refine ⟨b, hb, hlt, ⟨_, hhead', hcharStart⟩, ⟨_, hlast', hcharEnd⟩, ?_⟩
  rw [htext, hcharStart, hcharEnd]

/-- Under a header `split_csv` makes one block of each batch of rows. -/
theorem splitCsv_spec {delimiter : Char} (hfirst : isBlankLine text 0 = false)
    (hheader : headerOf text delimiter ≠ []) (hsize : 0 < rowsPerBlock) :
    ∃ bs, splitCsv text rowsPerBlock delimiter = .ok bs ∧
      (∀ x, rowsPerBlock * x < (rows text).length → ∃ b, bs[x]? = some b) ∧
      ∀ x b, bs[x]? = some b →
        BlockAt text ((chompedLines text).getD 0 []) rowsPerBlock x b := by
  have hline : (chompedLines text).getD 0 [] ≠ [] := by
    intro hnil
    rw [isBlankLine, hnil] at hfirst
    cases hfirst
  have hlines : (chompedLines text).isEmpty = false := by
    cases hl : chompedLines text with
    | nil => exact absurd (by rw [hl]; rfl) hline
    | cons => rfl
  have hhas : (!(headerOf text delimiter).isEmpty) = true := by simpa using hheader
  have hblock : ∀ group ∈ batches rowsPerBlock (rows text),
      ∃ b, groupBlock text ((chompedLines text).getD 0 []) group = .ok b := by
    intro group hgroup
    rcases List.mem_iff_getElem?.mp hgroup with ⟨x, hx⟩
    rcases batch_block hline hsize hx with ⟨b, hb, -⟩
    exact ⟨b, hb⟩
  rcases Exceptions.mapM_ok hblock with ⟨bs, hbs, hall⟩
  refine ⟨bs, ?_, ?_, ?_⟩
  · unfold splitCsv
    simp only [hlines, hhas, if_true]
    rw [if_neg (by decide)]
    refine (foldlM_rowStep {} (List.range' 1 ((chompedLines text).length - 1))).trans ?_
    change (do
      let blocks ← (batches rowsPerBlock (rows text)).mapM _
      return [] ++ blocks) = _
    rw [hbs]
    rfl
  · intro x hx
    have hbatch := batches_getElem? (rows text) hsize x
    rw [if_pos hx] at hbatch
    have hmap := congrArg (fun l => l[x]?) hall
    simp only [List.getElem?_map, hbatch, Option.map_some, Option.map_eq_some_iff] at hmap
    rcases hmap with ⟨b, hb, -⟩
    exact ⟨b, hb⟩
  · intro x b hb
    have hmap := congrArg (fun l => l[x]?) hall
    simp only [List.getElem?_map, hb, Option.map_some] at hmap
    rcases Option.map_eq_some_iff.mp hmap.symm with ⟨group, hgroup, hok⟩
    rcases batch_block hline hsize hgroup with ⟨b', hb', hat⟩
    rw [hok] at hb'
    cases hb'
    exact hat

end
end Ragent.CsvBlocks
