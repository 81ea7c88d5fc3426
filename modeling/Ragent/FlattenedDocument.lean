import Mathlib.Data.List.Chain
import Mathlib.Data.List.Sort
import Ragent.SourceTypes

set_option autoImplicit false

/-!
# Blocks to one text and back

`_flatten`, `_blocks_in_range`, `_prepare` and `_assemble` of `ragent/ingest/chunking.py`: what
the four chunking strategies share.
-/
namespace Ragent.FlattenedDocument
open SpacedWords PyText SourceTypes

variable {α : Type} [Glyph α]

def blockJoin : List α := lit "\n\n"

/-- `_Span`: where a block's text landed in the flattened document. -/
structure Span (α : Type) where
  start : ℕ
  stop : ℕ
  block : SourceBlock α

/-- `sep.join(parts)` -/
def join (sep : List α) : List (List α) → List α
  | [] => []
  | [part] => part
  | part :: parts => part ++ sep ++ join sep parts

structure FlattenState (α : Type) where
  parts : List (List α)
  spans : List (Span α)
  cursor : ℕ

/-- The body of the loop in `_flatten`. -/
def flattenStep (st : FlattenState α) (block : SourceBlock α) : FlattenState α :=
  let text := strip block.text
  if text.isEmpty then st
  else
    let cursor := if st.parts.isEmpty then st.cursor
      else st.cursor + (blockJoin : List α).length
    { parts := st.parts ++ [text]
      spans := st.spans ++ [⟨cursor, cursor + text.length, block⟩]
      cursor := cursor + text.length }

def flatten (blocks : List (SourceBlock α)) : List α × List (Span α) :=
  let st := blocks.foldl flattenStep ⟨[], [], 0⟩
  (join blockJoin st.parts, st.spans)

/-- `_blocks_in_range`: blocks whose text overlaps [start, stop). -/
def blocksInRange (spans : List (Span α)) (start stop : ℕ) : List (SourceBlock α) :=
  (spans.filter fun s => s.start < stop ∧ start < s.stop).map (·.block)

/-- The sort key `(page_no, reading_order)`. -/
def inOrder (a b : SourceBlock α) : Prop :=
  a.pageNo < b.pageNo ∨ (a.pageNo = b.pageNo ∧ a.readingOrder ≤ b.readingOrder)

instance (a b : SourceBlock α) : Decidable (inOrder a b) :=
  inferInstanceAs (Decidable (_ ∨ _))

def isContent (b : SourceBlock α) : Bool := !(strip b.text).isEmpty && !b.isFurniture

/-- `_prepare`: drop page furniture and anything empty, then fix reading order. -/
def prepare (blocks : List (SourceBlock α)) : List (SourceBlock α) :=
  (blocks.filter isContent).insertionSort inOrder

/-- `max(paths, key=len, default=())`: the first of the longest. -/
def longest : List (List String) → List String
  | [] => []
  | path :: paths => paths.foldl (fun best p => if best.length < p.length then p else best) path

def assemble (seq : ℕ) (text : List α) (blocks : List (SourceBlock α)) (strategy : String)
    (countTokens : TokenCounter) : Option (Chunk α) :=
  let text := strip text
  if text.isEmpty || blocks.isEmpty then none
  else
    let paged := blocks.filter (·.isPaged)
    let ranges := blocks.filterMap (·.charRange)
    some
      { seq := seq
        text := text
        blockIds := blocks.map (·.id)
        pageFrom := (paged.map (·.pageNo)).min?
        pageTo := (paged.map (·.pageNo)).max?
        charStart := (ranges.map (·.1)).min?
        charEnd := (ranges.map (·.2)).max?
        tokenCount := countTokens (plain text)
        sectionPath := longest (blocks.map (·.sectionPath))
        strategy := strategy }

/-- The loop of the two overlap passes: every chunk but the first is rebuilt with the one before
    it at hand. -/
def withPrevious (f : Chunk α → Chunk α → Chunk α) : List (Chunk α) → List (Chunk α)
  | [] => []
  | first :: rest => first :: List.zipWith f (first :: rest) rest

theorem isContent_iff {b : SourceBlock α} :
    isContent b = true ↔ words space b.text ≠ [] ∧ b.isFurniture = false := by
  have hstrip : strip b.text = [] ↔ words space b.text = [] := trim_eq_nil_iff
  simp [isContent, hstrip]

theorem mem_prepare {blocks : List (SourceBlock α)} {b : SourceBlock α} :
    b ∈ prepare blocks ↔ b ∈ blocks ∧ words space b.text ≠ [] ∧ b.isFurniture = false := by
  rw [prepare, List.mem_insertionSort, List.mem_filter, isContent_iff]

theorem prepare_perm (blocks : List (SourceBlock α)) :
    (prepare blocks).Perm (blocks.filter isContent) :=
  List.perm_insertionSort _ _

theorem filter_orderedInsert {β : Type} (r : β → β → Prop) [DecidableRel r] [IsTrans β r]
    (p : β → Bool) (a : β) {l : List β} (hl : l.Pairwise r) :
    (l.orderedInsert r a).filter p =
      if p a then (l.filter p).orderedInsert r a else l.filter p := by
  induction l with
  | nil => cases hp : p a <;> simp [hp]
  | cons b l ih =>
    obtain ⟨hb, hl⟩ := List.pairwise_cons.mp hl
    by_cases hab : r a b
    · rw [List.orderedInsert_cons_of_le _ _ hab, List.filter_cons]
      split_ifs with hp
      · -- whatever the filter leaves of `b :: l` comes behind `a`
        have hall : ∀ x ∈ (b :: l).filter p, r a x := by
          intro x hx
          rcases List.mem_cons.mp (List.mem_of_mem_filter hx) with rfl | hx
          · exact hab
          · exact Trans.trans hab (hb x hx)
        cases hf : (b :: l).filter p with
        | nil => rfl
        | cons x xs =>
          rw [List.orderedInsert_cons_of_le _ _ (hall x (by simp [hf]))]
      · rfl
    · rw [List.orderedInsert_of_not_le _ _ hab, List.filter_cons, List.filter_cons, ih hl]
      cases hp : p b
      · rfl
      · simp only [↓reduceIte]
        rw [List.orderedInsert_of_not_le _ _ hab]
        split_ifs <;> rfl

theorem filter_insertionSort {β : Type} (r : β → β → Prop) [DecidableRel r] [Std.Total r]
    [IsTrans β r] (p : β → Bool) (l : List β) :
    (l.insertionSort r).filter p = (l.filter p).insertionSort r := by
  induction l with
  | nil => rfl
  | cons a l ih =>
    rw [List.insertionSort_cons, filter_orderedInsert r p a (List.pairwise_insertionSort r l), ih,
      List.filter_cons]
    split_ifs <;> rfl

instance : Std.Total (inOrder (α := α)) where
  total a b := by
    unfold inOrder
    omega

instance : IsTrans (SourceBlock α) inOrder where
  trans a b c := by
    unfold inOrder
    omega

/-- Dropping the blank blocks before the sort or behind it makes no difference. -/
theorem prepare_eq (blocks : List (SourceBlock α)) :
    prepare blocks = ((blocks.filter fun b => !b.isFurniture).insertionSort inOrder).filter
      fun b => !(strip b.text).isEmpty := by
  rw [filter_insertionSort, List.filter_filter]
  rfl

theorem prepare_sorted (blocks : List (SourceBlock α)) : (prepare blocks).Pairwise inOrder :=
  List.pairwise_insertionSort _ _

theorem prepare_ids_nodup {blocks : List (SourceBlock α)}
    (hids : (blocks.map (·.id)).Nodup) : ((prepare blocks).map (·.id)).Nodup := by
  have hperm := (prepare_perm blocks).map (·.id)
  rw [hperm.nodup_iff]
  exact hids.sublist (List.filter_sublist.map _)

omit [Glyph α] in
theorem join_concat (sep : List α) (parts : List (List α)) (part : List α) :
    join sep (parts ++ [part]) = if parts.isEmpty then part else join sep parts ++ sep ++ part := by
  induction parts with
  | nil => rfl
  | cons p parts ih =>
    cases parts with
    | nil => simp [join]
    | cons p' parts =>
      have hsplit : join sep (p :: (p' :: parts)) = p ++ sep ++ join sep (p' :: parts) := rfl
      have hstep : join sep (p :: (p' :: parts ++ [part])) =
          p ++ sep ++ join sep (p' :: parts ++ [part]) := rfl
      rw [List.cons_append, hstep, ih, hsplit]
      simp

theorem words_join {sep : List α} (hne : sep ≠ []) (hsep : ∀ a ∈ sep, space a = true)
    (parts : List (List α)) : words space (join sep parts) = parts.flatMap (words space) := by
  induction parts using List.reverseRecOn with
  | nil => rfl
  | append_singleton parts part ih =>
    rw [join_concat, List.flatMap_append, List.flatMap_singleton]
    split_ifs with hnil
    · simp [List.isEmpty_iff.mp hnil]
    · rw [words_append_apart hne hsep, ih]

/-- The document and the spans `_flatten` has built so far. -/
inductive Flattened : List α → List (Span α) → Prop
  | empty : Flattened [] []
  | first (b : SourceBlock α) (h : strip b.text ≠ []) :
    Flattened (strip b.text) [⟨0, (strip b.text).length, b⟩]
  | next {doc : List α} {spans : List (Span α)} (b : SourceBlock α) (h : strip b.text ≠ [])
    (hne : spans ≠ []) (hd : Flattened doc spans) :
    Flattened (doc ++ blockJoin ++ strip b.text)
      (spans ++ [⟨doc.length + (blockJoin : List α).length,
        doc.length + (blockJoin : List α).length + (strip b.text).length, b⟩])

/-- What the loop state of `_flatten` means after the blocks `done`. -/
structure FlattenInv (st : FlattenState α) (done : List (SourceBlock α)) : Prop where
  flattened : Flattened (join blockJoin st.parts) st.spans
  cursor : st.cursor = (join blockJoin st.parts).length
  empty : st.parts = [] ↔ st.spans = []
  blocks : st.spans.map (·.block) = done.filter fun b => !(strip b.text).isEmpty

theorem flattenStep_inv {st : FlattenState α} {done : List (SourceBlock α)}
    (h : FlattenInv st done) (b : SourceBlock α) :
    FlattenInv (flattenStep st b) (done ++ [b]) := by
  obtain ⟨hflat, hcur, hempty, hblocks⟩ := h
  by_cases ht : strip b.text = []
  · have hstep : flattenStep st b = st := by simp [flattenStep, ht]
    rw [hstep]
    exact ⟨hflat, hcur, hempty, by simp [hblocks, ht]⟩
  by_cases hp : st.parts = []
  · have hs := hempty.mp hp
    have h0 : st.cursor = 0 := by simpa [hp, join] using hcur
    have hstep : flattenStep st b =
        ⟨[strip b.text], [⟨0, (strip b.text).length, b⟩], (strip b.text).length⟩ := by
      simp [flattenStep, ht, hp, hs, h0]
    rw [hstep]
    refine ⟨.first b ht, rfl, by simp, ?_⟩
    have hnone : done.filter (fun b => !(strip b.text).isEmpty) = [] := by simpa [hs] using hblocks.symm
    rw [List.filter_append, hnone]
    simp [ht]
  · have hs : st.spans ≠ [] := fun h0 => hp (hempty.mpr h0)
    have hjoin : join blockJoin (st.parts ++ [strip b.text]) =
        join blockJoin st.parts ++ blockJoin ++ strip b.text := by
      rw [join_concat]
      simp [hp]
    have hstep : flattenStep st b =
        ⟨st.parts ++ [strip b.text],
          st.spans ++ [⟨st.cursor + (blockJoin : List α).length,
            st.cursor + (blockJoin : List α).length + (strip b.text).length, b⟩],
          st.cursor + (blockJoin : List α).length + (strip b.text).length⟩ := by
      simp [flattenStep, ht, hp]
    rw [hstep]
    refine ⟨?_, ?_, by simp, ?_⟩
    · simp only [hjoin, hcur]
      exact .next b ht hs hflat
    · simp [hjoin, hcur, Nat.add_assoc]
    · simp [hblocks, ht]

theorem foldl_flattenStep_inv (blocks : List (SourceBlock α)) :
    FlattenInv (blocks.foldl flattenStep ⟨[], [], 0⟩) blocks := by
  induction blocks using List.reverseRecOn with
  | nil => exact ⟨.empty, rfl, by simp, rfl⟩
  | append_singleton blocks b ih =>
    rw [List.foldl_concat]
    exact flattenStep_inv ih b

theorem flatten_flattened (blocks : List (SourceBlock α)) :
    Flattened (flatten blocks).1 (flatten blocks).2 :=
  (foldl_flattenStep_inv blocks).flattened

theorem flatten_blocks (blocks : List (SourceBlock α)) :
    (flatten blocks).2.map (·.block) = blocks.filter fun b => !(strip b.text).isEmpty :=
  (foldl_flattenStep_inv blocks).blocks

theorem flatten_prepare_blocks (blocks : List (SourceBlock α)) :
    (flatten (prepare blocks)).2.map (·.block) = prepare blocks := by
  rw [flatten_blocks, List.filter_eq_self]
  intro b hb
  simpa [strip_eq_nil_iff] using (mem_prepare.mp hb).2.1

theorem blockJoin_space : ∀ a ∈ (blockJoin : List α), space a = true := by
  have hplain : (plain (blockJoin : List α)).all isSpace = true := by
    rw [blockJoin, plain_lit]
    decide
  simpa [plain, space] using hplain

theorem words_slice_joined (doc text : List α) (s e : ℕ) :
    words space (slice (doc ++ blockJoin ++ text) s e) =
      words space (slice doc s e) ++
        words space (slice text (s - (doc.length + (blockJoin : List α).length))
          (e - (doc.length + (blockJoin : List α).length))) := by
  have hgap : ∀ a ∈ slice (blockJoin : List α) (s - doc.length) (e - doc.length), space a = true :=
    fun a ha => blockJoin_space a ((slice_isInfix _ _ _).subset ha)
  have hlen : 0 < (blockJoin : List α).length := by simp [blockJoin, lit]
  rw [List.append_assoc, slice_append, slice_append, Nat.sub_sub, Nat.sub_sub]
  rw [words_append, words_spaces_append _ hgap]
  rcases Nat.lt_or_ge s doc.length with hs | hs
  · rcases Nat.lt_or_ge doc.length e with he | he
    · -- the join stands between the two texts
      refine apart_of_head _ fun a ha => hgap a ?_
      have hne : slice (blockJoin : List α) (s - doc.length) (e - doc.length) ≠ [] := by
        rw [← List.length_pos_iff, slice_length]
        omega
      rw [List.head?_append_of_ne_nil _ hne] at ha
      exact List.mem_of_mem_head? ha
    · have hnil : ∀ l : List α, slice l (s - doc.length) (e - doc.length) = [] := by
        intro l
        simp [slice, Nat.sub_eq_zero_of_le he]
      have hnil' : slice text (s - (doc.length + (blockJoin : List α).length))
          (e - (doc.length + (blockJoin : List α).length)) = [] := by
        simp [slice, Nat.sub_eq_zero_of_le (he.trans (Nat.le_add_right _ _))]
      rw [hnil, hnil']
      exact apart_nil_right _
  · have hnil : slice doc s e = [] := by simp [slice, hs]
    rw [hnil]
    exact apart_nil_left _

theorem Flattened.words_slice {doc : List α} {spans : List (Span α)} (h : Flattened doc spans)
    (s e : ℕ) : words space (slice doc s e) =
      spans.flatMap fun sp => words space (slice (strip sp.block.text) (s - sp.start)
        (e - sp.start)) := by
  induction h with
  | empty => simp [slice]
  | first b hb => simp
  | next b hb hne hd ih => rw [words_slice_joined, ih, List.flatMap_append, List.flatMap_singleton]

theorem Flattened.span_text {doc : List α} {spans : List (Span α)} (h : Flattened doc spans) :
    ∀ sp ∈ spans, sp.stop = sp.start + (strip sp.block.text).length ∧ sp.stop ≤ doc.length ∧
      strip sp.block.text ≠ [] ∧ slice doc sp.start sp.stop = strip sp.block.text := by
  induction h with
  | empty => simp
  | first b hb => simpa [slice] using hb
  | @next doc spans b hb hne hd ih =>
    intro sp hsp
    rcases List.mem_append.mp hsp with hsp | hsp
    · obtain ⟨h1, h2, h3, h4⟩ := ih sp hsp
      refine ⟨h1, ?_, h3, ?_⟩
      · simp only [List.length_append]
        omega
      · rw [List.append_assoc, slice_append_left _ _ h2, h4]
    · rw [List.mem_singleton] at hsp
      subst hsp
      refine ⟨rfl, by simp [Nat.add_assoc], hb, ?_⟩
      have hlen : (doc ++ blockJoin).length = doc.length + (blockJoin : List α).length := by simp
      rw [← hlen, slice_append_right _ _ _ (le_refl _), Nat.sub_self]
      simp [slice]

theorem Flattened.words_doc {doc : List α} {spans : List (Span α)} (h : Flattened doc spans) :
    words space doc = (spans.map (·.block)).flatMap fun b => words space b.text := by
  have hall : ∀ sp ∈ spans, words space (slice (strip sp.block.text) (0 - sp.start)
      (doc.length - sp.start)) = words space sp.block.text := by
    intro sp hsp
    obtain ⟨h1, h2, -, -⟩ := h.span_text sp hsp
    rw [Nat.zero_sub, slice_of_le _ (by omega), List.drop_zero, words_strip]
  have hslice := h.words_slice 0 doc.length
  rw [slice_to_end, List.drop_zero] at hslice
  rw [hslice, List.flatMap_map]
  exact List.flatMap_congr hall

omit [Glyph α] in
theorem mem_blocksInRange {spans : List (Span α)} {s e : ℕ} {b : SourceBlock α} :
    b ∈ blocksInRange spans s e ↔ ∃ sp ∈ spans, sp.start < e ∧ s < sp.stop ∧ sp.block = b := by
  simp [blocksInRange, and_assoc]

theorem Flattened.word_of_block {doc w : List α} {spans : List (Span α)} {s e : ℕ}
    (h : Flattened doc spans) (hs : IsCut space doc s) (he : IsCut space doc e)
    (hw : w ∈ words space (slice doc s e)) :
    ∃ b ∈ blocksInRange spans s e, w ∈ words space b.text := by
  rw [h.words_slice, List.mem_flatMap] at hw
  obtain ⟨sp, hsp, hw⟩ := hw
  obtain ⟨hstop, -, -, htext⟩ := h.span_text sp hsp
  have hcut : ∀ p, IsCut space doc p → IsCut space (strip sp.block.text) (p - sp.start) := by
    intro p hp
    rw [← htext]
    exact hp.slice sp.start sp.stop
  have hne : slice (strip sp.block.text) (s - sp.start) (e - sp.start) ≠ [] := by
    rintro h0
    simp [h0] at hw
  rw [← List.length_pos_iff, slice_length] at hne
  refine ⟨sp.block, mem_blocksInRange.mpr ⟨sp, hsp, by omega, by omega, rfl⟩, ?_⟩
  rw [← words_strip]
  exact words_slice_subset (hcut s hs) (hcut e he) hw

theorem Flattened.span_head {doc : List α} {spans : List (Span α)} (h : Flattened doc spans) :
    ∀ sp ∈ spans, ∃ a, doc[sp.start]? = some a ∧ space a = false := by
  intro sp hsp
  obtain ⟨hstop, -, hne, htext⟩ := h.span_text sp hsp
  refine ⟨(strip sp.block.text).head hne, ?_, trim_head hne⟩
  have hhead : (slice doc sp.start sp.stop).head? = some ((strip sp.block.text).head hne) := by
    rw [htext, List.head?_eq_some_head hne]
  have hpos := List.length_pos_iff.mpr hne
  rwa [slice, List.head?_drop, List.getElem?_take, if_pos (by omega)] at hhead

theorem Flattened.words_ne_nil {doc : List α} {spans : List (Span α)} (h : Flattened doc spans)
    (hne : doc ≠ []) : words space doc ≠ [] := by
  have hspans : spans ≠ [] := by
    cases h with
    | empty => exact absurd rfl hne
    | first => exact List.cons_ne_nil _ _
    | next => simp
  obtain ⟨sp, rest, rfl⟩ := List.exists_cons_of_ne_nil hspans
  obtain ⟨a, ha, hsolid⟩ := h.span_head sp List.mem_cons_self
  intro h0
  have hspace := words_eq_nil_iff.mp h0 a (List.mem_of_getElem? ha)
  simp [hsolid] at hspace

theorem Flattened.mem_span {doc : List α} {spans : List (Span α)} {a : α} {p : ℕ}
    (h : Flattened doc spans) (hp : doc[p]? = some a) (ha : space a = false) :
    ∃ sp ∈ spans, sp.start ≤ p ∧ p < sp.stop := by
  induction h with
  | empty => simp at hp
  | first b hb =>
    have hlt := (List.getElem?_eq_some_iff.mp hp).choose
    exact ⟨_, List.mem_singleton_self _, Nat.zero_le p, hlt⟩
  | @next doc spans b hb hne hd ih =>
    rcases Nat.lt_or_ge p doc.length with hlt | hge
    · rw [List.append_assoc, List.getElem?_append_left hlt] at hp
      obtain ⟨sp, hsp, hin⟩ := ih hp
      exact ⟨sp, List.mem_append_left _ hsp, hin⟩
    · rw [List.append_assoc, List.getElem?_append_right hge] at hp
      rcases Nat.lt_or_ge (p - doc.length) (blockJoin : List α).length with hlt | hge2
      · rw [List.getElem?_append_left hlt] at hp
        simp [blockJoin_space a (List.mem_of_getElem? hp)] at ha
      · rw [List.getElem?_append_right hge2] at hp
        have hlt := (List.getElem?_eq_some_iff.mp hp).choose
        refine ⟨_, List.mem_append_right _ (List.mem_singleton_self _), ?_, ?_⟩
        · change doc.length + (blockJoin : List α).length ≤ p
          omega
        · change p < doc.length + (blockJoin : List α).length + (strip b.text).length
          omega

theorem Flattened.blocksInRange_ne_nil {doc : List α} {spans : List (Span α)} {s e : ℕ}
    (h : Flattened doc spans) (hne : words space (slice doc s e) ≠ []) :
    blocksInRange spans s e ≠ [] := by
  have hmem : ∃ a ∈ slice doc s e, space a = false := by
    by_contra hall
    push Not at hall
    exact hne (words_of_spaces fun a ha => by simpa using hall a ha)
  obtain ⟨a, ha, hns⟩ := hmem
  obtain ⟨p, hs, he, hp⟩ := mem_slice.mp ha
  obtain ⟨sp, hsp, hin⟩ := h.mem_span hp hns
  exact List.ne_nil_of_mem (mem_blocksInRange.mpr ⟨sp, hsp, by omega, by omega, rfl⟩)

theorem Flattened.ordered {doc : List α} {spans : List (Span α)} (h : Flattened doc spans) :
    spans.Pairwise fun a b => a.stop ≤ b.start := by
  induction h with
  | empty => exact .nil
  | first => exact List.pairwise_singleton _ _
  | @next doc spans b hb hne hd ih =>
    refine List.pairwise_append.mpr ⟨ih, List.pairwise_singleton _ _, fun sp hsp sp' hsp' => ?_⟩
    have hlen := (hd.span_text sp hsp).2.1
    rw [List.mem_singleton.mp hsp']
    change sp.stop ≤ doc.length + (blockJoin : List α).length
    omega

theorem Flattened.last_blocksInRange {doc : List α} {spans : List (Span α)} {sp : Span α}
    {s e : ℕ} (h : Flattened doc spans) (hsp : sp ∈ spans) (hs : sp.start < e) (he : s < sp.stop)
    (hlast : e ≤ sp.stop) : (blocksInRange spans s e).getLast? = some sp.block := by
  obtain ⟨front, back, rfl⟩ := List.append_of_mem hsp
  have hback : back.filter (fun t => t.start < e ∧ s < t.stop) = [] := by
    rw [List.filter_eq_nil_iff]
    intro t ht
    have hord := (List.pairwise_cons.mp (List.pairwise_append.mp h.ordered).2.1).1 t ht
    simp only [decide_eq_true_eq]
    omega
  rw [blocksInRange, List.filter_append, List.filter_cons, if_pos (by simp [hs, he]), hback]
  simp

theorem Flattened.blocksInRange_all {doc : List α} {spans : List (Span α)}
    (h : Flattened doc spans) : blocksInRange spans 0 doc.length = spans.map (·.block) := by
  have hall : spans.filter (fun s => s.start < doc.length ∧ 0 < s.stop) = spans := by
    rw [List.filter_eq_self]
    intro sp hsp
    obtain ⟨hstop, hlen, hne, -⟩ := h.span_text sp hsp
    have hpos := List.length_pos_iff.mpr hne
    simp only [decide_eq_true_eq]
    omega
  rw [blocksInRange, hall]

theorem assemble_eq_some {seq : ℕ} {text : List α} {blocks : List (SourceBlock α)}
    {strategy : String} {countTokens : TokenCounter} {c : Chunk α}
    (h : assemble seq text blocks strategy countTokens = some c) :
    words space text ≠ [] ∧ blocks ≠ [] ∧ c.seq = seq ∧ c.text = strip text ∧
      c.blockIds = blocks.map (·.id) ∧
      c.charStart = ((blocks.filterMap (·.charRange)).map (·.1)).min? ∧
      c.charEnd = ((blocks.filterMap (·.charRange)).map (·.2)).max? ∧
      c.strategy = strategy ∧ c.atomic = none := by
  simp only [assemble, Option.ite_none_left_eq_some, Bool.not_eq_true, Bool.or_eq_false_iff,
    List.isEmpty_eq_false_iff, Option.some.injEq] at h
  obtain ⟨⟨ht, hb⟩, rfl⟩ := h
  exact ⟨fun h0 => ht (strip_eq_nil_iff.mpr h0), hb, rfl, rfl, rfl, rfl, rfl, rfl, rfl⟩

def assembled (seq : ℕ) (text : List α) (blocks : List (SourceBlock α)) (strategy : String)
    (countTokens : TokenCounter) : Chunk α :=
  let paged := blocks.filter (·.isPaged)
  let ranges := blocks.filterMap (·.charRange)
  { seq := seq
    text := strip text
    blockIds := blocks.map (·.id)
    pageFrom := (paged.map (·.pageNo)).min?
    pageTo := (paged.map (·.pageNo)).max?
    charStart := (ranges.map (·.1)).min?
    charEnd := (ranges.map (·.2)).max?
    tokenCount := countTokens (plain (strip text))
    sectionPath := longest (blocks.map (·.sectionPath))
    strategy := strategy }

theorem assemble_eq_assembled (seq : ℕ) {text : List α} {blocks : List (SourceBlock α)}
    (strategy : String) (countTokens : TokenCounter) (ht : words space text ≠ [])
    (hb : blocks ≠ []) :
    assemble seq text blocks strategy countTokens =
      some (assembled seq text blocks strategy countTokens) := by
  have hs : strip text ≠ [] := fun h0 => ht (strip_eq_nil_iff.mp h0)
  simp [assemble, assembled, hs, hb]

theorem assemble_eq_none {seq : ℕ} {text : List α} {blocks : List (SourceBlock α)}
    {strategy : String} {countTokens : TokenCounter} :
    assemble seq text blocks strategy countTokens = none ↔ words space text = [] ∨ blocks = [] := by
  simp [assemble, strip_eq_nil_iff, or_iff_not_imp_left]

/-- `c` is filed under the blocks `bs`, and each of its words is a word of one of them. -/
structure DrawsOn (bs : List (SourceBlock α)) (c : Chunk α) : Prop where
  nonempty : bs ≠ []
  blockIds : c.blockIds = bs.map (·.id)
  charStart : c.charStart = ((bs.filterMap (·.charRange)).map (·.1)).min?
  charEnd : c.charEnd = ((bs.filterMap (·.charRange)).map (·.2)).max?
  words : ∀ w ∈ words space c.text, ∃ b ∈ bs, w ∈ words space b.text

theorem successive_cons {β : Type} {first second prev cur : β} {rest : List β} :
    [prev, cur] <:+: first :: second :: rest ↔
      (prev = first ∧ cur = second) ∨ [prev, cur] <:+: second :: rest := by
  rw [List.infix_cons_iff]
  simp

theorem mem_zip_tail {β : Type} {l : List β} {prev cur : β} :
    (prev, cur) ∈ l.zip l.tail ↔ [prev, cur] <:+: l := by
  induction l with
  | nil => simp
  | cons first rest ih =>
    cases rest with
    | nil =>
      have hshort : ¬ [prev, cur] <:+: [first] := fun h => by simpa using h.length_le
      simp [hshort]
    | cons second rest =>
      rw [successive_cons, ← ih]
      simp

theorem isChain_iff_successive {β : Type} {r : β → β → Prop} {l : List β} :
    l.IsChain r ↔ ∀ prev cur, [prev, cur] <:+: l → r prev cur := by
  rw [List.isChain_iff_forall_rel_of_append_cons_cons]
  constructor
  · rintro h prev cur ⟨front, back, heq⟩
    exact @h prev cur front back (by simp [← heq])
  · intro h prev cur front back heq
    exact h prev cur ⟨front, back, by simp [heq]⟩

theorem mem_zipWith_successive {β : Type} {f : β → β → β} {first b : β} {rest : List β} :
    b ∈ List.zipWith f (first :: rest) rest ↔
      ∃ prev cur, [prev, cur] <:+: first :: rest ∧ b = f prev cur := by
  have hzip : List.zipWith f (first :: rest) rest =
      ((first :: rest).zip (first :: rest).tail).map fun p => f p.1 p.2 := by
    rw [List.map_zip_eq_zipWith]
    rfl
  rw [hzip, List.mem_map]
  simp only [Prod.exists, mem_zip_tail, eq_comm]

omit [Glyph α] in
theorem mem_withPrevious {f : Chunk α → Chunk α → Chunk α} {chunks : List (Chunk α)}
    {c : Chunk α} :
    c ∈ withPrevious f chunks ↔
      chunks.head? = some c ∨ ∃ prev cur, [prev, cur] <:+: chunks ∧ c = f prev cur := by
  cases chunks with
  | nil => simp [withPrevious]
  | cons first rest =>
    rw [withPrevious, List.mem_cons, mem_zipWith_successive, List.head?_cons, Option.some.injEq,
      eq_comm]

theorem mem_chunks_cases {β : Type} {l : List β} {c : β} (h : c ∈ l) :
    l.head? = some c ∨ ∃ prev, [prev, c] <:+: l := by
  obtain ⟨front, back, rfl⟩ := List.append_of_mem h
  cases front using List.reverseRecOn with
  | nil => exact Or.inl rfl
  | append_singleton front prev => exact Or.inr ⟨prev, front, back, by simp⟩

end Ragent.FlattenedDocument
