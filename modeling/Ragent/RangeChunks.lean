import Ragent.FlattenedDocument

set_option autoImplicit false

/-!
# Chunks cut out of the flattened document

The `fixed`, `recursive` and `semantic` strategies all turn a list of character ranges into chunks
the same way. What such chunks keep of the document depends on the ranges alone.
-/
namespace Ragent.RangeChunks
open SpacedWords PyText SourceTypes FlattenedDocument

variable {α : Type} [Glyph α]

/-- `_assemble(len(chunks), doc[start:end], _blocks_in_range(spans, start, end), ..)`, appended
    unless it is `None`. -/
def appendRange (doc : List α) (spans : List (Span α)) (strategy : String)
    (countTokens : TokenCounter) (chunks : List (Chunk α)) (r : ℕ × ℕ) : List (Chunk α) :=
  match assemble chunks.length (slice doc r.1 r.2) (blocksInRange spans r.1 r.2) strategy
      countTokens with
  | some chunk => chunks ++ [chunk]
  | none => chunks

def appendRanges (doc : List α) (spans : List (Span α)) (strategy : String)
    (countTokens : TokenCounter) (chunks : List (Chunk α)) (rs : List (ℕ × ℕ)) :
    List (Chunk α) :=
  rs.foldl (appendRange doc spans strategy countTokens) chunks

structure IsRangeChunk (doc : List α) (spans : List (Span α)) (r : ℕ × ℕ) (c : Chunk α) :
    Prop where
  text : c.text = strip (slice doc r.1 r.2)
  blockIds : c.blockIds = (blocksInRange spans r.1 r.2).map (·.id)
  charStart : c.charStart = (((blocksInRange spans r.1 r.2).filterMap (·.charRange)).map (·.1)).min?
  charEnd : c.charEnd = (((blocksInRange spans r.1 r.2).filterMap (·.charRange)).map (·.2)).max?
  notBlank : words space (slice doc r.1 r.2) ≠ []

def notBlank (doc : List α) (r : ℕ × ℕ) : Bool := !(words space (slice doc r.1 r.2)).isEmpty

theorem notBlank_iff {doc : List α} {r : ℕ × ℕ} :
    notBlank doc r = true ↔ words space (slice doc r.1 r.2) ≠ [] := by
  simp [notBlank]

variable {doc : List α} {spans : List (Span α)} (strategy : String) (countTokens : TokenCounter)

def rangeChunk (doc : List α) (spans : List (Span α)) (strategy : String)
    (countTokens : TokenCounter) (seq : ℕ) (r : ℕ × ℕ) : Chunk α :=
  assembled seq (slice doc r.1 r.2) (blocksInRange spans r.1 r.2) strategy countTokens

theorem rangeChunk_isRangeChunk (seq : ℕ) {r : ℕ × ℕ} (hb : words space (slice doc r.1 r.2) ≠ []) :
    IsRangeChunk doc spans r (rangeChunk doc spans strategy countTokens seq r) :=
  ⟨rfl, rfl, rfl, rfl, hb⟩

/-- A range that is not blank becomes one chunk, a blank one is dropped. -/
theorem appendRange_eq (h : Flattened doc spans) (chunks : List (Chunk α)) (r : ℕ × ℕ) :
    appendRange doc spans strategy countTokens chunks r =
      if notBlank doc r then
        chunks ++ [rangeChunk doc spans strategy countTokens chunks.length r]
      else chunks := by
  by_cases hb : words space (slice doc r.1 r.2) = []
  · have hnone : assemble chunks.length (slice doc r.1 r.2) (blocksInRange spans r.1 r.2) strategy
        countTokens = none := assemble_eq_none.mpr (Or.inl hb)
    rw [if_neg (by simp [notBlank, hb])]
    simp only [appendRange, hnone]
  · rw [if_pos (notBlank_iff.mpr hb)]
    simp only [appendRange, rangeChunk,
      assemble_eq_assembled _ strategy countTokens hb (h.blocksInRange_ne_nil hb)]

theorem appendRanges_eq (h : Flattened doc spans) (chunks : List (Chunk α))
    (rs : List (ℕ × ℕ)) :
    appendRanges doc spans strategy countTokens chunks rs = chunks ++
      (rs.filter (notBlank doc)).mapIdx fun i =>
        rangeChunk doc spans strategy countTokens (chunks.length + i) := by
  induction rs generalizing chunks with
  | nil => simp [appendRanges]
  | cons r rs ih =>
    have hstep : appendRanges doc spans strategy countTokens chunks (r :: rs) =
        appendRanges doc spans strategy countTokens
          (appendRange doc spans strategy countTokens chunks r) rs := rfl
    rw [hstep, ih, appendRange_eq strategy countTokens h]
    cases hb : notBlank doc r with
    | false => simp [hb]
    | true => simp [hb, List.mapIdx_cons, Nat.add_assoc, Nat.add_comm 1]

theorem appendRanges_spec (h : Flattened doc spans) (chunks : List (Chunk α))
    (rs : List (ℕ × ℕ)) :
    ∃ new, appendRanges doc spans strategy countTokens chunks rs = chunks ++ new ∧
      List.Forall₂ (IsRangeChunk doc spans) (rs.filter (notBlank doc)) new := by
  refine ⟨_, appendRanges_eq strategy countTokens h chunks rs, ?_⟩
  rw [List.forall₂_iff_get]
  refine ⟨by simp, fun i hi _ => ?_⟩
  have hb := notBlank_iff.mp (List.mem_filter.mp (List.getElem_mem hi)).2
  simp only [List.get_eq_getElem, List.getElem_mapIdx]
  exact rangeChunk_isRangeChunk strategy countTokens _ hb

theorem appendRanges_concat (chunks : List (Chunk α)) (rs : List (ℕ × ℕ)) (r : ℕ × ℕ) :
    appendRanges doc spans strategy countTokens chunks (rs ++ [r]) =
      appendRange doc spans strategy countTokens
        (appendRanges doc spans strategy countTokens chunks rs) r := by
  simp [appendRanges]

theorem range_of_chunk (h : Flattened doc spans) {rs : List (ℕ × ℕ)} {c : Chunk α}
    (hc : c ∈ appendRanges doc spans strategy countTokens [] rs) :
    ∃ r ∈ rs, IsRangeChunk doc spans r c := by
  obtain ⟨new, hnew, hall⟩ := appendRanges_spec strategy countTokens h [] rs
  rw [hnew, List.nil_append] at hc
  obtain ⟨i, hi, rfl⟩ := List.mem_iff_getElem.mp hc
  have hlen := hall.length_eq
  have hr := hall.get (by omega) hi
  exact ⟨_, List.mem_of_mem_filter (List.getElem_mem (by omega)), hr⟩

theorem chunk_of_range (h : Flattened doc spans) {rs : List (ℕ × ℕ)} {r : ℕ × ℕ} (hr : r ∈ rs)
    (hb : words space (slice doc r.1 r.2) ≠ []) :
    ∃ c ∈ appendRanges doc spans strategy countTokens [] rs, IsRangeChunk doc spans r c := by
  obtain ⟨new, hnew, hall⟩ := appendRanges_spec strategy countTokens h [] rs
  rw [hnew, List.nil_append]
  obtain ⟨i, hi, heq⟩ := List.mem_iff_getElem.mp
    (List.mem_filter.mpr ⟨hr, notBlank_iff.mpr hb⟩)
  have hlen := hall.length_eq
  have hc := hall.get hi (by omega)
  simp only [List.get_eq_getElem, heq] at hc
  exact ⟨_, List.getElem_mem (by omega), hc⟩

theorem words_of_tiles (h : Flattened doc spans) {rs : List (ℕ × ℕ)} (ht : Tiles space doc 0 rs) :
    (appendRanges doc spans strategy countTokens [] rs).flatMap (fun c => words space c.text) =
      words space doc := by
  obtain ⟨new, hnew, hall⟩ := appendRanges_spec strategy countTokens h [] rs
  have hwords : ∀ (l : List (ℕ × ℕ)) (cs : List (Chunk α)),
      List.Forall₂ (IsRangeChunk doc spans) (l.filter (notBlank doc)) cs →
        cs.flatMap (fun c => words space c.text) =
          l.flatMap fun r => words space (slice doc r.1 r.2) := by
    intro l
    induction l with
    | nil => intro cs hcs; cases hcs; rfl
    | cons r l ih =>
      intro cs hcs
      by_cases hb : notBlank doc r = true
      · rw [List.filter_cons, if_pos hb] at hcs
        cases hcs with
        | cons hc hcs => rw [List.flatMap_cons, List.flatMap_cons, ih _ hcs, hc.text, words_strip]
      · rw [List.filter_cons, if_neg hb] at hcs
        have hnil : words space (slice doc r.1 r.2) = [] := by simpa [notBlank] using hb
        rw [List.flatMap_cons, hnil, ih _ hcs, List.nil_append]
  rw [hnew, List.nil_append, hwords rs new hall, ← ht.words, List.drop_zero]

/-- The ranges hold every character of the document that is no space and cut through no word. -/
structure CoveringCuts (doc : List α) (rs : List (ℕ × ℕ)) : Prop where
  covers : ∀ p a, doc[p]? = some a → space a = false → ∃ r ∈ rs, r.1 ≤ p ∧ p < r.2
  isCut : ∀ r ∈ rs, IsCut space doc r.1 ∧ IsCut space doc r.2

theorem coveringCuts_of_tiles {rs : List (ℕ × ℕ)} (h : Tiles space doc 0 rs) :
    CoveringCuts doc rs where
  covers _ _ hp ha := h.covers (Nat.zero_le _) hp ha
  isCut r hr := ⟨(h.isCut (isCut_zero doc) r hr).1, (h.isCut (isCut_zero doc) r hr).2.1⟩

theorem blockIds_of_coveringCuts (h : Flattened doc spans) {rs : List (ℕ × ℕ)}
    (hcov : CoveringCuts doc rs) (id : String) :
    (∃ c ∈ appendRanges doc spans strategy countTokens [] rs, id ∈ c.blockIds) ↔
      ∃ sp ∈ spans, sp.block.id = id := by
  constructor
  · rintro ⟨c, hc, hid⟩
    obtain ⟨r, -, hr⟩ := range_of_chunk strategy countTokens h hc
    rw [hr.blockIds, List.mem_map] at hid
    obtain ⟨b, hb, rfl⟩ := hid
    obtain ⟨sp, hsp, -, -, rfl⟩ := mem_blocksInRange.mp hb
    exact ⟨sp, hsp, rfl⟩
  · rintro ⟨sp, hsp, rfl⟩
    obtain ⟨a, ha, hns⟩ := h.span_head sp hsp
    obtain ⟨hstop, -, hne, -⟩ := h.span_text sp hsp
    have hpos := List.length_pos_iff.mpr hne
    obtain ⟨r, hr, hle, hlt⟩ := hcov.covers sp.start a ha hns
    have hb : words space (slice doc r.1 r.2) ≠ [] := by
      intro h0
      have := words_eq_nil_iff.mp h0 a (mem_slice.mpr ⟨sp.start, hle, hlt, ha⟩)
      simp [this] at hns
    obtain ⟨c, hc, hrc⟩ := chunk_of_range strategy countTokens h hr hb
    refine ⟨c, hc, ?_⟩
    rw [hrc.blockIds, List.mem_map]
    exact ⟨sp.block, mem_blocksInRange.mpr ⟨sp, hsp, hlt, by omega, rfl⟩, rfl⟩

theorem IsRangeChunk.words_text {r : ℕ × ℕ} {c : Chunk α} (h : IsRangeChunk doc spans r c) :
    words space c.text = words space (slice doc r.1 r.2) := by
  rw [h.text, words_strip]

theorem IsRangeChunk.blockIds_ne_nil {r : ℕ × ℕ} {c : Chunk α} (hf : Flattened doc spans)
    (h : IsRangeChunk doc spans r c) : c.blockIds ≠ [] := by
  rw [h.blockIds, Ne, List.map_eq_nil_iff]
  exact hf.blocksInRange_ne_nil h.notBlank

theorem IsRangeChunk.drawsOn {r : ℕ × ℕ} {c : Chunk α} (hf : Flattened doc spans)
    (h : IsRangeChunk doc spans r c) (hcut : IsCut space doc r.1 ∧ IsCut space doc r.2) :
    DrawsOn (blocksInRange spans r.1 r.2) c where
  nonempty := hf.blocksInRange_ne_nil h.notBlank
  blockIds := h.blockIds
  charStart := h.charStart
  charEnd := h.charEnd
  words _ hw := hf.word_of_block hcut.1 hcut.2 (h.words_text ▸ hw)

theorem drawsOn_of_coveringCuts (h : Flattened doc spans) {rs : List (ℕ × ℕ)}
    (hcov : CoveringCuts doc rs) {c : Chunk α}
    (hc : c ∈ appendRanges doc spans strategy countTokens [] rs) :
    ∃ bs ⊆ spans.map (·.block), DrawsOn bs c := by
  obtain ⟨r, hr, hrc⟩ := range_of_chunk strategy countTokens h hc
  refine ⟨_, fun b hb => ?_, hrc.drawsOn h (hcov.isCut r hr)⟩
  obtain ⟨sp, hsp, -, -, rfl⟩ := mem_blocksInRange.mp hb
  exact List.mem_map_of_mem hsp

omit [Glyph α] in
theorem successive_forall₂ {β : Type} {r : β → Chunk α → Prop} {l : List β}
    {chunks : List (Chunk α)} (h : List.Forall₂ r l chunks) {prev cur : Chunk α}
    (hsucc : [prev, cur] <:+: chunks) : ∃ x y, [x, y] <:+: l ∧ r x prev ∧ r y cur := by
  induction h with
  | nil => simp at hsucc
  | @cons x c l chunks hx hall ih =>
    rcases List.infix_cons_iff.mp hsucc with hpre | hsucc
    · obtain ⟨rfl, htail⟩ := List.cons_prefix_cons.mp hpre
      cases hall with
      | nil => simp at htail
      | @cons y d l chunks hy _ =>
        have hd : cur = d := (List.cons_prefix_cons.mp htail).1
        exact ⟨x, y, (List.prefix_append [x, y] l).isInfix, hx, hd ▸ hy⟩
    · obtain ⟨y, z, hyz, hr⟩ := ih hsucc
      exact ⟨y, z, hyz.trans (List.suffix_cons x l).isInfix, hr⟩

theorem successive_ranges (h : Flattened doc spans) {rs : List (ℕ × ℕ)} (ht : Tiles space doc 0 rs)
    {prev cur : Chunk α}
    (hsucc : [prev, cur] <:+: appendRanges doc spans strategy countTokens [] rs) :
    ∃ r t, IsRangeChunk doc spans r prev ∧ IsRangeChunk doc spans t cur ∧ r.2 ≤ t.1 ∧ r ∈ rs ∧
      t ∈ rs ∧ ∀ a ∈ slice doc r.2 t.1, space a = true := by
  obtain ⟨new, hnew, hall⟩ := appendRanges_spec strategy countTokens h [] rs
  rw [hnew, List.nil_append] at hsucc
  obtain ⟨r, t, hrt, hr, ht'⟩ := successive_forall₂ hall hsucc
  have hsub : [r, t].Sublist rs := hrt.sublist.trans List.filter_sublist
  have hord := List.pairwise_pair.mp (ht.ordered.sublist hsub)
  refine ⟨r, t, hr, ht', hord, hsub.subset (by simp), hsub.subset (by simp), ?_⟩
  intro a ha
  by_contra hspace
  have hsolid : space a = false := by simpa using hspace
  obtain ⟨u, hu, hu', hget⟩ := mem_slice.mp ha
  obtain ⟨x, hx, hx1, hx2⟩ := ht.covers (Nat.zero_le u) hget hsolid
  have hkept : x ∈ rs.filter (notBlank doc) := by
    rw [List.mem_filter, notBlank_iff]
    refine ⟨hx, fun hblank => hspace ?_⟩
    exact words_eq_nil_iff.mp hblank a (mem_slice.mpr ⟨u, hx1, hx2, hget⟩)
  -- the range around the character would stand between the two
  obtain ⟨front, back, heq⟩ := hrt
  have hpair : (front ++ [r, t] ++ back).Pairwise fun x y => x.2 ≤ y.1 :=
    heq ▸ ht.ordered.sublist List.filter_sublist
  have hle := (ht.isCut (isCut_zero doc) t (hsub.subset (by simp))).2.2
  have hle' := (ht.isCut (isCut_zero doc) r (hsub.subset (by simp))).2.2
  rw [← heq] at hkept
  simp only [List.pairwise_append, List.mem_append, List.mem_cons, List.not_mem_nil, or_false]
    at hpair hkept
  obtain ⟨⟨-, -, hfront⟩, -, hback⟩ := hpair
  rcases hkept with (hin | rfl | rfl) | hin
  · have := hfront x hin r (Or.inl rfl)
    omega
  · omega
  · omega
  · have := hback t (Or.inr (Or.inr rfl)) x hin
    omega

end Ragent.RangeChunks
