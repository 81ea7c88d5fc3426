import Ragent.ChunkProvenance
import Ragent.FixedWindows

set_option autoImplicit false

/-!
# Chunks in document order

The numbers, the blocks and the pages of the chunks, for every strategy and every order the blocks
come in.
-/
namespace Ragent.ChunkOrder
open SpacedWords PyText PyNumbers SourceTypes FlattenedDocument RangeChunks FixedChunks
  FixedWindows RecursiveChunks LayoutChunks SemanticChunks ChunkDocument ChunkProvenance

section
variable {α : Type}

def before (a b : SourceBlock α) : Prop :=
  a.pageNo < b.pageNo ∨ (a.pageNo = b.pageNo ∧ a.readingOrder < b.readingOrder)

instance (a b : SourceBlock α) : Decidable (before a b) :=
  inferInstanceAs (Decidable (_ ∨ _))

theorem before_asymm {a b : SourceBlock α} (h : before a b) : ¬ before b a := by
  unfold before at h ⊢
  omega

theorem before_irrefl (a : SourceBlock α) : ¬ before a a := fun h => before_asymm h h

theorem inOrder_of_before {a b : SourceBlock α} (h : before a b) : inOrder a b := by
  unfold before at h
  unfold inOrder
  omega

theorem inOrder_refl (a : SourceBlock α) : inOrder a a := Or.inr ⟨rfl, Int.le_refl _⟩

def DistinctKeys (blocks : List (SourceBlock α)) : Prop :=
  (blocks.map fun b => (b.pageNo, b.readingOrder)).Nodup

instance (blocks : List (SourceBlock α)) : Decidable (DistinctKeys blocks) :=
  inferInstanceAs (Decidable (List.Nodup _))

theorem DistinctKeys.eq_of_inOrder {blocks : List (SourceBlock α)} (h : DistinctKeys blocks)
    {a b : SourceBlock α} (ha : a ∈ blocks) (hb : b ∈ blocks) (hab : inOrder a b)
    (hba : inOrder b a) : a = b := by
  apply List.inj_on_of_nodup_map h ha hb
  unfold inOrder at hab hba
  have hpage : a.pageNo = b.pageNo := by omega
  have horder : a.readingOrder = b.readingOrder := by omega
  rw [hpage, horder]

variable [Glyph α]

theorem prepare_before {blocks : List (SourceBlock α)} (hkeys : DistinctKeys blocks) :
    (prepare blocks).Pairwise before := by
  have hdistinct : DistinctKeys (prepare blocks) := by
    have hperm := (prepare_perm blocks).map fun b => (b.pageNo, b.readingOrder)
    rw [DistinctKeys, hperm.nodup_iff]
    exact hkeys.sublist (List.filter_sublist.map _)
  rw [DistinctKeys, List.Nodup, List.pairwise_map] at hdistinct
  apply ((prepare_sorted blocks).and hdistinct).imp
  intro a b h
  obtain ⟨hle, hne⟩ := h
  rw [Ne, Prod.mk.injEq] at hne
  unfold inOrder at hle
  unfold before
  omega

theorem prepare_of_perm {blocks blocks' : List (SourceBlock α)} (hperm : blocks'.Perm blocks)
    (hkeys : DistinctKeys blocks) : prepare blocks' = prepare blocks := by
  apply List.Perm.eq_of_pairwise _ (prepare_sorted blocks') (prepare_sorted blocks)
  · have hfilter := hperm.filter isContent
    exact (prepare_perm blocks').trans (hfilter.trans (prepare_perm blocks).symm)
  · intro a b ha hb hab hba
    have hmem := (mem_prepare.mp ha).1
    rw [hperm.mem_iff] at hmem
    exact hkeys.eq_of_inOrder hmem (mem_prepare.mp hb).1 hab hba

theorem chunkWith_of_perm {F : Type} [PyFloat F] (strategy : Strategy)
    {blocks blocks' : List (SourceBlock α)} (hperm : blocks'.Perm blocks)
    (hkeys : DistinctKeys blocks) (o : ChunkOptions F) :
    chunkWith strategy blocks' o = chunkWith strategy blocks o := by
  have hprepare := prepare_of_perm hperm hkeys
  cases strategy with
  | fixed => rw [chunkWith, chunkWith, chunkFixed, chunkFixed, hprepare]
  | recursive =>
    rw [chunkWith, chunkWith, chunkRecursive, chunkRecursive, packedChunks, packedChunks, hprepare]
  | layout =>
    rw [chunkWith, chunkWith, chunkLayout, chunkLayout, packedBlocks, packedBlocks, hprepare]
  | semantic => rw [chunkWith, chunkWith, chunkSemantic, chunkSemantic, hprepare]

end

section
variable {α : Type}

structure Files (prepared bs : List (SourceBlock α)) (c : Chunk α) : Prop where
  nonempty : bs ≠ []
  subset : bs ⊆ prepared
  sorted : bs.Pairwise before
  blockIds : c.blockIds = bs.map (·.id)
  pages : ∀ first ∈ c.pageFrom, ∀ last ∈ c.pageTo, first ≤ last

theorem Files.unique {prepared bs bs' : List (SourceBlock α)} {c : Chunk α}
    (hids : (prepared.map (·.id)).Nodup) (h : Files prepared bs c) (h' : Files prepared bs' c) :
    bs = bs' := by
  have hmaps : bs.map (·.id) = bs'.map (·.id) := by rw [← h.blockIds, h'.blockIds]
  rw [← filterMap_byId hids h.subset, ← filterMap_byId hids h'.subset, hmaps]

theorem ids_nodup_of_sorted {prepared bs : List (SourceBlock α)}
    (hids : (prepared.map (·.id)).Nodup) (hsub : bs ⊆ prepared) (hsorted : bs.Pairwise before) :
    (bs.map (·.id)).Nodup := by
  have hbs : bs.Nodup := by
    apply hsorted.imp
    rintro a b hab rfl
    exact before_irrefl a hab
  apply hbs.map_on
  intro b hb b' hb' hid
  exact List.inj_on_of_nodup_map hids (hsub hb) (hsub hb') hid

def StartsBehind (blocks : List (SourceBlock α)) (c c' : Chunk α) : Prop :=
  ∀ b ∈ blocks, ∀ b' ∈ blocks, c.blockIds.head? = some b.id → c'.blockIds.head? = some b'.id →
    inOrder b b'

/-- The chunks are numbered from 0, name their blocks in strict order, and none starts in front of
    the one before it. -/
structure FollowsDocument (blocks : List (SourceBlock α)) (chunks : List (Chunk α)) : Prop where
  seq : chunks.map (·.seq) = List.range chunks.length
  blockIds : ∀ c ∈ chunks, ∃ bs ⊆ blocks, bs ≠ [] ∧ c.blockIds = bs.map (·.id) ∧
    bs.Pairwise before
  nodup : ∀ c ∈ chunks, c.blockIds.Nodup
  starts : chunks.IsChain (StartsBehind blocks)
  pages : ∀ c ∈ chunks, ∀ first ∈ c.pageFrom, ∀ last ∈ c.pageTo, first ≤ last

variable [Glyph α]

theorem followsDocument {blocks : List (SourceBlock α)} {chunks : List (Chunk α)}
    (hids : (blocks.map (·.id)).Nodup) (hseq : chunks.map (·.seq) = List.range chunks.length)
    (hfiles : ∀ c ∈ chunks, ∃ bs, Files (prepare blocks) bs c)
    (hstarts : chunks.IsChain (StartsBehind blocks)) : FollowsDocument blocks chunks where
  seq := hseq
  blockIds := by
    intro c hc
    obtain ⟨bs, h⟩ := hfiles c hc
    exact ⟨bs, fun b hb => (mem_prepare.mp (h.subset hb)).1, h.nonempty, h.blockIds, h.sorted⟩
  nodup := by
    intro c hc
    obtain ⟨bs, h⟩ := hfiles c hc
    rw [h.blockIds]
    exact ids_nodup_of_sorted (prepare_ids_nodup hids) h.subset h.sorted
  starts := hstarts
  pages := by
    intro c hc
    obtain ⟨bs, h⟩ := hfiles c hc
    exact h.pages

theorem Files.head_eq {blocks bs : List (SourceBlock α)} {c : Chunk α} {b : SourceBlock α}
    (hids : (blocks.map (·.id)).Nodup) (h : Files (prepare blocks) bs c) (hb : b ∈ blocks)
    (hhead : c.blockIds.head? = some b.id) : bs.head? = some b := by
  rw [h.blockIds, List.head?_map, Option.map_eq_some_iff] at hhead
  obtain ⟨b', hb', hid⟩ := hhead
  have hmem := (mem_prepare.mp (h.subset (List.mem_of_mem_head? hb'))).1
  rw [hb', List.inj_on_of_nodup_map hids hmem hb hid]

theorem startsBehind_of_heads {blocks bs bs' : List (SourceBlock α)} {c c' : Chunk α}
    (hids : (blocks.map (·.id)).Nodup) (h : Files (prepare blocks) bs c)
    (h' : Files (prepare blocks) bs' c')
    (hheads : ∀ b ∈ bs.head?, ∀ b' ∈ bs'.head?, inOrder b b') : StartsBehind blocks c c' := by
  intro b hb b' hb' hhead hhead'
  exact hheads b (h.head_eq hids hb hhead) b' (h'.head_eq hids hb' hhead')

theorem assembled_pages (seq : ℕ) (text : List α) (bs : List (SourceBlock α)) (strategy : String)
    (countTokens : TokenCounter) :
    ∀ first ∈ (assembled seq text bs strategy countTokens).pageFrom,
      ∀ last ∈ (assembled seq text bs strategy countTokens).pageTo, first ≤ last := by
  intro first hfirst last hlast
  have hmin := List.min?_eq_some_iff.mp hfirst
  have hmax := List.max?_eq_some_iff.mp hlast
  exact hmin.2 last hmax.1

omit [Glyph α] in
theorem seq_mapIdx {β : Type} {f : ℕ → β → Chunk α} (hf : ∀ i x, (f i x).seq = i) (l : List β) :
    (l.mapIdx f).map (·.seq) = List.range (l.mapIdx f).length := by
  apply List.ext_getElem
  · simp
  · intro i h h'
    simp [hf]

section
variable {blocks : List (SourceBlock α)} (strategy : String) (countTokens : TokenCounter)

theorem blocksInRange_sublist (blocks : List (SourceBlock α)) (s e : ℕ) :
    (blocksInRange (flatten (prepare blocks)).2 s e).Sublist (prepare blocks) := by
  have hsub := (List.filter_sublist (p := fun sp : Span α => sp.start < e ∧ s < sp.stop)
    (l := (flatten (prepare blocks)).2)).map (·.block)
  rwa [flatten_prepare_blocks] at hsub

theorem rangeChunk_files (hkeys : DistinctKeys blocks) (seq : ℕ) {r : ℕ × ℕ}
    (hb : notBlank (flatten (prepare blocks)).1 r = true) :
    Files (prepare blocks) (blocksInRange (flatten (prepare blocks)).2 r.1 r.2)
      (rangeChunk (flatten (prepare blocks)).1 (flatten (prepare blocks)).2 strategy countTokens
        seq r) where
  nonempty := (flatten_flattened (prepare blocks)).blocksInRange_ne_nil (notBlank_iff.mp hb)
  subset := (blocksInRange_sublist blocks r.1 r.2).subset
  sorted := (prepare_before hkeys).sublist (blocksInRange_sublist blocks r.1 r.2)
  blockIds := rfl
  pages := assembled_pages seq _ _ strategy countTokens

theorem range_heads {r t : ℕ × ℕ} (hrt : r.1 ≤ t.1) :
    ∀ b ∈ (blocksInRange (flatten (prepare blocks)).2 r.1 r.2).head?,
      ∀ b' ∈ (blocksInRange (flatten (prepare blocks)).2 t.1 t.2).head?, inOrder b b' := by
  intro b hb b' hb'
  obtain ⟨sp, hsp, hs, he, rfl⟩ := mem_blocksInRange.mp (List.mem_of_mem_head? hb)
  obtain ⟨sp', hsp', hs', he', rfl⟩ := mem_blocksInRange.mp (List.mem_of_mem_head? hb')
  rcases spans_trichotomy (prepare_sorted blocks) hsp hsp' with ⟨h, -⟩ | rfl | ⟨-, hstop⟩
  · exact h
  · exact inOrder_refl _
  · -- the second block would lie in the first range too
    obtain ⟨hlength, -, hne, -⟩ := (flatten_flattened (prepare blocks)).span_text sp' hsp'
    have hpos := List.length_pos_iff.mpr hne
    have hin : sp'.block ∈ blocksInRange (flatten (prepare blocks)).2 r.1 r.2 :=
      mem_blocksInRange.mpr ⟨sp', hsp', by omega, by omega, rfl⟩
    have hsorted := (prepare_sorted blocks).sublist (blocksInRange_sublist blocks r.1 r.2)
    obtain ⟨rest, hrest⟩ := List.head?_eq_some_iff.mp hb
    rw [hrest] at hin hsorted
    rcases List.mem_cons.mp hin with heq | hin
    · rw [heq]
      exact inOrder_refl _
    · exact (List.pairwise_cons.mp hsorted).1 _ hin

/-- What holds between the chunks of any two ranges in this order holds along the chunks. -/
theorem ranges_chain {rel : Chunk α → Chunk α → Prop} {order : ℕ × ℕ → ℕ × ℕ → Prop}
    (hrel : ∀ i j r t, notBlank (flatten (prepare blocks)).1 r = true →
      notBlank (flatten (prepare blocks)).1 t = true → order r t →
      rel (rangeChunk (flatten (prepare blocks)).1 (flatten (prepare blocks)).2 strategy countTokens
          i r)
        (rangeChunk (flatten (prepare blocks)).1 (flatten (prepare blocks)).2 strategy countTokens
          j t))
    {rs : List (ℕ × ℕ)} (horder : rs.Pairwise order) :
    (appendRanges (flatten (prepare blocks)).1 (flatten (prepare blocks)).2 strategy countTokens []
      rs).IsChain rel := by
  rw [appendRanges_eq strategy countTokens (flatten_flattened (prepare blocks)), List.nil_append,
    List.isChain_iff_getElem]
  intro i hi
  rw [List.length_mapIdx] at hi
  rw [List.getElem_mapIdx, List.getElem_mapIdx]
  have hkept := horder.sublist (List.filter_sublist (p := notBlank (flatten (prepare blocks)).1))
  apply hrel
  · exact (List.mem_filter.mp (List.getElem_mem _)).2
  · exact (List.mem_filter.mp (List.getElem_mem hi)).2
  · exact List.pairwise_iff_getElem.mp hkept i (i + 1) _ hi (Nat.lt_succ_self i)

theorem ranges_files (hkeys : DistinctKeys blocks) (rs : List (ℕ × ℕ)) :
    ∀ c ∈ appendRanges (flatten (prepare blocks)).1 (flatten (prepare blocks)).2 strategy
      countTokens [] rs, ∃ bs, Files (prepare blocks) bs c := by
  intro c hc
  rw [appendRanges_eq strategy countTokens (flatten_flattened (prepare blocks)), List.nil_append]
    at hc
  obtain ⟨i, hi, rfl⟩ := List.mem_mapIdx.mp hc
  exact ⟨_, rangeChunk_files strategy countTokens hkeys _
    (List.mem_filter.mp (List.getElem_mem hi)).2⟩

theorem ranges_seq (rs : List (ℕ × ℕ)) :
    (appendRanges (flatten (prepare blocks)).1 (flatten (prepare blocks)).2 strategy countTokens []
        rs).map (·.seq) =
      List.range (appendRanges (flatten (prepare blocks)).1 (flatten (prepare blocks)).2 strategy
        countTokens [] rs).length := by
  rw [appendRanges_eq strategy countTokens (flatten_flattened (prepare blocks)), List.nil_append]
  apply seq_mapIdx
  intro i r
  exact Nat.zero_add i

theorem followsDocument_of_ranges (hids : (blocks.map (·.id)).Nodup) (hkeys : DistinctKeys blocks)
    {rs : List (ℕ × ℕ)} (hstarts : rs.Pairwise fun r t => r.1 ≤ t.1) :
    FollowsDocument blocks (appendRanges (flatten (prepare blocks)).1 (flatten (prepare blocks)).2
      strategy countTokens [] rs) := by
  apply followsDocument hids (ranges_seq strategy countTokens rs)
    (ranges_files strategy countTokens hkeys rs)
  apply ranges_chain strategy countTokens _ hstarts
  intro i j r t hr ht hrt
  exact startsBehind_of_heads hids (rangeChunk_files strategy countTokens hkeys i hr)
    (rangeChunk_files strategy countTokens hkeys j ht) (range_heads hrt)

theorem ranges_apart (hkeys : DistinctKeys blocks) {r t : ℕ × ℕ} (hrt : r.2 ≤ t.1) :
    ∀ b ∈ blocksInRange (flatten (prepare blocks)).2 r.1 r.2,
      ∀ b' ∈ blocksInRange (flatten (prepare blocks)).2 t.1 t.2, b = b' ∨ before b b' := by
  intro b hb b' hb'
  obtain ⟨sp, hsp, hs, he, rfl⟩ := mem_blocksInRange.mp hb
  obtain ⟨sp', hsp', hs', he', rfl⟩ := mem_blocksInRange.mp hb'
  rcases spans_trichotomy (prepare_before hkeys) hsp hsp' with ⟨h, -⟩ | rfl | ⟨-, hstop⟩
  · exact Or.inr h
  · exact Or.inl rfl
  · omega

theorem starts_of_tiles {doc : List α} {rs : List (ℕ × ℕ)} (h : Tiles space doc 0 rs) :
    rs.Pairwise fun r t => r.1 ≤ t.1 := by
  apply h.ordered.imp_of_mem
  intro r t hr _ hrt
  exact (h.le_starts r hr).2.trans hrt

end

/-- `f` puts some blocks of `prev` in front of those of `cur`, which come behind them. -/
def Overlaps (prepared : List (SourceBlock α)) (f : Chunk α → Chunk α → Chunk α)
    (prev cur : Chunk α) : Prop :=
  ∃ bs bs' front, Files prepared bs prev ∧ Files prepared bs' cur ∧
    (∀ b ∈ bs, ∀ b' ∈ bs', b = b' ∨ before b b') ∧ front ⊆ bs ∧
    Files prepared (front ++ bs') (f prev cur)

omit [Glyph α] in
theorem Files.head_inOrder {prepared bs : List (SourceBlock α)} {c : Chunk α}
    (h : Files prepared bs c) {b b' : SourceBlock α} (hb : b ∈ bs.head?) (hb' : b' ∈ bs) :
    inOrder b b' := by
  obtain ⟨rest, rfl⟩ := List.head?_eq_some_iff.mp hb
  rcases List.mem_cons.mp hb' with rfl | hb'
  · exact inOrder_refl _
  · exact inOrder_of_before ((List.pairwise_cons.mp h.sorted).1 _ hb')

omit [Glyph α] in
theorem inOrder_of_eq_or_before {b b' : SourceBlock α} (h : b = b' ∨ before b b') :
    inOrder b b' := by
  rcases h with rfl | h
  · exact inOrder_refl _
  · exact inOrder_of_before h

/-- Along the overlapped chunks the first block moves forward: it is never behind the first block
    the chunk had without the overlap, which is never behind the next chunk's. -/
theorem overlap_starts {blocks : List (SourceBlock α)} (hids : (blocks.map (·.id)).Nodup)
    {f : Chunk α → Chunk α → Chunk α} {first first' : Chunk α} {rest : List (Chunk α)}
    (hchain : (first :: rest).IsChain (Overlaps (prepare blocks) f))
    {bs front : List (SourceBlock α)} (hfirst : Files (prepare blocks) bs first)
    (hfirst' : Files (prepare blocks) (front ++ bs) first')
    (hfront : ∀ b ∈ front, ∀ b' ∈ bs, b = b' ∨ before b b') :
    (first' :: List.zipWith f (first :: rest) rest).IsChain (StartsBehind blocks) := by
  induction rest generalizing first first' bs front with
  | nil => simp
  | cons second rest ih =>
    obtain ⟨⟨bs₀, bs', front', h₀, h, hle, hsub, h'⟩, hchain⟩ := List.isChain_cons_cons.mp hchain
    have heq := h₀.unique (prepare_ids_nodup hids) hfirst
    subst heq
    rw [List.zipWith_cons_cons, List.isChain_cons_cons]
    refine ⟨startsBehind_of_heads hids hfirst' h' ?_,
      ih hchain h h' fun b hb b' hb' => hle b (hsub hb) b' hb'⟩
    intro b hb b' hb'
    obtain ⟨pivot, bs₁, rfl⟩ := List.exists_cons_of_ne_nil h₀.nonempty
    have hbefore : inOrder b pivot := by
      cases front with
      | nil => exact hfirst'.head_inOrder hb List.mem_cons_self
      | cons b₁ front =>
        rw [List.cons_append, List.head?_cons, Option.mem_some] at hb
        subst hb
        exact inOrder_of_eq_or_before (hfront _ List.mem_cons_self _ List.mem_cons_self)
    have hbehind : inOrder pivot b' := by
      cases front' with
      | nil =>
        have hmem : b' ∈ bs' := List.mem_of_mem_head? hb'
        exact inOrder_of_eq_or_before (hle pivot List.mem_cons_self b' hmem)
      | cons b₁ front' =>
        rw [List.cons_append, List.head?_cons, Option.mem_some] at hb'
        subst hb'
        exact h₀.head_inOrder rfl (hsub List.mem_cons_self)
    exact Trans.trans hbefore hbehind

theorem followsDocument_of_overlap {blocks : List (SourceBlock α)}
    (hids : (blocks.map (·.id)).Nodup) {f : Chunk α → Chunk α → Chunk α} {chunks : List (Chunk α)}
    (hseq : chunks.map (·.seq) = List.range chunks.length)
    (hfiles : ∀ c ∈ chunks, ∃ bs, Files (prepare blocks) bs c)
    (hf : ∀ prev cur, (f prev cur).seq = cur.seq)
    (hchain : chunks.IsChain (Overlaps (prepare blocks) f)) :
    FollowsDocument blocks (withPrevious f chunks) := by
  have hkept : (withPrevious f chunks).map (·.seq) = chunks.map (·.seq) := by
    cases chunks with
    | nil => rfl
    | cons first rest =>
      rw [withPrevious, List.map_cons, List.map_cons, List.cons_inj_right]
      apply List.ext_getElem
      · simp
      · intro i h h'
        simp [hf]
  have hlen := congrArg List.length hkept
  rw [List.length_map, List.length_map] at hlen
  apply followsDocument hids
  · rw [hkept, hlen, hseq]
  · intro c hc
    rcases mem_withPrevious.mp hc with hhead | ⟨prev, cur, hsucc, rfl⟩
    · exact hfiles c (List.mem_of_mem_head? hhead)
    · obtain ⟨_, bs', front, -, -, -, -, h⟩ := isChain_iff_successive.mp hchain prev cur hsucc
      exact ⟨_, h⟩
  · cases chunks with
    | nil => exact List.isChain_nil
    | cons first rest =>
      obtain ⟨bs, h⟩ := hfiles first List.mem_cons_self
      have hfirst : Files (prepare blocks) ([] ++ bs) first := h
      exact overlap_starts hids hchain h hfirst (by simp)

theorem eraseDups_of_nodup {ids : List String} (h : ids.Nodup) : ids.eraseDups = ids := by
  induction ids with
  | nil => rfl
  | cons id ids ih =>
    obtain ⟨hnot, htail⟩ := List.nodup_cons.mp h
    have hkeep : ids.filter (fun x => !x == id) = ids := by
      rw [List.filter_eq_self]
      intro x hx
      have hne : x ≠ id := fun heq => hnot (heq ▸ hx)
      simpa using hne
    rw [List.eraseDups_cons, hkeep, ih htail]

section
variable {blocks : List (SourceBlock α)} (countTokens : TokenCounter) (target overlap : ℤ)

theorem overlapChunk_pages {prev cur : Chunk α}
    (h : ∀ first ∈ cur.pageFrom, ∀ last ∈ cur.pageTo, first ≤ last) :
    ∀ first ∈ (overlapChunk countTokens overlap prev cur).pageFrom,
      ∀ last ∈ (overlapChunk countTokens overlap prev cur).pageTo, first ≤ last := by
  unfold overlapChunk
  simp only
  split_ifs with htail
  · exact h
  · intro first hfirst last hlast
    cases hprev : prev.pageTo with
    | none =>
      rw [hprev] at hfirst
      exact h first hfirst last hlast
    | some p =>
      cases hcur : cur.pageFrom with
      | none => simp [hprev, hcur] at hfirst
      | some q =>
        have hle := h q hcur last hlast
        have hmin : min p q = first := by simpa [hprev, hcur] using hfirst
        omega

/-- The words of the overlap add the last block of the previous chunk, unless it is the first of
    the chunk already. -/
theorem overlapChunk_files (hids : (blocks.map (·.id)).Nodup) {prev cur : Chunk α}
    {bs bs' : List (SourceBlock α)} (h : Files (prepare blocks) bs prev)
    (h' : Files (prepare blocks) bs' cur) (hle : ∀ b ∈ bs, ∀ b' ∈ bs', b = b' ∨ before b b') :
    ∃ front ⊆ bs, Files (prepare blocks) (front ++ bs')
      (overlapChunk countTokens overlap prev cur) := by
  have hpages := @overlapChunk_pages _ _ countTokens overlap prev cur h'.pages
  by_cases htail : carriedWords countTokens overlap prev = []
  · have hsame : overlapChunk countTokens overlap prev cur = cur := by simp [overlapChunk, htail]
    rw [hsame]
    exact ⟨[], List.nil_subset bs, h'⟩
  · obtain ⟨init, last, rfl⟩ := (List.eq_nil_or_concat' bs).resolve_left h.nonempty
    obtain ⟨first, rest, rfl⟩ := List.exists_cons_of_ne_nil h'.nonempty
    have hlast : last ∈ init ++ [last] := by simp
    have hblocks : (overlapChunk countTokens overlap prev cur).blockIds =
        (last.id :: (first :: rest).map (·.id)).eraseDups := by
      unfold overlapChunk
      simp [htail, h.blockIds, h'.blockIds]
    by_cases hshared : last = first
    · refine ⟨[], List.nil_subset _, h'.nonempty, h'.subset, h'.sorted, ?_, hpages⟩
      rw [hblocks, hshared, List.map_cons, List.eraseDups_cons, List.filter_cons_of_neg (by simp),
        ← List.eraseDups_cons, ← List.map_cons, eraseDups_of_nodup
          (ids_nodup_of_sorted (prepare_ids_nodup hids) h'.subset h'.sorted)]
      rfl
    · have hahead : ∀ b ∈ first :: rest, before last b := by
        intro b hb
        rcases hle last hlast b hb with rfl | hbefore
        · -- then the first block would come both before and behind it
          rcases List.mem_cons.mp hb with heq | hin
          · exact absurd heq hshared
          · have hafter := (List.pairwise_cons.mp h'.sorted).1 last hin
            rcases hle last hlast first List.mem_cons_self with heq | hbefore
            · exact absurd heq hshared
            · exact absurd hbefore (before_asymm hafter)
        · exact hbefore
      have hsub : last :: first :: rest ⊆ prepare blocks :=
        List.cons_subset.mpr ⟨h.subset hlast, h'.subset⟩
      have hsorted : (last :: first :: rest).Pairwise before :=
        List.pairwise_cons.mpr ⟨hahead, h'.sorted⟩
      refine ⟨[last], by simp, List.cons_ne_nil _ _, hsub, hsorted, ?_, hpages⟩
      rw [hblocks, ← List.map_cons,
        eraseDups_of_nodup (ids_nodup_of_sorted (prepare_ids_nodup hids) hsub hsorted)]
      rfl

theorem overlapChunk_seq (prev cur : Chunk α) :
    (overlapChunk countTokens overlap prev cur).seq = cur.seq := by
  unfold overlapChunk
  simp only
  split_ifs
  · rfl
  · rfl

theorem chunkRecursive_follows (hids : (blocks.map (·.id)).Nodup) (hkeys : DistinctKeys blocks) :
    FollowsDocument blocks (chunkRecursive countTokens target overlap blocks) := by
  obtain ⟨rs, hrs, heq⟩ := packedChunks_tiles countTokens target blocks
  unfold chunkRecursive
  simp only
  rw [heq]
  split_ifs
  · apply followsDocument_of_overlap hids (ranges_seq "recursive" countTokens rs)
      (ranges_files "recursive" countTokens hkeys rs) (overlapChunk_seq countTokens overlap)
    apply ranges_chain "recursive" countTokens _ hrs.ordered
    intro i j r t hr ht hrt
    have h := rangeChunk_files "recursive" countTokens hkeys i hr
    have h' := rangeChunk_files "recursive" countTokens hkeys j ht
    have hle := ranges_apart hkeys hrt
    obtain ⟨front, hsub, hfiles⟩ := overlapChunk_files countTokens overlap hids h h' hle
    exact ⟨_, _, front, h, h', hle, hsub, hfiles⟩
  · exact followsDocument_of_ranges "recursive" countTokens hids hkeys (starts_of_tiles hrs)

theorem groupChunk_files (hkeys : DistinctKeys blocks) (seq : ℕ) {bs : List (SourceBlock α)}
    (hne : bs ≠ []) (hsub : bs.Sublist (prepare blocks)) :
    Files (prepare blocks) bs (groupChunk countTokens seq bs) where
  nonempty := hne
  subset := hsub.subset
  sorted := (prepare_before hkeys).sublist hsub
  blockIds := rfl
  pages := assembled_pages seq (joinBlocks bs) bs "layout" countTokens

theorem carried_sublist (prev cur : List (SourceBlock α)) :
    (carried countTokens overlap prev cur).Sublist prev := by
  unfold carried
  split_ifs
  · exact List.nil_sublist prev
  · apply List.filter_sublist.trans
    cases prev using List.reverseRecOn with
    | nil => simp
    | append_singleton init last => simp

theorem overlapBlocks_seq (prepared : List (SourceBlock α)) (prev cur : Chunk α) :
    (overlapBlocks countTokens overlap prepared prev cur).seq = cur.seq := by
  unfold overlapBlocks
  simp only
  split_ifs
  · rfl
  · rfl
  · generalize hmerged : carriedBlocks countTokens overlap prepared prev ++
      cur.blockIds.filterMap (byId prepared) = merged
    cases h : assemble cur.seq (joinBlocks merged) merged "layout" countTokens with
    | none => rfl
    | some c => exact (assemble_eq_some h).2.2.1

theorem pair_sublist {β : Type} {ls : List (List β)} {i : ℕ} (hi : i + 1 < ls.length) :
    (ls[i] ++ ls[i + 1]).Sublist ls.flatten := by
  have hsplit := congrArg List.flatten (List.take_append_drop i ls)
  rw [List.drop_eq_getElem_cons (by omega), List.drop_eq_getElem_cons hi, List.flatten_append,
    List.flatten_cons, List.flatten_cons, ← List.append_assoc ls[i]] at hsplit
  rw [← hsplit]
  exact (List.sublist_append_left _ _).trans (List.sublist_append_right _ _)

theorem before_of_pair (hkeys : DistinctKeys blocks) {prev cur : List (SourceBlock α)}
    (hpair : (prev ++ cur).Sublist (prepare blocks)) : ∀ b ∈ prev, ∀ b' ∈ cur, before b b' :=
  (List.pairwise_append.mp ((prepare_before hkeys).sublist hpair)).2.2

theorem overlaps_of_pair (hids : (blocks.map (·.id)).Nodup) (hkeys : DistinctKeys blocks)
    {prev cur : List (SourceBlock α)} (hpair : (prev ++ cur).Sublist (prepare blocks))
    (hprev : prev ≠ []) (hcur : cur ≠ []) (i j : ℕ) :
    Overlaps (prepare blocks) (overlapBlocks countTokens overlap (prepare blocks))
      (groupChunk countTokens i prev) (groupChunk countTokens j cur) := by
  have hsub : prev.Sublist (prepare blocks) := (List.sublist_append_left prev cur).trans hpair
  have hsub' : cur.Sublist (prepare blocks) := (List.sublist_append_right prev cur).trans hpair
  have hcarried := carried_sublist countTokens overlap prev cur
  refine ⟨prev, cur, carried countTokens overlap prev cur,
    groupChunk_files countTokens hkeys i hprev hsub, groupChunk_files countTokens hkeys j hcur hsub',
    fun b hb b' hb' => Or.inr (before_of_pair hkeys hpair b hb b' hb'), hcarried.subset, ?_⟩
  rw [overlapBlocks_groupChunk countTokens overlap i j (prepare_ids_nodup hids)
    (fun b hb => (mem_prepare.mp hb).2.1) hsub.subset hsub'.subset hcur]
  apply groupChunk_files countTokens hkeys
  · exact List.append_ne_nil_of_right_ne_nil _ hcur
  · exact (hcarried.append (List.Sublist.refl _)).trans hpair

theorem chunkLayout_follows (hids : (blocks.map (·.id)).Nodup) (hkeys : DistinctKeys blocks) :
    FollowsDocument blocks (chunkLayout countTokens target overlap blocks) := by
  obtain ⟨groups, hpacked, hflat, hgroups⟩ := packedBlocks_groups countTokens target blocks
  have hsub : ∀ g ∈ groups, g.Sublist (prepare blocks) := by
    intro g hg
    rw [← hflat]
    exact List.sublist_flatten_of_mem hg
  have hfiles : ∀ i, ∀ g ∈ groups, Files (prepare blocks) g (groupChunk countTokens i g) :=
    fun i g hg => groupChunk_files countTokens hkeys i (hgroups g hg).ne_nil (hsub g hg)
  have hfile : ∀ c ∈ packedBlocks countTokens target blocks, ∃ bs, Files (prepare blocks) bs c := by
    intro c hc
    rw [hpacked] at hc
    obtain ⟨i, g, hg, rfl⟩ := mem_mapIdx_groups hc
    exact ⟨g, hfiles i g hg⟩
  have hseq : (packedBlocks countTokens target blocks).map (·.seq) =
      List.range (packedBlocks countTokens target blocks).length := by
    rw [hpacked]
    exact seq_mapIdx (groupChunk_seq countTokens) groups
  have hpair : ∀ (i : ℕ) (hi : i + 1 < groups.length),
      (groups[i] ++ groups[i + 1]).Sublist (prepare blocks) := by
    intro i hi
    rw [← hflat]
    exact pair_sublist hi
  unfold chunkLayout
  simp only
  split_ifs
  · apply followsDocument_of_overlap hids hseq hfile
      (overlapBlocks_seq countTokens overlap (prepare blocks))
    rw [hpacked, List.isChain_iff_getElem]
    intro i hi
    rw [List.length_mapIdx] at hi
    rw [List.getElem_mapIdx, List.getElem_mapIdx]
    apply overlaps_of_pair countTokens overlap hids hkeys (hpair i hi)
    · exact (hgroups _ (List.getElem_mem _)).ne_nil
    · exact (hgroups _ (List.getElem_mem hi)).ne_nil
  · apply followsDocument hids hseq hfile
    rw [hpacked, List.isChain_iff_getElem]
    intro i hi
    rw [List.length_mapIdx] at hi
    rw [List.getElem_mapIdx, List.getElem_mapIdx]
    apply startsBehind_of_heads hids (hfiles i _ (List.getElem_mem _))
      (hfiles (i + 1) _ (List.getElem_mem hi))
    intro b hb b' hb'
    apply inOrder_of_before
    exact before_of_pair hkeys (hpair i hi) b (List.mem_of_mem_head? hb) b' (List.mem_of_mem_head? hb')

theorem fixed_starts (F : Type) [PyFloat F] (doc : List α) :
    ((fixedWindows F doc countTokens target overlap 0).map (mergeWindow (spans space doc))).Pairwise
      fun r t => r.1 ≤ t.1 := by
  have hbounds := (fixedWindows_windows F doc countTokens target overlap (fun _ _ => True)
    (fun _ => trivial) (fun _ _ _ _ => trivial) 0).bounds
  have hadvance : (fixedWindows F doc countTokens target overlap 0).IsChain
      fun w w' => w.1 < w'.1 := by
    apply (fixedWindows_chain F doc countTokens target overlap 0).1.imp
    intro w w' h
    rw [h.2]
    exact (resumeAt_bounds doc countTokens overlap h.1).1
  have htiles := spans_tiles (q := space) doc
  rw [List.pairwise_map]
  apply hadvance.pairwise.imp_of_mem
  intro w w' hw hw' hlt
  have hend := hbounds w' hw'
  have hword : w.1 < (spans space doc).length := by omega
  have hword' : w'.1 < (spans space doc).length := by omega
  have hordered := List.pairwise_iff_getElem.mp (starts_of_tiles htiles) _ _ hword hword' hlt
  simpa [mergeWindow, List.getD_eq_getElem?_getD, hword, hword'] using hordered

end

/-- Chunks follow the document: they are numbered, name their blocks in strict order, do not move
    backwards and have coherent pages. The order the blocks come in does not matter. -/
theorem chunks_follow_document {F : Type} [PyFloat F] (strategy : Strategy)
    {blocks : List (SourceBlock α)} (hids : (blocks.map (·.id)).Nodup)
    (hkeys : DistinctKeys blocks) (o : ChunkOptions F) :
    (∀ chunks, chunkWith strategy blocks o = .ok chunks → FollowsDocument blocks chunks) ∧
      ∀ blocks', blocks'.Perm blocks → chunkWith strategy blocks' o = chunkWith strategy blocks o := by
  refine ⟨?_, fun blocks' hperm => chunkWith_of_perm strategy hperm hkeys o⟩
  intro chunks h
  cases strategy with
  | fixed =>
    cases h
    rw [chunkFixed_eq]
    exact followsDocument_of_ranges "fixed" o.countTokens hids hkeys
      (fixed_starts o.countTokens o.targetTokens o.overlapTokens F _)
  | recursive =>
    cases h
    exact chunkRecursive_follows o.countTokens o.targetTokens o.overlapTokens hids hkeys
  | layout =>
    cases h
    exact chunkLayout_follows o.countTokens o.targetTokens o.overlapTokens hids hkeys
  | semantic =>
    obtain ⟨rs, hrs, rfl⟩ := chunkSemantic_tiles o.countTokens o.targetTokens h
    exact followsDocument_of_ranges "semantic" o.countTokens hids hkeys (starts_of_tiles hrs)

theorem shuffled_paragraphs_follow :
    ∃ chunks, chunkWith .recursive threeParagraphs.reverse
        { targetTokens := 2, overlapTokens := 1, countTokens := wordCount,
          embed := fun _ => [], breakpointPercentile := (0 : ℚ) } = .ok chunks ∧
      FollowsDocument threeParagraphs chunks := by
  have h := @chunks_follow_document Char _ ℚ _ .recursive threeParagraphs (by decide) (by decide)
    { targetTokens := 2, overlapTokens := 1, countTokens := wordCount,
      embed := fun _ => [], breakpointPercentile := (0 : ℚ) }
  exact ⟨_, rfl, h.1 _ (h.2 _ (List.reverse_perm _)).symm⟩

end
end Ragent.ChunkOrder
