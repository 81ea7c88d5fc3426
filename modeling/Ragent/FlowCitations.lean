import Ragent.Keyed
import Ragent.ChunkProvenance
import Ragent.FlowBlocks

set_option autoImplicit false

/-!
# Citations of flow documents

`parse_flow_stage` turns the blocks of a splitter into source blocks, and a chunk of them carries
the range of the source it is cited by.
-/
namespace Ragent.FlowCitations
open SpacedWords PyText PyNumbers SourceTypes FlattenedDocument RangeChunks FixedChunks
  RecursiveChunks LayoutChunks SemanticChunks ChunkDocument TracedRun ChunkProvenance FlowText
  FlowBlocks

/-- The blocks `parse_flow_stage` builds. -/
def flowSourceBlocks (bs : List (FlowBlock Char)) : List (SourceBlock Char) :=
  bs.zipIdx.map fun b =>
    { id := "tmp-" ++ toString b.2
      pageNo := 0
      readingOrder := b.2
      kind := b.1.kind
      text := b.1.text
      charRange := some (b.1.charStart, b.1.charEnd)
      sectionPath := b.1.sectionPath
      locatable := Or.inr rfl }

inductive Splitter
  | markdown
  | plain

def split (splitter : Splitter) (text : List Char) : List (FlowBlock Char) :=
  match splitter with
  | .markdown => splitMarkdown text
  | .plain => splitPlain text

theorem split_flowSplit (splitter : Splitter) (text : List Char) :
    FlowSplit text (split splitter text) := by
  cases splitter with
  | markdown => exact splitMarkdown_flowSplit text
  | plain => exact splitPlain_flowSplit text

theorem flowSourceBlocks_ids (bs : List (FlowBlock Char)) :
    ((flowSourceBlocks bs).map (·.id)).Nodup := by
  unfold flowSourceBlocks
  rw [List.map_map]
  have hids : ∀ n, ((bs.zipIdx n).map fun b => "tmp-" ++ toString b.2).Nodup := by
    intro n
    rw [show (fun b : FlowBlock Char × ℕ => "tmp-" ++ toString b.2) =
      (fun i : ℕ => "tmp-" ++ toString i) ∘ Prod.snd from rfl, ← List.map_map, List.zipIdx_map_snd]
    refine List.Nodup.map ?_ List.nodup_range'
    intro i j hij
    exact Keyed.repr_injective (String.append_right_inj _ |>.mp hij)
  exact hids 0

section
variable {α : Type} [Glyph α]

def readFrom (source : List α) (b : SourceBlock Char) : SourceBlock α :=
  b.withText (b.charRange.elim (b.text.map Glyph.lit) fun r => slice source r.1 r.2)

structure Located (source : List α) (blocks : List (SourceBlock α)) : Prop where
  ids : (blocks.map (·.id)).Nodup
  prepared : prepare blocks = blocks
  text : ∀ b ∈ blocks, ∃ r, b.charRange = some r ∧ b.text = slice source r.1 r.2
  tiles : Tiles space source 0 (blocks.filterMap (·.charRange))
  ordered : blocks.Pairwise fun b b' =>
    ∀ r r', b.charRange = some r → b'.charRange = some r' → r.2 ≤ r'.1

theorem mem_flowSourceBlocks {bs : List (FlowBlock Char)} {b : SourceBlock Char}
    (h : b ∈ flowSourceBlocks bs) : ∃ f ∈ bs, b.kind = f.kind ∧ b.text = f.text ∧
      b.charRange = some (range f) := by
  obtain ⟨p, hp, rfl⟩ := List.mem_map.mp h
  exact ⟨p.1, (List.mem_zipIdx hp).2.2 ▸ List.getElem_mem _, rfl, rfl, rfl⟩

theorem flowSourceBlocks_ordered {text : List Char} {bs : List (FlowBlock Char)}
    (hsplit : FlowSplit text bs) : (flowSourceBlocks bs).Pairwise fun b b' =>
      inOrder b b' ∧ ∀ r r', b.charRange = some r → b'.charRange = some r' → r.2 ≤ r'.1 := by
  have hord := List.pairwise_iff_getElem.mp (List.pairwise_map.mp hsplit.tiles.ordered)
  unfold flowSourceBlocks
  rw [List.pairwise_map, List.pairwise_iff_getElem]
  intro i j hi hj hij
  rw [List.length_zipIdx] at hi hj
  simp only [List.getElem_zipIdx, Nat.zero_add]
  refine ⟨Or.inr ⟨rfl, ?_⟩, ?_⟩
  · change (i : ℤ) ≤ (j : ℤ)
    omega
  · rintro r r' rfl' rfl''
    cases rfl'
    cases rfl''
    exact hord i j hi hj hij

theorem readFrom_text {text : List Char} {source : List α} (hsource : plain source = text)
    {bs : List (FlowBlock Char)} (hsplit : FlowSplit text bs) {b : SourceBlock Char}
    (hb : b ∈ flowSourceBlocks bs) : plain (readFrom source b).text = b.text := by
  obtain ⟨f, hf, -, htext, hrange⟩ := mem_flowSourceBlocks hb
  change plain (b.charRange.elim _ fun r => slice source r.1 r.2) = b.text
  rw [hrange, htext, (hsplit.exact f hf).text, ← hsource, ← plain_slice]
  rfl

theorem readFrom_erase {text : List Char} {source : List α} (hsource : plain source = text)
    {bs : List (FlowBlock Char)} (hsplit : FlowSplit text bs) :
    ((flowSourceBlocks bs).map (readFrom source)).map (·.erase) = flowSourceBlocks bs := by
  rw [List.map_map]
  conv_rhs => rw [← List.map_id (flowSourceBlocks bs)]
  apply List.map_congr_left
  intro b hb
  change b.withText (plain (readFrom source b).text) = b
  rw [readFrom_text hsource hsplit hb]
  rfl

theorem located_of_split {text : List Char} {source : List α} (hsource : plain source = text)
    {bs : List (FlowBlock Char)} (hsplit : FlowSplit text bs) :
    Located source ((flowSourceBlocks bs).map (readFrom source)) where
  ids := by
    rw [List.map_map]
    exact flowSourceBlocks_ids bs
  prepared := by
    have hcontent : ∀ b ∈ (flowSourceBlocks bs).map (readFrom source), isContent b = true := by
      intro b hb
      obtain ⟨b', hb', rfl⟩ := List.mem_map.mp hb
      obtain ⟨f, hf, hkind, htext, -⟩ := mem_flowSourceBlocks hb'
      obtain ⟨-, -, -, hwords, hkinds⟩ := hsplit.exact f hf
      rw [isContent_iff]
      constructor
      · rw [← htext, ← readFrom_text hsource hsplit hb', plain_words] at hwords
        simpa using hwords
      · change decide (b'.kind ∈ ["header", "footer", "page_number"]) = false
        rw [hkind]
        rw [blockKinds] at hkinds
        simp only [List.mem_cons, List.not_mem_nil, or_false] at hkinds
        rcases hkinds with h | h | h | h <;> rw [h] <;> decide
    rw [prepare, List.filter_eq_self.mpr hcontent]
    apply List.Pairwise.insertionSort_eq
    rw [List.pairwise_map]
    exact (flowSourceBlocks_ordered hsplit).imp fun h => h.1
  text b hb := by
    obtain ⟨b', hb', rfl⟩ := List.mem_map.mp hb
    obtain ⟨f, hf, -, -, hrange⟩ := mem_flowSourceBlocks hb'
    refine ⟨range f, hrange, ?_⟩
    change b'.charRange.elim _ (fun r => slice source r.1 r.2) = _
    rw [hrange]
    rfl
  tiles := by
    have hranges : ((flowSourceBlocks bs).map (readFrom source)).filterMap (·.charRange) =
        bs.map range := by
      rw [List.filterMap_map, flowSourceBlocks, List.filterMap_map]
      change bs.zipIdx.filterMap (fun b => some (range b.1)) = _
      rw [List.filterMap_eq_map', show (fun b : FlowBlock Char × ℕ => range b.1) =
        range ∘ Prod.fst from rfl, ← List.map_map, List.zipIdx_map_fst]
    rw [hranges, ← tiles_plain, hsource]
    exact hsplit.tiles
  ordered := by
    rw [List.pairwise_map]
    exact (flowSourceBlocks_ordered hsplit).imp fun h => h.2

/-- The chunk has a character range, and each of its words stands in it. -/
def Cites (source : List α) (c : Chunk α) : Prop :=
  match c.charStart, c.charEnd with
  | some s, some e => ∀ w ∈ words space c.text, w <:+: slice source s e
  | _, _ => False

instance [DecidableEq α] (source : List α) (c : Chunk α) : Decidable (Cites source c) := by
  unfold Cites
  split <;> infer_instance

theorem cites_iff {source : List α} {c : Chunk α} {s e : ℕ} (hs : c.charStart = some s)
    (he : c.charEnd = some e) :
    Cites source c ↔ ∀ w ∈ words space c.text, w <:+: slice source s e := by
  simp only [Cites, hs, he]

variable {source : List α} {blocks bs : List (SourceBlock α)} {c : Chunk α}

structure SpansBlocks (bs : List (SourceBlock α)) (s e : ℕ) : Prop where
  within : ∀ b ∈ bs, ∀ r, b.charRange = some r → s ≤ r.1 ∧ r.2 ≤ e
  first : ∃ b ∈ bs, ∃ r, b.charRange = some r ∧ r.1 = s
  last : ∃ b ∈ bs, ∃ r, b.charRange = some r ∧ r.2 = e

theorem range_of_drawsOn (h : Located source blocks) (hbs : bs ⊆ blocks) (hd : DrawsOn bs c) :
    ∃ s e, c.charStart = some s ∧ c.charEnd = some e ∧ SpansBlocks bs s e := by
  obtain ⟨b, rest, hcons⟩ := List.exists_cons_of_ne_nil hd.nonempty
  obtain ⟨r, hr, -⟩ := h.text b (hbs (hcons ▸ List.mem_cons_self))
  have hmem : r ∈ bs.filterMap (·.charRange) :=
    List.mem_filterMap.mpr ⟨b, hcons ▸ List.mem_cons_self, hr⟩
  obtain ⟨s, hs⟩ := Option.isSome_iff_exists.mp
    (List.isSome_min?_of_mem (List.mem_map_of_mem (f := Prod.fst) hmem))
  obtain ⟨e, he⟩ := Option.isSome_iff_exists.mp
    (List.isSome_max?_of_mem (List.mem_map_of_mem (f := Prod.snd) hmem))
  obtain ⟨hsmem, hsmin⟩ := List.min?_eq_some_iff.mp hs
  obtain ⟨hemem, hemax⟩ := List.max?_eq_some_iff.mp he
  refine ⟨s, e, hd.charStart.trans hs, hd.charEnd.trans he, fun b' hb' r' hr' => ?_, ?_, ?_⟩
  · have hmem' : r' ∈ bs.filterMap (·.charRange) := List.mem_filterMap.mpr ⟨b', hb', hr'⟩
    exact ⟨hsmin _ (List.mem_map_of_mem hmem'), hemax _ (List.mem_map_of_mem hmem')⟩
  · obtain ⟨r', hr', rfl⟩ := List.mem_map.mp hsmem
    obtain ⟨b', hb', hrange⟩ := List.mem_filterMap.mp hr'
    exact ⟨b', hb', r', hrange, rfl⟩
  · obtain ⟨r', hr', rfl⟩ := List.mem_map.mp hemem
    obtain ⟨b', hb', hrange⟩ := List.mem_filterMap.mp hr'
    exact ⟨b', hb', r', hrange, rfl⟩

theorem isInfix_of_block (h : Located source blocks) {b : SourceBlock α} (hb : b ∈ blocks)
    {w : List α} (hw : w <:+: b.text) {s e : ℕ}
    (hrange : ∀ r, b.charRange = some r → s ≤ r.1 ∧ r.2 ≤ e) : w <:+: slice source s e := by
  obtain ⟨r, hr, htext⟩ := h.text b hb
  rw [htext] at hw
  exact hw.trans (slice_isInfix_slice source (hrange r hr).1 (hrange r hr).2)

theorem block_of_isInfix (h : Located source blocks) {w : List α} (hne : w ≠ [])
    (hw : ∀ a ∈ w, space a = false) {s e : ℕ} (hin : w <:+: slice source s e) :
    ∃ b ∈ blocks, w <:+: b.text ∧ ∃ r, b.charRange = some r ∧ s < r.2 ∧ r.1 < e := by
  obtain ⟨r, hr, hinside, hs, he⟩ := h.tiles.solid_isInfix hne hw hin
  obtain ⟨b, hb, hrange⟩ := List.mem_filterMap.mp hr
  obtain ⟨r', hr', htext⟩ := h.text b hb
  rw [hrange, Option.some.injEq] at hr'
  subst hr'
  exact ⟨b, hb, htext ▸ hinside, r, hrange, hs, he⟩

theorem cites_of_drawsOn (h : Located source blocks) (hbs : bs ⊆ blocks) (hd : DrawsOn bs c) :
    Cites source c := by
  obtain ⟨s, e, hs, he, hspans⟩ := range_of_drawsOn h hbs hd
  rw [cites_iff hs he]
  intro w hw
  obtain ⟨b, hb, hword⟩ := hd.words w hw
  exact isInfix_of_block h (hbs hb) (of_mem_words hword).2.2 (hspans.within b hb)

/-- Every word the overlap carries into a chunk also stands in a block of that chunk. -/
def CarriedFound (countTokens : TokenCounter) (target overlap : ℤ)
    (blocks : List (SourceBlock α)) : Prop :=
  ∀ prev cur, [prev, cur] <:+: packedChunks countTokens target blocks →
    ∀ w ∈ carriedWords countTokens overlap prev,
      ∃ b ∈ blocks, b.id ∈ cur.blockIds ∧ w <:+: b.text

instance [DecidableEq α] (countTokens : TokenCounter) (target overlap : ℤ)
    (blocks : List (SourceBlock α)) : Decidable (CarriedFound countTokens target overlap blocks) :=
  decidable_of_iff (∀ p ∈ (packedChunks countTokens target blocks).zip
      (packedChunks countTokens target blocks).tail, ∀ w ∈ carriedWords countTokens overlap p.1,
        ∃ b ∈ blocks, b.id ∈ p.2.blockIds ∧ w <:+: b.text)
    ⟨fun h prev cur hsucc => h (prev, cur) (mem_zip_tail.mpr hsucc),
      fun h p hp => h p.1 p.2 (mem_zip_tail.mp hp)⟩

/-- A block that reaches into the range of a chunk and its overlap is one of the chunk. The places of
    the blocks are those of chunks that follow each other. -/
theorem mem_of_reaches (h : Located source blocks) {bs' : List (SourceBlock α)} (hbs : bs ⊆ blocks)
    {s e s' e' : ℕ} (hspans : SpansBlocks bs s e) (hspans' : SpansBlocks bs' s' e')
    {b : SourceBlock α} {r : ℕ × ℕ} (hr : b.charRange = some r) (hleft : min e s' < r.2)
    (hright : r.1 < e')
    (hplace : b ∈ bs' ∨
      (∀ b' ∈ bs', ∀ r r', b'.charRange = some r → b.charRange = some r' → r.2 ≤ r'.1) ∨
        ((∀ b' ∈ bs', ∀ r r', b.charRange = some r → b'.charRange = some r' → r.2 ≤ r'.1) ∧
          ∃ b' ∈ bs, b = b' ∨
            ∀ r r', b.charRange = some r → b'.charRange = some r' → r.2 ≤ r'.1)) : b ∈ bs' := by
  obtain hmem | hafter | ⟨hfront, b', hb', hle⟩ := hplace
  · exact hmem
  · obtain ⟨x, hx, rx, hrx, heq⟩ := hspans'.last
    have hbehind := hafter x hx rx r hrx hr
    omega
  · -- a block in front of the chunk ends before the range starts
    obtain ⟨x, hx, rx, hrx, heq⟩ := hspans'.first
    have hbefore := hfront x hx r rx hr hrx
    obtain ⟨r', hr', -⟩ := h.text b' (hbs hb')
    have hwithin := (hspans.within b' hb' r' hr').2
    by_cases hsame : b = b'
    · rw [← hsame, hr, Option.some.injEq] at hr'
      subst hr'
      omega
    · have hends := hle.resolve_left hsame r r' hr hr'
      have hforward := (h.tiles.le_starts r' (List.mem_filterMap.mpr ⟨b', hbs hb', hr'⟩)).2
      omega

/-- The range of a chunk with overlap starts where the blocks of the chunk before it end, or in the
    block the two share, so what is carried over from further back is not in it. -/
theorem overlapChunk_cites_iff (h : Located source blocks) {countTokens : TokenCounter}
    {target overlap : ℤ} {prev cur : Chunk α}
    (hsucc : [prev, cur] <:+: packedChunks countTokens target blocks) :
    Cites source (overlapChunk countTokens overlap prev cur) ↔
      ∀ w ∈ carriedWords countTokens overlap prev,
        ∃ b ∈ blocks, b.id ∈ cur.blockIds ∧ w <:+: b.text := by
  have hordered := h.ordered
  rw [← h.prepared] at hordered
  obtain ⟨bs, hbs, bs', hbs', hprev, hcur, hnext, hplace⟩ :=
    successive_drawsOn countTokens target hordered hsucc
  rw [h.prepared] at hbs hbs' hplace
  obtain ⟨s, e, hs, he, hspans⟩ := range_of_drawsOn h hbs hprev
  obtain ⟨s', e', hs', he', hspans'⟩ := range_of_drawsOn h hbs' hcur
  have hown : ∀ w ∈ words space cur.text, ∃ b ∈ bs', w <:+: b.text := by
    intro w hw
    obtain ⟨b, hb, hword⟩ := hcur.words w hw
    exact ⟨b, hb, (of_mem_words hword).2.2⟩
  by_cases htail : carriedWords countTokens overlap prev = []
  · have hsame : overlapChunk countTokens overlap prev cur = cur := by
      simp [overlapChunk, htail]
    simp only [hsame, htail, List.not_mem_nil, false_imp_iff, implies_true, iff_true]
    exact cites_of_drawsOn h hbs' hcur
  obtain ⟨hstart, hend⟩ := overlapChunk_range countTokens overlap cur htail
  rw [hs', he, Option.getD_some, Option.map_some] at hstart
  rw [cites_iff hstart (hend.trans he')]
  constructor
  · intro hcites w hw
    obtain ⟨hne, hsolid, -⟩ := of_mem_words ((carriedWords_suffix countTokens overlap prev).subset hw)
    have hin := hcites w (by
      rw [words_overlapChunk]
      exact List.mem_append_left _ hw)
    obtain ⟨b, hb, hinside, r, hr, hleft, hright⟩ := block_of_isInfix h hne hsolid hin
    refine ⟨b, hb, ?_, hinside⟩
    rw [hcur.blockIds]
    exact List.mem_map_of_mem (mem_of_reaches h hbs hspans hspans' hr hleft hright (hplace b hb))
  · intro hfound w hw
    rw [words_overlapChunk, List.mem_append] at hw
    have hcovered : ∃ b ∈ bs', w <:+: b.text := by
      rcases hw with hw | hw
      · obtain ⟨b, hb, hid, hinside⟩ := hfound w hw
        rw [hcur.blockIds, List.mem_map] at hid
        obtain ⟨b', hb', hid'⟩ := hid
        have hsame : b' = b := List.inj_on_of_nodup_map h.ids (hbs' hb') hb hid'
        exact ⟨b, hsame ▸ hb', hinside⟩
      · exact hown w hw
    obtain ⟨b, hb, hinside⟩ := hcovered
    refine isInfix_of_block h (hbs' hb) hinside fun r hr => ?_
    obtain ⟨h1, h2⟩ := hspans'.within b hb r hr
    exact ⟨(Nat.min_le_right _ _).trans h1, h2⟩

variable {F : Type} [PyFloat F]

theorem chunkWith_cites_iff (h : Located source blocks) (strategy : Strategy) (o : ChunkOptions F) :
    (∀ chunks, chunkWith strategy blocks o = .ok chunks → ∀ c ∈ chunks, Cites source c) ↔
      (strategy = .recursive → 0 < o.overlapTokens →
        CarriedFound o.countTokens o.targetTokens o.overlapTokens blocks) := by
  by_cases hcase : strategy = .recursive ∧ 0 < o.overlapTokens
  · obtain ⟨rfl, hoverlap⟩ := hcase
    have hmem : ∀ c, c ∈ chunkRecursive o.countTokens o.targetTokens o.overlapTokens blocks ↔
        (packedChunks o.countTokens o.targetTokens blocks).head? = some c ∨
          ∃ prev cur, [prev, cur] <:+: packedChunks o.countTokens o.targetTokens blocks ∧
            c = overlapChunk o.countTokens o.overlapTokens prev cur := by
      intro c
      rw [chunkRecursive, if_pos hoverlap]
      exact mem_withPrevious
    constructor
    · intro hcites _ _ prev cur hsucc
      apply (overlapChunk_cites_iff h hsucc).mp
      exact hcites _ rfl _ ((hmem _).mpr (Or.inr ⟨prev, cur, hsucc, rfl⟩))
    · rintro hfound chunks hchunks c hc
      cases hchunks
      rcases (hmem c).mp hc with hhead | ⟨prev, cur, hsucc, rfl⟩
      · obtain ⟨bs, hbs, hdraws⟩ := packedChunks_drawsOn o.countTokens o.targetTokens blocks c
          (List.mem_of_mem_head? hhead)
        exact cites_of_drawsOn h (h.prepared ▸ hbs) hdraws
      · exact (overlapChunk_cites_iff h hsucc).mpr (hfound rfl hoverlap prev cur hsucc)
  · constructor
    · intro _ hrec hoverlap
      exact absurd ⟨hrec, hoverlap⟩ hcase
    · intro _ chunks hchunks c hc
      obtain ⟨bs, hbs, hdraws⟩ := chunkWith_drawsOn h.ids (not_and.mp hcase) hchunks c hc
      exact cites_of_drawsOn h (h.prepared ▸ hbs) hdraws

end

/-- The source with every character traced to its place. -/
def tracedSource (text : List Char) : List (Traced ℕ) := text.zipIdx.map fun g => (g.1, some g.2)

theorem plain_tracedSource (text : List Char) : plain (tracedSource text) = text := by
  rw [plain, tracedSource, List.map_map]
  exact List.zipIdx_map_fst 0 text

/-- Every chunk of a flow document has a character range that holds its words exactly if each word
    a recursive overlap carries over also stands in a block of the chunk it is carried into; on
    the text alone, and with every word traced to where it stands in the source. -/
theorem flow_citations_iff_carried_found {F : Type} [PyFloat F] (splitter : Splitter)
    (text : List Char) (strategy : Strategy) (o : ChunkOptions F) :
    let blocks := flowSourceBlocks (split splitter text)
    let tracedBlocks := blocks.map (readFrom (tracedSource text))
    ((∀ chunks, chunkWith strategy blocks o = .ok chunks → ∀ c ∈ chunks, Cites text c) ↔
      (strategy = .recursive → 0 < o.overlapTokens →
        CarriedFound o.countTokens o.targetTokens o.overlapTokens blocks)) ∧
    chunkWith strategy blocks o =
      (chunkWith strategy tracedBlocks o).map (List.map (·.erase)) ∧
    ((∀ chunks, chunkWith strategy tracedBlocks o = .ok chunks →
        ∀ c ∈ chunks, Cites (tracedSource text) c) ↔
      (strategy = .recursive → 0 < o.overlapTokens →
        CarriedFound o.countTokens o.targetTokens o.overlapTokens tracedBlocks)) := by
  have hsplit := split_flowSplit splitter text
  have hplain : (flowSourceBlocks (split splitter text)).map (readFrom text) =
      flowSourceBlocks (split splitter text) := by
    have h := readFrom_erase (plain_char text) hsplit
    have herase : (fun b : SourceBlock Char => b.erase) = id :=
      funext fun b => congrArg b.withText (plain_char b.text)
    rwa [herase, List.map_id] at h
  have hlocated := located_of_split (plain_char text) hsplit
  rw [hplain] at hlocated
  refine ⟨chunkWith_cites_iff hlocated strategy o, ?_,
    chunkWith_cites_iff (located_of_split (plain_tracedSource text) hsplit) strategy o⟩
  rw [← chunkWith_erase, readFrom_erase (plain_tracedSource text) hsplit]

/-- The second chunk reads "two three four" and is cited by the range of "three four". -/
theorem overlap_leaves_its_citation :
    ¬ ∀ c ∈ chunkRecursive wordCount 2 1
        (flowSourceBlocks (split .plain "one two\n\nthree four".toList)),
      Cites "one two\n\nthree four".toList c := by
  decide +kernel

end Ragent.FlowCitations
