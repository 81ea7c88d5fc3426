import Ragent.FlattenedDocument

set_option autoImplicit false

/-!
# The layout strategy

`chunk_layout` and `_apply_block_overlap` of `ragent/ingest/chunking.py`: whole blocks packed up
to the budget, tables and figures alone.
-/
namespace Ragent.LayoutChunks
open SpacedWords PyText SourceTypes FlattenedDocument

structure LayoutState (α : Type) where
  chunks : List (Chunk α)
  buffer : List (SourceBlock α)
  bufferedTokens : ℤ

section
variable {α : Type} [Glyph α]
variable (countTokens : TokenCounter) (target overlap : ℤ)

/-- `_BLOCK_JOIN.join(b.text.strip() for b in blocks)` -/
def joinBlocks (blocks : List (SourceBlock α)) : List α :=
  join blockJoin (blocks.map fun b => strip b.text)

/-- `flush()` of `chunk_layout`. -/
def flushLayout (st : LayoutState α) : LayoutState α :=
  if st.buffer.isEmpty then st
  else
    { chunks := st.chunks ++
        (assemble st.chunks.length (joinBlocks st.buffer) st.buffer "layout" countTokens).toList
      buffer := []
      bufferedTokens := 0 }

def atomicChunk (seq : ℕ) (block : SourceBlock α) : Option (Chunk α) :=
  (assemble seq block.text [block] "layout" countTokens).map fun chunk =>
    { chunk with atomic := some block.kind }

def sectionChanged (buffer : List (SourceBlock α)) (block : SourceBlock α) : Bool :=
  match buffer.getLast? with
  | none => false
  | some last => last.sectionPath != block.sectionPath

/-- `if block.is_boundary or section_changed or buffered_tokens + cost > target_tokens: flush()` -/
def flushBefore (st : LayoutState α) (block : SourceBlock α) (cost : ℤ) : LayoutState α :=
  if block.isBoundary ∨ sectionChanged st.buffer block ∨ target < st.bufferedTokens + cost then
    flushLayout countTokens st
  else st

/-- The body of `for block in prepared`. -/
def layoutStep (st : LayoutState α) (block : SourceBlock α) : LayoutState α :=
  let cost := countTokens (plain block.text)
  if block.isAtomic then
    let st := flushLayout countTokens st
    { st with chunks := st.chunks ++ (atomicChunk countTokens st.chunks.length block).toList }
  else
    let st := flushBefore countTokens target st block cost
    { st with buffer := st.buffer ++ [block], bufferedTokens := st.bufferedTokens + cost }

/-- The chunks of `chunk_layout` before the overlap. -/
def packedBlocks (blocks : List (SourceBlock α)) : List (Chunk α) :=
  let prepared := prepare blocks
  if prepared.isEmpty then []
  else (flushLayout countTokens
    (prepared.foldl (layoutStep countTokens target) ⟨[], [], 0⟩)).chunks

/-- `by_id`: a later block takes the place of an earlier one with its id. -/
def byId (blocks : List (SourceBlock α)) (id : String) : Option (SourceBlock α) :=
  blocks.reverse.find? fun b => b.id == id

def carriedBlocks (prepared : List (SourceBlock α)) (prev : Chunk α) : List (SourceBlock α) :=
  (prev.blockIds.getLast?.toList.filterMap (byId prepared)).filter fun b =>
    countTokens (plain b.text) ≤ overlap

/-- The body of the loop in `_apply_block_overlap`. -/
def overlapBlocks (prepared : List (SourceBlock α)) (prev cur : Chunk α) : Chunk α :=
  if cur.atomic.isSome || prev.atomic.isSome then cur
  else
    let carry := carriedBlocks countTokens overlap prepared prev
    if carry.isEmpty then cur
    else
      let merged := carry ++ cur.blockIds.filterMap (byId prepared)
      (assemble cur.seq (joinBlocks merged) merged "layout" countTokens).getD cur

def applyBlockOverlap (prepared : List (SourceBlock α)) (chunks : List (Chunk α)) :
    List (Chunk α) :=
  withPrevious (overlapBlocks countTokens overlap prepared) chunks

def chunkLayout (blocks : List (SourceBlock α)) : List (Chunk α) :=
  let chunks := packedBlocks countTokens target blocks
  if 0 < overlap then applyBlockOverlap countTokens overlap (prepare blocks) chunks else chunks

end

section
variable {α : Type}

/-- `block` goes into the chunk that ends in `last` unless the budget forbids it. -/
def Continues (last block : SourceBlock α) : Prop :=
  block.isBoundary = false ∧ last.sectionPath = block.sectionPath

instance (last block : SourceBlock α) : Decidable (Continues last block) :=
  inferInstanceAs (Decidable (_ ∧ _))

instance : IsTrans (SourceBlock α) Continues where
  trans _ _ _ h h' := ⟨h'.1, h.2.trans h'.2⟩

/-- What the buffer of `chunk_layout` may hold. -/
structure IsRun (bs : List (SourceBlock α)) : Prop where
  text : ∀ b ∈ bs, b.isAtomic = false
  chain : bs.IsChain Continues

/-- What `chunk_layout` makes one chunk of: a table or a figure alone, or a run of other blocks. -/
inductive IsGroup : List (SourceBlock α) → Prop
  | alone (b : SourceBlock α) (h : b.isAtomic = true) : IsGroup [b]
  | run {bs : List (SourceBlock α)} (hne : bs ≠ []) (h : IsRun bs) : IsGroup bs

/-- `chunk.meta["atomic"]` -/
def atomicKind : List (SourceBlock α) → Option String
  | [b] => if b.isAtomic then some b.kind else none
  | _ => none

theorem IsGroup.ne_nil {bs : List (SourceBlock α)} (h : IsGroup bs) : bs ≠ [] := by
  cases h with
  | alone b => exact List.cons_ne_nil b []
  | run hne => exact hne

theorem IsGroup.chain {bs : List (SourceBlock α)} (h : IsGroup bs) : bs.IsChain Continues := by
  cases h with
  | alone b => exact List.isChain_singleton b
  | run _ h => exact h.chain

theorem isRun_nil : IsRun ([] : List (SourceBlock α)) :=
  ⟨by simp, List.isChain_nil⟩

theorem IsRun.push {bs : List (SourceBlock α)} {b : SourceBlock α} (h : IsRun bs)
    (hb : b.isAtomic = false) (hlast : ∀ last ∈ bs.getLast?, Continues last b) :
    IsRun (bs ++ [b]) where
  text := by
    intro b' hb'
    rcases List.mem_append.mp hb' with hb' | hb'
    · exact h.text b' hb'
    · rw [List.mem_singleton.mp hb']
      exact hb
  chain := by
    apply List.isChain_append.mpr
    exact ⟨h.chain, List.isChain_singleton b, by simpa using hlast⟩

theorem IsRun.atomicKind_eq {bs : List (SourceBlock α)} (h : IsRun bs) : atomicKind bs = none := by
  cases bs with
  | nil => rfl
  | cons b bs =>
    cases bs with
    | nil => simp [atomicKind, h.text b (by simp)]
    | cons b' bs => rfl

theorem continues_of_sectionChanged {buffer : List (SourceBlock α)} {b : SourceBlock α}
    (hb : b.isBoundary = false) (h : sectionChanged buffer b = false) :
    ∀ last ∈ buffer.getLast?, Continues last b := by
  intro last hlast
  rw [sectionChanged, Option.mem_def.mp hlast] at h
  exact ⟨hb, by simpa using h⟩

end

section
variable {α : Type} [Glyph α]
variable (countTokens : TokenCounter) (target overlap : ℤ)

def groupChunk (seq : ℕ) (bs : List (SourceBlock α)) : Chunk α :=
  { assembled seq (joinBlocks bs) bs "layout" countTokens with atomic := atomicKind bs }

@[simp] theorem groupChunk_seq (seq : ℕ) (bs : List (SourceBlock α)) :
    (groupChunk countTokens seq bs).seq = seq := rfl

@[simp] theorem groupChunk_blockIds (seq : ℕ) (bs : List (SourceBlock α)) :
    (groupChunk countTokens seq bs).blockIds = bs.map (·.id) := rfl

@[simp] theorem groupChunk_atomic (seq : ℕ) (bs : List (SourceBlock α)) :
    (groupChunk countTokens seq bs).atomic = atomicKind bs := rfl

theorem words_joinBlocks (bs : List (SourceBlock α)) :
    words space (joinBlocks bs) = bs.flatMap fun b => words space b.text := by
  have hne : (blockJoin : List α) ≠ [] := by simp [blockJoin, lit]
  unfold joinBlocks
  rw [words_join hne blockJoin_space, List.flatMap_map]
  simp only [words_strip]

theorem words_joinBlocks_ne_nil {bs : List (SourceBlock α)} (hne : bs ≠ [])
    (hbs : ∀ b ∈ bs, words space b.text ≠ []) : words space (joinBlocks bs) ≠ [] := by
  obtain ⟨b, rest, rfl⟩ := List.exists_cons_of_ne_nil hne
  rw [words_joinBlocks, List.flatMap_cons]
  exact List.append_ne_nil_of_left_ne_nil (hbs b List.mem_cons_self) _

theorem assemble_run (seq : ℕ) {bs : List (SourceBlock α)} (hne : bs ≠ []) (h : IsRun bs)
    (hbs : ∀ b ∈ bs, words space b.text ≠ []) :
    assemble seq (joinBlocks bs) bs "layout" countTokens = some (groupChunk countTokens seq bs) := by
  rw [assemble_eq_assembled seq "layout" countTokens (words_joinBlocks_ne_nil hne hbs) hne,
    groupChunk, h.atomicKind_eq]
  rfl

theorem atomicChunk_eq (seq : ℕ) {b : SourceBlock α} (hatomic : b.isAtomic = true)
    (hb : words space b.text ≠ []) :
    atomicChunk countTokens seq b = some (groupChunk countTokens seq [b]) := by
  have hstrip : strip (joinBlocks [b]) = strip b.text := trim_trim b.text
  rw [atomicChunk, assemble_eq_assembled seq "layout" countTokens hb (List.cons_ne_nil b []),
    Option.map_some, groupChunk, assembled, assembled, hstrip, atomicKind, if_pos hatomic]

/-- What the loop state of `chunk_layout` means after the blocks `done`. -/
structure LayoutInv (st : LayoutState α) (done : List (SourceBlock α))
    (groups : List (List (SourceBlock α))) : Prop where
  chunks : st.chunks = groups.mapIdx (groupChunk countTokens)
  blocks : groups.flatten ++ st.buffer = done
  groups : ∀ g ∈ groups, IsGroup g
  buffer : IsRun st.buffer

variable {countTokens} in
theorem LayoutInv.append {st : LayoutState α} {done bs : List (SourceBlock α)}
    {groups : List (List (SourceBlock α))} (h : LayoutInv countTokens st done groups)
    (hempty : st.buffer = []) (hbs : IsGroup bs) (tokens : ℤ) :
    LayoutInv countTokens ⟨st.chunks ++ [groupChunk countTokens st.chunks.length bs], [], tokens⟩
      (done ++ bs) (groups ++ [bs]) where
  chunks := by simp [h.chunks, List.mapIdx_concat]
  blocks := by simp [← h.blocks, hempty]
  groups := by
    intro g hg
    rcases List.mem_append.mp hg with hg | hg
    · exact h.groups g hg
    · rw [List.mem_singleton.mp hg]
      exact hbs
  buffer := isRun_nil

theorem flushLayout_inv {st : LayoutState α} {done : List (SourceBlock α)}
    {groups : List (List (SourceBlock α))} (h : LayoutInv countTokens st done groups)
    (hdone : ∀ b ∈ done, words space b.text ≠ []) :
    ∃ groups', LayoutInv countTokens (flushLayout countTokens st) done groups' ∧
      (flushLayout countTokens st).buffer = [] := by
  unfold flushLayout
  split_ifs with hempty
  · exact ⟨groups, h, List.isEmpty_iff.mp hempty⟩
  · have hne : st.buffer ≠ [] := by simpa using hempty
    have hblocks : ∀ b ∈ st.buffer, words space b.text ≠ [] := by
      intro b hb
      apply hdone
      rw [← h.blocks]
      exact List.mem_append_right _ hb
    have hflushed : LayoutInv countTokens ⟨st.chunks, [], 0⟩ groups.flatten groups :=
      ⟨h.chunks, List.append_nil _, h.groups, isRun_nil⟩
    rw [assemble_run countTokens st.chunks.length hne h.buffer hblocks, ← h.blocks]
    exact ⟨_, hflushed.append rfl (.run hne h.buffer) 0, rfl⟩

theorem layoutStep_inv {st : LayoutState α} {done : List (SourceBlock α)} {b : SourceBlock α}
    {groups : List (List (SourceBlock α))} (h : LayoutInv countTokens st done groups)
    (hdone : ∀ b ∈ done, words space b.text ≠ []) (hb : words space b.text ≠ []) :
    ∃ groups', LayoutInv countTokens (layoutStep countTokens target st b) (done ++ [b]) groups' := by
  have hpush : ∀ {st : LayoutState α} {groups : List (List (SourceBlock α))} (tokens : ℤ),
      LayoutInv countTokens st done groups → b.isAtomic = false →
      (∀ last ∈ st.buffer.getLast?, Continues last b) →
      LayoutInv countTokens ⟨st.chunks, st.buffer ++ [b], tokens⟩ (done ++ [b]) groups := by
    intro st groups tokens h htext hlast
    exact ⟨h.chunks, by rw [← h.blocks, List.append_assoc], h.groups, h.buffer.push htext hlast⟩
  obtain ⟨flushed, hflush, hempty⟩ := flushLayout_inv countTokens h hdone
  unfold layoutStep flushBefore
  simp only
  split_ifs with hatomic hfull
  · -- a table or a figure: the buffer is flushed and the block is a chunk of its own
    rw [atomicChunk_eq countTokens _ hatomic hb, hempty]
    exact ⟨_, hflush.append hempty (.alone b hatomic) _⟩
  · exact ⟨flushed, hpush _ hflush (by simpa using hatomic) (by simp [hempty])⟩
  · push Not at hfull
    apply Exists.intro groups
    apply hpush _ h (by simpa using hatomic)
    exact continues_of_sectionChanged (by simpa using hfull.1) (by simpa using hfull.2.1)

theorem foldl_layoutStep_inv (blocks : List (SourceBlock α))
    (hb : ∀ b ∈ blocks, words space b.text ≠ []) :
    ∃ groups, LayoutInv countTokens
      (blocks.foldl (layoutStep countTokens target) ⟨[], [], 0⟩) blocks groups := by
  induction blocks using List.reverseRecOn with
  | nil => exact ⟨[], rfl, rfl, by simp, isRun_nil⟩
  | append_singleton blocks b ih =>
    rw [List.foldl_concat]
    have hdone : ∀ b' ∈ blocks, words space b'.text ≠ [] := fun b' h' =>
      hb b' (List.mem_append_left _ h')
    obtain ⟨groups, h⟩ := ih hdone
    exact layoutStep_inv countTokens target h hdone (hb b (by simp))

/-- Before the overlap the chunks of the layout strategy hold the prepared blocks, each once and in
    order, in groups that respect tables, headings and sections. -/
theorem packedBlocks_groups (blocks : List (SourceBlock α)) :
    ∃ groups : List (List (SourceBlock α)),
      packedBlocks countTokens target blocks = groups.mapIdx (groupChunk countTokens) ∧
      groups.flatten = prepare blocks ∧ ∀ g ∈ groups, IsGroup g := by
  have hblocks : ∀ b ∈ prepare blocks, words space b.text ≠ [] := fun b hb =>
    (mem_prepare.mp hb).2.1
  unfold packedBlocks
  simp only
  split_ifs with hempty
  · exact ⟨[], rfl, (List.isEmpty_iff.mp hempty).symm, by simp⟩
  · obtain ⟨_, hinv⟩ := foldl_layoutStep_inv countTokens target (prepare blocks) hblocks
    obtain ⟨groups, hflush, hempty⟩ := flushLayout_inv countTokens hinv hblocks
    refine ⟨groups, hflush.chunks, ?_, hflush.groups⟩
    rw [← hflush.blocks, hempty, List.append_nil]

omit [Glyph α] in
theorem byId_of_mem {blocks : List (SourceBlock α)} (hids : (blocks.map (·.id)).Nodup)
    {b : SourceBlock α} (hb : b ∈ blocks) : byId blocks b.id = some b := by
  cases h : byId blocks b.id with
  | none =>
    have := List.find?_eq_none.mp h b (by simpa using hb)
    simp at this
  | some b' =>
    have hid : b'.id = b.id := by simpa using List.find?_some h
    have hmem : b' ∈ blocks := by simpa using List.mem_of_find?_eq_some h
    rw [List.inj_on_of_nodup_map hids hmem hb hid]

omit [Glyph α] in
theorem filterMap_byId {blocks bs : List (SourceBlock α)} (hids : (blocks.map (·.id)).Nodup)
    (hbs : bs ⊆ blocks) : (bs.map (·.id)).filterMap (byId blocks) = bs := by
  rw [List.filterMap_map, List.filterMap_congr (g := some), List.filterMap_some]
  intro b hb
  exact byId_of_mem hids (hbs hb)

/-- The blocks of `prev` that the overlap puts in front of `cur`. -/
def carried (prev cur : List (SourceBlock α)) : List (SourceBlock α) :=
  if (atomicKind cur).isSome || (atomicKind prev).isSome then []
  else prev.getLast?.toList.filter fun b => countTokens (plain b.text) ≤ overlap

def overlapGroups : List (List (SourceBlock α)) → List (List (SourceBlock α))
  | [] => []
  | first :: rest =>
    first :: List.zipWith (fun prev cur => carried countTokens overlap prev cur ++ cur)
      (first :: rest) rest

theorem carried_subset (prev cur : List (SourceBlock α)) :
    carried countTokens overlap prev cur ⊆ prev := by
  unfold carried
  split_ifs
  · exact List.nil_subset prev
  · intro b hb
    exact List.mem_of_getLast? (by simpa using List.mem_of_mem_filter hb)

/-- With its overlap a chunk still holds whole blocks: its own, behind at most the last block of
    the chunk before it. -/
theorem overlapBlocks_groupChunk {prepared prev cur : List (SourceBlock α)} (i j : ℕ)
    (hids : (prepared.map (·.id)).Nodup) (hwords : ∀ b ∈ prepared, words space b.text ≠ [])
    (hprev : prev ⊆ prepared) (hcur : cur ⊆ prepared) (hne : cur ≠ []) :
    overlapBlocks countTokens overlap prepared (groupChunk countTokens i prev)
        (groupChunk countTokens j cur) =
      groupChunk countTokens j (carried countTokens overlap prev cur ++ cur) := by
  have hcarry : carriedBlocks countTokens overlap prepared (groupChunk countTokens i prev) =
      prev.getLast?.toList.filter fun b => countTokens (plain b.text) ≤ overlap := by
    have hlast : (prev.map (·.id)).getLast?.toList = prev.getLast?.toList.map (·.id) := by
      rw [List.getLast?_map]
      cases prev.getLast? <;> rfl
    have hsub : prev.getLast?.toList ⊆ prepared := by
      intro b hb
      exact hprev (List.mem_of_getLast? (by simpa using hb))
    change ((prev.map (·.id)).getLast?.toList.filterMap (byId prepared)).filter _ = _
    rw [hlast, filterMap_byId hids hsub]
  unfold overlapBlocks carried
  simp only [groupChunk_atomic, groupChunk_blockIds, groupChunk_seq, hcarry,
    filterMap_byId hids hcur]
  split_ifs with hkind hempty
  · rfl
  · rw [List.isEmpty_iff.mp hempty, List.nil_append]
  · generalize hcarried : (prev.getLast?.toList.filter fun b => countTokens (plain b.text) ≤ overlap)
      = front at hempty
    have hfront : front ⊆ prepared := by
      intro b hb
      rw [← hcarried] at hb
      exact hprev (List.mem_of_getLast? (by simpa using List.mem_of_mem_filter hb))
    have hmerged : ∀ b ∈ front ++ cur, words space b.text ≠ [] := fun b hb =>
      hwords b (List.append_subset.mpr ⟨hfront, hcur⟩ hb)
    have hmne : front ++ cur ≠ [] := List.append_ne_nil_of_right_ne_nil front hne
    rw [assemble_eq_assembled _ "layout" countTokens (words_joinBlocks_ne_nil hmne hmerged) hmne,
      Option.getD_some, groupChunk]
    -- two blocks or more are no table
    have hkind' : atomicKind (front ++ cur) = none := by
      obtain ⟨b, front, rfl⟩ := List.exists_cons_of_ne_nil (show front ≠ [] by simpa using hempty)
      obtain ⟨b', cur, rfl⟩ := List.exists_cons_of_ne_nil hne
      cases front <;> rfl
    rw [hkind']
    rfl

theorem chunkLayout_groups {blocks : List (SourceBlock α)} (hids : (blocks.map (·.id)).Nodup) :
    ∃ groups : List (List (SourceBlock α)),
      packedBlocks countTokens target blocks = groups.mapIdx (groupChunk countTokens) ∧
      groups.flatten = prepare blocks ∧ (∀ g ∈ groups, IsGroup g) ∧
      chunkLayout countTokens target overlap blocks =
        (if 0 < overlap then overlapGroups countTokens overlap groups else groups).mapIdx
          (groupChunk countTokens) := by
  obtain ⟨groups, hpacked, hflat, hgroups⟩ := packedBlocks_groups countTokens target blocks
  refine ⟨groups, hpacked, hflat, hgroups, ?_⟩
  unfold chunkLayout applyBlockOverlap
  simp only [hpacked]
  split_ifs
  · have hsub : ∀ g ∈ groups, g ⊆ prepare blocks := by
      intro g hg b hb
      rw [← hflat]
      exact List.mem_flatten.mpr ⟨g, hg, hb⟩
    cases groups with
    | nil => rfl
    | cons first rest =>
      rw [overlapGroups, List.mapIdx_cons, List.mapIdx_cons, withPrevious, List.cons_inj_right]
      apply List.ext_getElem
      · simp
      · intro i h1 h2
        have hi : i < rest.length := by simpa using h2
        simp only [List.getElem_zipWith, List.getElem_mapIdx]
        have hcur : rest[i] ∈ first :: rest := List.mem_cons_of_mem _ (List.getElem_mem hi)
        have hlen : i < (first :: rest).length := by
          rw [List.length_cons]
          omega
        have hoverlap := overlapBlocks_groupChunk countTokens overlap i (i + 1)
          (prepare_ids_nodup hids) (fun b hb => (mem_prepare.mp hb).2.1)
          (hsub _ (List.getElem_mem hlen)) (hsub _ hcur) (hgroups _ hcur).ne_nil
        rw [← hoverlap]
        congr 1
        cases i <;> simp
  · rfl

theorem mem_overlapGroups {groups : List (List (SourceBlock α))} {g : List (SourceBlock α)} :
    g ∈ overlapGroups countTokens overlap groups ↔ groups.head? = some g ∨
      ∃ prev cur, [prev, cur] <:+: groups ∧ g = carried countTokens overlap prev cur ++ cur := by
  cases groups with
  | nil => simp [overlapGroups]
  | cons first rest =>
    rw [overlapGroups, List.mem_cons, mem_zipWith_successive, List.head?_cons, Option.some.injEq,
      eq_comm]

theorem overlapGroups_subset {groups : List (List (SourceBlock α))} {g : List (SourceBlock α)}
    (h : g ∈ overlapGroups countTokens overlap groups) : g ⊆ groups.flatten := by
  have hsub : ∀ g' ∈ groups, g' ⊆ groups.flatten := fun g' hg' b hb =>
    List.mem_flatten.mpr ⟨g', hg', hb⟩
  rcases (mem_overlapGroups countTokens overlap).mp h with hhead | ⟨prev, cur, hsucc, rfl⟩
  · exact hsub g (List.mem_of_mem_head? hhead)
  · apply List.append_subset.mpr
    exact ⟨List.Subset.trans (carried_subset countTokens overlap prev cur)
      (hsub prev (hsucc.subset (by simp))), hsub cur (hsucc.subset (by simp))⟩

theorem exists_overlapGroup {groups : List (List (SourceBlock α))} {g : List (SourceBlock α)}
    (h : g ∈ groups) : ∃ g' ∈ overlapGroups countTokens overlap groups, g ⊆ g' := by
  rcases mem_chunks_cases h with hhead | ⟨prev, hsucc⟩
  · exact ⟨g, (mem_overlapGroups countTokens overlap).mpr (Or.inl hhead), List.Subset.refl g⟩
  · exact ⟨_, (mem_overlapGroups countTokens overlap).mpr (Or.inr ⟨prev, g, hsucc, rfl⟩),
      List.subset_append_right _ g⟩

theorem overlapGroups_length (groups : List (List (SourceBlock α))) :
    (overlapGroups countTokens overlap groups).length = groups.length := by
  cases groups with
  | nil => rfl
  | cons first rest => simp [overlapGroups]

theorem overlapGroups_getElem {groups : List (List (SourceBlock α))} {i : ℕ}
    {g' : List (SourceBlock α)} (h : (overlapGroups countTokens overlap groups)[i]? = some g') :
    ∃ g front, groups[i]? = some g ∧ g' = front ++ g ∧
      (front = [] ∨ ∃ j prev, i = j + 1 ∧ groups[j]? = some prev ∧
        front = carried countTokens overlap prev g) := by
  cases groups with
  | nil => simp [overlapGroups] at h
  | cons first rest =>
    rw [overlapGroups] at h
    cases i with
    | zero => exact ⟨first, [], rfl, by simpa using h.symm, Or.inl rfl⟩
    | succ j =>
      rw [List.getElem?_cons_succ, List.getElem?_zipWith] at h
      cases hprev : (first :: rest)[j]? with
      | none => simp [hprev] at h
      | some prev =>
        cases hcur : rest[j]? with
        | none => simp [hcur] at h
        | some cur =>
          rw [hprev, hcur] at h
          have heq : carried countTokens overlap prev cur ++ cur = g' := by simpa using h
          exact ⟨cur, _, by simpa using hcur, heq.symm, Or.inr ⟨j, prev, rfl, hprev, rfl⟩⟩

theorem words_groupChunk (seq : ℕ) (bs : List (SourceBlock α)) :
    words space (groupChunk countTokens seq bs).text = bs.flatMap fun b => words space b.text := by
  rw [← words_joinBlocks, ← words_strip (joinBlocks bs)]
  rfl

theorem groupChunk_drawsOn (seq : ℕ) {bs : List (SourceBlock α)} (hne : bs ≠ []) :
    DrawsOn bs (groupChunk countTokens seq bs) where
  nonempty := hne
  blockIds := rfl
  charStart := rfl
  charEnd := rfl
  words _ hw := List.mem_flatMap.mp (words_groupChunk countTokens seq bs ▸ hw)

omit [Glyph α] in
theorem mem_mapIdx_groups {groups : List (List (SourceBlock α))}
    {f : ℕ → List (SourceBlock α) → Chunk α} {c : Chunk α} (h : c ∈ groups.mapIdx f) :
    ∃ i, ∃ g ∈ groups, f i g = c := by
  obtain ⟨i, hi, rfl⟩ := List.mem_mapIdx.mp h
  exact ⟨i, _, List.getElem_mem hi, rfl⟩

theorem overlapGroups_ne_nil {groups : List (List (SourceBlock α))}
    (h : ∀ g ∈ groups, IsGroup g) {g : List (SourceBlock α)}
    (hg : g ∈ overlapGroups countTokens overlap groups) : g ≠ [] := by
  rcases (mem_overlapGroups countTokens overlap).mp hg with hhead | ⟨prev, cur, hsucc, rfl⟩
  · exact (h g (List.mem_of_mem_head? hhead)).ne_nil
  · exact List.append_ne_nil_of_right_ne_nil _ (h cur (hsucc.subset (by simp))).ne_nil

theorem chunkLayout_drawsOn {blocks : List (SourceBlock α)} (hids : (blocks.map (·.id)).Nodup) :
    ∀ c ∈ chunkLayout countTokens target overlap blocks, ∃ bs ⊆ prepare blocks, DrawsOn bs c := by
  obtain ⟨groups, -, hflat, hgroups, heq⟩ := chunkLayout_groups countTokens target overlap hids
  intro c hc
  rw [heq] at hc
  obtain ⟨i, g, hg, rfl⟩ := mem_mapIdx_groups hc
  refine ⟨g, ?_⟩
  rw [← hflat]
  split_ifs at hg
  · exact ⟨overlapGroups_subset countTokens overlap hg,
      groupChunk_drawsOn countTokens i (overlapGroups_ne_nil countTokens overlap hgroups hg)⟩
  · exact ⟨fun b hb => List.mem_flatten.mpr ⟨g, hg, hb⟩,
      groupChunk_drawsOn countTokens i (hgroups g hg).ne_nil⟩

end
end Ragent.LayoutChunks
