import Ragent.LayoutChunks

set_option autoImplicit false

/-!
# Sections and tables in layout chunks

`chunk_layout` packs a chunk that lies in one section and has a heading only in front. Its overlap
then carries the last block of a chunk into the next one, whatever made the next one start.
-/
namespace Ragent.LayoutSections
open SpacedWords PyText SourceTypes FlattenedDocument LayoutChunks

/-- The blocks the chunk names have one section path, and only the first may be a title or a
    heading. -/
structure RespectsSections {α : Type} (blocks : List (SourceBlock α)) (c : Chunk α) : Prop where
  oneSection : ∀ b ∈ blocks, ∀ b' ∈ blocks, b.id ∈ c.blockIds → b'.id ∈ c.blockIds →
    b.sectionPath = b'.sectionPath
  headingFirst : ∀ b ∈ blocks, b.isBoundary = true → b.id ∉ c.blockIds.tail

instance {α : Type} (blocks : List (SourceBlock α)) (c : Chunk α) :
    Decidable (RespectsSections blocks c) :=
  decidable_of_iff (_ ∧ _) ⟨fun h => ⟨h.1, h.2⟩, fun h => ⟨h.oneSection, h.headingFirst⟩⟩

section
variable {α : Type} [Glyph α]
variable (countTokens : TokenCounter) (target overlap : ℤ)

def KeepsSections (blocks : List (SourceBlock α)) : Prop :=
  ∀ c ∈ chunkLayout countTokens target overlap blocks, RespectsSections blocks c

/-- The overlap does not carry `last` in front of `block`, or may do so. -/
def Spares (last block : SourceBlock α) : Prop :=
  last.isAtomic = true ∨ block.isAtomic = true ∨ overlap < countTokens (plain last.text) ∨
    Continues last block

instance (last block : SourceBlock α) : Decidable (Spares countTokens overlap last block) :=
  inferInstanceAs (Decidable (_ ∨ _))

omit [Glyph α] in
theorem mem_of_id_mem {blocks bs : List (SourceBlock α)} (hids : (blocks.map (·.id)).Nodup)
    (hsub : bs ⊆ blocks) {b : SourceBlock α} (hb : b ∈ blocks) (h : b.id ∈ bs.map (·.id)) :
    b ∈ bs := by
  obtain ⟨b', hb', hid⟩ := List.mem_map.mp h
  have heq := List.inj_on_of_nodup_map hids (hsub hb') hb hid
  exact heq ▸ hb'

omit [Glyph α] in
theorem chain_continues_cons {b : SourceBlock α} {bs : List (SourceBlock α)} :
    (b :: bs).IsChain Continues ↔
      (∀ b' ∈ bs, b.sectionPath = b'.sectionPath) ∧ ∀ b' ∈ bs, b'.isBoundary = false := by
  rw [List.isChain_iff_pairwise, List.pairwise_cons]
  constructor
  · rintro ⟨h, -⟩
    exact ⟨fun b' hb' => (h b' hb').2, fun b' hb' => (h b' hb').1⟩
  · rintro ⟨hsection, hheading⟩
    refine ⟨fun b' hb' => ⟨hheading b' hb', hsection b' hb'⟩, ?_⟩
    apply List.pairwise_of_forall_mem_list
    intro b' hb' b'' hb''
    exact ⟨hheading b'' hb'', (hsection b' hb').symm.trans (hsection b'' hb'')⟩

theorem respectsSections_iff {blocks bs : List (SourceBlock α)} (seq : ℕ)
    (hids : (blocks.map (·.id)).Nodup) (hsub : bs ⊆ blocks) :
    RespectsSections blocks (groupChunk countTokens seq bs) ↔ bs.IsChain Continues := by
  cases bs with
  | nil => exact ⟨fun _ => List.isChain_nil, fun _ => ⟨by simp, by simp⟩⟩
  | cons b bs =>
    have htail : bs ⊆ blocks := fun b' hb' => hsub (List.mem_cons_of_mem b hb')
    rw [chain_continues_cons]
    constructor
    · intro h
      constructor
      · intro b' hb'
        apply h.oneSection b (hsub List.mem_cons_self) b' (htail hb')
        · simp
        · exact List.mem_map_of_mem (List.mem_cons_of_mem b hb')
      · intro b' hb'
        by_contra hheading
        apply h.headingFirst b' (htail hb') (by simpa using hheading)
        exact List.mem_map_of_mem hb'
    · rintro ⟨hsection, hheading⟩
      have hone : ∀ b' ∈ blocks, b'.id ∈ (b :: bs).map (·.id) → b.sectionPath = b'.sectionPath := by
        intro b' hb' hid
        rcases List.mem_cons.mp (mem_of_id_mem hids hsub hb' hid) with rfl | hmem
        · rfl
        · exact hsection b' hmem
      constructor
      · intro b' hb' b'' hb'' hid' hid''
        exact (hone b' hb' hid').symm.trans (hone b'' hb'' hid'')
      · intro b' hb' hboundary hid
        have hfalse := hheading b' (mem_of_id_mem hids htail hb' hid)
        simp [hboundary] at hfalse

/-- The overlap spoils no chunk in front of which it may carry the block it carries. -/
theorem carried_chain_iff {prev cur : List (SourceBlock α)} (hprev : IsGroup prev)
    (hcur : IsGroup cur) :
    (carried countTokens overlap prev cur ++ cur).IsChain Continues ↔
      ∀ last ∈ prev.getLast?, ∀ block ∈ cur.head?, Spares countTokens overlap last block := by
  have hchain := hcur.chain
  cases hcur with
  | alone b hb => simp [carried, atomicKind, hb, Spares]
  | run hne hrun =>
    cases hprev with
    | alone b hb => simp [carried, atomicKind, hb, Spares, hchain]
    | @run prev hne' hrun' =>
      obtain ⟨block, rest, rfl⟩ := List.exists_cons_of_ne_nil hne
      obtain ⟨last, hlast⟩ := Option.ne_none_iff_exists'.mp
        (show prev.getLast? ≠ none by simpa using hne')
      have hblock : block.isAtomic = false := hrun.text block (by simp)
      have htext : last.isAtomic = false := hrun'.text last (List.mem_of_getLast? hlast)
      have hspares : Spares countTokens overlap last block ↔
          overlap < countTokens (plain last.text) ∨ Continues last block := by
        simp [Spares, hblock, htext]
      simp only [carried, hrun.atomicKind_eq, hrun'.atomicKind_eq, hlast, Option.isSome_none,
        Bool.or_self, Bool.false_eq_true, ↓reduceIte, Option.toList_some, Option.mem_def,
        Option.some.injEq, forall_eq', List.head?_cons, hspares]
      by_cases hfit : countTokens (plain last.text) ≤ overlap
      · simp [hfit, List.isChain_cons_cons, hchain, not_lt.mpr hfit]
      · simp [hfit, hchain, not_le.mp hfit]

/-- `chunk_layout` respects sections and headings exactly if its overlap is never carried across a
    section border or a heading. -/
theorem sections_respected_iff (blocks : List (SourceBlock Char))
    (hids : (blocks.map (·.id)).Nodup) (countTokens : TokenCounter) (target overlap : ℤ) :
    KeepsSections countTokens target overlap blocks ↔
      (0 < overlap → (prepare blocks).IsChain (Spares countTokens overlap)) := by
  obtain ⟨groups, -, hflat, hgroups, heq⟩ := chunkLayout_groups countTokens target overlap hids
  have hprepared : prepare blocks ⊆ blocks := fun b hb => (mem_prepare.mp hb).1
  have hchunks : ∀ gs : List (List (SourceBlock Char)), (∀ g ∈ gs, g ⊆ prepare blocks) →
      ((∀ c ∈ gs.mapIdx (groupChunk countTokens), RespectsSections blocks c) ↔
        ∀ g ∈ gs, g.IsChain Continues) := by
    intro gs hsub
    simp only [List.mem_mapIdx, forall_exists_index, List.forall_mem_iff_getElem]
    constructor
    · intro h i hi
      have hgroup := hsub _ (List.getElem_mem hi)
      exact (respectsSections_iff countTokens i hids (List.Subset.trans hgroup hprepared)).mp (h _ i hi rfl)
    · rintro h c i hi rfl
      have hgroup := hsub _ (List.getElem_mem hi)
      exact (respectsSections_iff countTokens i hids (List.Subset.trans hgroup hprepared)).mpr (h i hi)
  rw [KeepsSections, heq]
  by_cases hoverlap : 0 < overlap
  · have hempty : [] ∉ groups := fun h => (hgroups [] h).ne_nil rfl
    have hinside : ∀ g ∈ groups, g.IsChain (Spares countTokens overlap) := by
      intro g hg
      exact (hgroups g hg).chain.imp fun _ _ h => Or.inr (Or.inr (Or.inr h))
    rw [if_pos hoverlap, hchunks _ fun g hg => hflat ▸ overlapGroups_subset countTokens overlap hg,
      ← hflat, List.isChain_flatten hempty, isChain_iff_successive]
    constructor
    · intro h _
      refine ⟨hinside, fun prev cur hsucc => ?_⟩
      apply (carried_chain_iff countTokens overlap (hgroups prev (hsucc.subset (by simp)))
        (hgroups cur (hsucc.subset (by simp)))).mp
      apply h
      exact (mem_overlapGroups countTokens overlap).mpr (Or.inr ⟨prev, cur, hsucc, rfl⟩)
    · intro h g hg
      rcases (mem_overlapGroups countTokens overlap).mp hg with hhead | ⟨prev, cur, hsucc, rfl⟩
      · exact (hgroups g (List.mem_of_mem_head? hhead)).chain
      · exact (carried_chain_iff countTokens overlap (hgroups prev (hsucc.subset (by simp)))
          (hgroups cur (hsucc.subset (by simp)))).mpr ((h hoverlap).2 prev cur hsucc)
  · rw [if_neg hoverlap, hchunks groups fun g hg b hb => hflat ▸ List.mem_flatten.mpr ⟨g, hg, hb⟩]
    constructor
    · intro _ h
      exact absurd h hoverlap
    · intro _ g hg
      exact (hgroups g hg).chain

def twoSections : List (SourceBlock Char) :=
  [{ SourceBlock.paragraph "a" 0 "one two" 0 with sectionPath := ["First"] },
    { SourceBlock.paragraph "b" 1 "three" 9 with sectionPath := ["Second"] }]

theorem two_sections_kept : KeepsSections wordCount 512 1 twoSections :=
  (sections_respected_iff twoSections (by decide) wordCount 512 1).mpr fun _ => by decide +kernel

/-- The second chunk names the paragraph of the first section and that of the second. -/
theorem overlap_joins_sections : ¬ KeepsSections wordCount 512 64 twoSections := by
  unfold KeepsSections
  decide +kernel

/-- Exactly one of the chunks names the block, and that chunk is the block alone. -/
def StandsAlone (b : SourceBlock α) (chunks : List (Chunk α)) : Prop :=
  ∃ (i : ℕ) (c : Chunk α), chunks[i]? = some c ∧ c.blockIds = [b.id] ∧ c.text = strip b.text ∧
    ∀ (j : ℕ) (c' : Chunk α), chunks[j]? = some c' → b.id ∈ c'.blockIds → j = i

theorem standsAlone_of_groups {blocks : List (SourceBlock α)}
    {groups : List (List (SourceBlock α))} (hids : (blocks.map (·.id)).Nodup)
    (hsub : ∀ g ∈ groups, g ⊆ blocks) {b : SourceBlock α} (hb : b ∈ blocks) {i : ℕ}
    (hi : groups[i]? = some [b])
    (hother : ∀ (j : ℕ) (g : List (SourceBlock α)), groups[j]? = some g → b ∈ g → j = i) :
    StandsAlone b (groups.mapIdx (groupChunk countTokens)) := by
  refine ⟨i, groupChunk countTokens i [b], by simp [hi], rfl, trim_trim b.text, ?_⟩
  intro j c hc hid
  rw [List.getElem?_mapIdx, Option.map_eq_some_iff] at hc
  obtain ⟨g, hg, rfl⟩ := hc
  exact hother j g hg (mem_of_id_mem hids (hsub g (List.mem_of_getElem? hg)) hb hid)

omit [Glyph α] in
theorem group_unique {groups : List (List (SourceBlock α))} (hnodup : groups.flatten.Nodup)
    {b : SourceBlock α} {i j : ℕ} {g g' : List (SourceBlock α)} (hi : groups[i]? = some g)
    (hj : groups[j]? = some g') (hb : b ∈ g) (hb' : b ∈ g') : i = j := by
  obtain ⟨hlt, rfl⟩ := List.getElem?_eq_some_iff.mp hi
  obtain ⟨hlt', rfl⟩ := List.getElem?_eq_some_iff.mp hj
  have hdisjoint := List.pairwise_iff_getElem.mp (List.nodup_flatten.mp hnodup).2
  rcases Nat.lt_trichotomy i j with h | h | h
  · exact absurd hb' (hdisjoint i j hlt hlt' h hb)
  · exact h
  · exact absurd hb (hdisjoint j i hlt' hlt h hb')

omit [Glyph α] in
theorem group_of_atomic {groups : List (List (SourceBlock α))} (h : ∀ g ∈ groups, IsGroup g)
    {b : SourceBlock α} (hatomic : b.isAtomic = true) {g : List (SourceBlock α)} (hg : g ∈ groups)
    (hb : b ∈ g) : g = [b] := by
  cases h g hg with
  | alone b' => rw [List.mem_singleton.mp hb]
  | run _ hrun => simp [hrun.text b hb] at hatomic

theorem not_mem_carried {prev : List (SourceBlock α)} (hprev : IsGroup prev) {b : SourceBlock α}
    (hatomic : b.isAtomic = true) (cur : List (SourceBlock α)) :
    b ∉ carried countTokens overlap prev cur := by
  intro hb
  have hmem := carried_subset countTokens overlap prev cur hb
  cases hprev with
  | alone b' h => simp [carried, atomicKind, h] at hb
  | run _ hrun => simp [hrun.text b hmem] at hatomic

theorem overlapGroups_alone {groups : List (List (SourceBlock α))} {b : SourceBlock α}
    (hatomic : b.isAtomic = true) {i : ℕ} (hi : groups[i]? = some [b]) :
    (overlapGroups countTokens overlap groups)[i]? = some [b] := by
  have hlt := (List.getElem?_eq_some_iff.mp hi).1
  rw [← overlapGroups_length countTokens overlap groups] at hlt
  obtain ⟨g, front, hg, heq, hfront⟩ :=
    overlapGroups_getElem countTokens overlap (List.getElem?_eq_getElem hlt)
  obtain rfl : g = [b] := by simpa [hi] using hg.symm
  have hnil : front = [] := by
    rcases hfront with rfl | ⟨j, prev, -, -, rfl⟩
    · rfl
    · simp [carried, atomicKind, hatomic]
  rw [List.getElem?_eq_getElem hlt, heq, hnil, List.nil_append]

theorem mem_overlapGroups_atomic {groups : List (List (SourceBlock α))}
    (hgroups : ∀ g ∈ groups, IsGroup g) {b : SourceBlock α} (hatomic : b.isAtomic = true) {j : ℕ}
    {g' : List (SourceBlock α)} (hj : (overlapGroups countTokens overlap groups)[j]? = some g')
    (hb : b ∈ g') : ∃ g, groups[j]? = some g ∧ b ∈ g := by
  obtain ⟨g, front, hg, rfl, hfront⟩ := overlapGroups_getElem countTokens overlap hj
  refine ⟨g, hg, (List.mem_append.mp hb).resolve_left ?_⟩
  rcases hfront with rfl | ⟨k, prev, -, hprev, rfl⟩
  · simp
  · exact not_mem_carried countTokens overlap (hgroups prev (List.mem_of_getElem? hprev)) hatomic g

omit [Glyph α] in
theorem isFurniture_of_isAtomic {b : SourceBlock α} (h : b.isAtomic = true) :
    b.isFurniture = false := by
  have hkind : b.kind = "table" ∨ b.kind = "figure" := by simpa [SourceBlock.isAtomic] using h
  rcases hkind with hkind | hkind <;> simp [SourceBlock.isFurniture, hkind]

/-- A table or a figure is one chunk, before the overlap and after it, and no other chunk names
    it. -/
theorem tables_stand_alone (blocks : List (SourceBlock Char))
    (hids : (blocks.map (·.id)).Nodup) (countTokens : TokenCounter) (target overlap : ℤ) :
    ∀ b ∈ blocks, b.isAtomic = true → strip b.text ≠ [] →
      StandsAlone b (packedBlocks countTokens target blocks) ∧
        StandsAlone b (chunkLayout countTokens target overlap blocks) := by
  intro b hb hatomic htext
  obtain ⟨groups, hpacked, hflat, hgroups, heq⟩ :=
    chunkLayout_groups countTokens target overlap hids
  have hprepared : groups.flatten ⊆ blocks := by
    intro b hb
    rw [hflat] at hb
    exact (mem_prepare.mp hb).1
  have hsub : ∀ g ∈ groups, g ⊆ blocks := fun g hg b hb =>
    hprepared (List.mem_flatten.mpr ⟨g, hg, hb⟩)
  have hnodup : groups.flatten.Nodup := hflat ▸ (prepare_ids_nodup hids).of_map
  have hcontent : b ∈ groups.flatten := by
    rw [hflat, mem_prepare]
    exact ⟨hb, fun h0 => htext (strip_eq_nil_iff.mpr h0), isFurniture_of_isAtomic hatomic⟩
  obtain ⟨g, hg, hbg⟩ := List.mem_flatten.mp hcontent
  obtain rfl := group_of_atomic hgroups hatomic hg hbg
  obtain ⟨i, hi⟩ := List.mem_iff_getElem?.mp hg
  have hunique : ∀ (j : ℕ) (g : List (SourceBlock Char)), groups[j]? = some g → b ∈ g → j = i :=
    fun j g hj hbg => group_unique hnodup hj hi hbg (by simp)
  have hbefore := standsAlone_of_groups countTokens hids hsub hb hi hunique
  rw [hpacked, heq]
  refine ⟨hbefore, ?_⟩
  split_ifs
  · apply standsAlone_of_groups countTokens hids _ hb
      (overlapGroups_alone countTokens overlap hatomic hi)
    · intro j g' hj hbg
      obtain ⟨g, hgj, hbg⟩ := mem_overlapGroups_atomic countTokens overlap hgroups hatomic hj hbg
      exact hunique j g hgj hbg
    · intro g hg
      exact List.Subset.trans (overlapGroups_subset countTokens overlap hg) hprepared
  · exact hbefore

def smallTable : SourceBlock Char :=
  { SourceBlock.paragraph "t" 1 " x | y " 9 with kind := "table" }

theorem small_table_stands_alone :
    StandsAlone smallTable (packedBlocks wordCount 512 (smallTable :: twoSections)) ∧
      StandsAlone smallTable (chunkLayout wordCount 512 64 (smallTable :: twoSections)) :=
  tables_stand_alone (smallTable :: twoSections) (by decide) wordCount 512 64 smallTable
    List.mem_cons_self (by decide) (by decide)

end
end Ragent.LayoutSections
