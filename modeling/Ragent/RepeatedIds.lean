import Ragent.FusionFormula

set_option autoImplicit false

/-!
# Repeated ids

`reciprocal_rank_fusion` skips an id that a retriever has returned before, but the positions of the
ids behind it still count it.
-/
namespace Ragent.RepeatedIds
open PyNumbers Fusion FusionFormula

section
variable {β : Type} [DecidableEq β]

theorem eraseDups_concat (l : List β) (b : β) :
    (l ++ [b]).eraseDups = if b ∈ l then l.eraseDups else l.eraseDups ++ [b] := by
  rw [List.eraseDups_append]
  by_cases hmem : b ∈ l
  · simp [List.removeAll, hmem]
  · simp [List.removeAll, hmem, List.eraseDups_cons]

theorem eraseDups_nodup (l : List β) : l.eraseDups.Nodup := by
  induction l using List.reverseRecOn with
  | nil => exact List.nodup_nil
  | append_singleton l b ih =>
    rw [eraseDups_concat]
    by_cases hmem : b ∈ l
    · rw [if_pos hmem]
      exact ih
    · rw [if_neg hmem, List.nodup_append]
      refine ⟨ih, List.nodup_singleton b, ?_⟩
      intro x hx y hy heq
      rw [List.mem_singleton.mp hy] at heq
      exact hmem (heq ▸ List.mem_eraseDups.mp hx)

theorem eraseDups_prefix {l : List β} (h : ∀ b ∈ l, l.idxOf b = l.eraseDups.idxOf b) :
    l.eraseDups <+: l := by
  rw [List.prefix_iff_getElem?]
  intro i hi
  have hmem : l.eraseDups[i] ∈ l := List.mem_eraseDups.mp (List.getElem_mem hi)
  have hidx := h _ hmem
  rw [(eraseDups_nodup l).idxOf_getElem] at hidx
  have hget := List.getElem?_idxOf hmem
  rw [hidx] at hget
  exact hget

end

section
variable {F : Type} [PyFloat F]

theorem lookup_cons {β : Type} (name : String) (value : β) (items : List (String × β))
    (key : String) :
    ((name, value) :: items).lookup key = if key = name then some value else items.lookup key := by
  rw [List.lookup_cons]
  by_cases h : key = name
  · simp [h]
  · rw [if_neg h, beq_false_of_ne h]

theorem lookup_setItem {β : Type} (name : String) (value : β) (items : List (String × β))
    (key : String) : (setItem name value items).lookup key =
      if key = name then some value else items.lookup key := by
  induction items with
  | nil => rw [setItem, lookup_cons]
  | cons item items ih =>
    rw [setItem]
    by_cases hsame : item.1 = name
    · rw [if_pos hsame, lookup_cons, show item = (item.1, item.2) from rfl, lookup_cons, hsame]
      by_cases h : key = name <;> simp [h]
    · rw [if_neg hsame, show item = (item.1, item.2) from rfl, lookup_cons, lookup_cons, ih]
      by_cases h : key = item.1
      · have hne : key ≠ name := fun heq => hsame (h.symm.trans heq)
        rw [if_pos h, if_neg hne, if_pos h]
      · rw [if_neg h, if_neg h]

def ranksIn (hits : List (FusedHit F)) (id : String) : List (String × ℕ) :=
  ((lookup hits id).map (·.ranks)).getD []

theorem ranksIn_credit (retriever docId : String) (position : ℕ) (contribution : F)
    (hits : List (FusedHit F)) (id : String) :
    ranksIn (credit retriever docId position contribution hits) id =
      if id = docId then setItem retriever position (ranksIn hits id) else ranksIn hits id := by
  unfold ranksIn
  rw [lookup_credit]
  by_cases hid : id = docId
  · subst hid
    rw [if_pos rfl, if_pos rfl]
    cases lookup hits id with
    | none => rfl
    | some hit => rfl
  · rw [if_neg hid, if_neg hid]

theorem ranksIn_creditAll (k : ℤ) (retriever : String) (weight : F) (docIds : List String)
    (position : ℕ) (seen : List String) (hits : List (FusedHit F)) (id : String) :
    ranksIn (creditAll k retriever weight docIds position seen hits) id =
      if id ∈ docIds ∧ id ∉ seen then
        setItem retriever (position + docIds.idxOf id) (ranksIn hits id)
      else ranksIn hits id := by
  induction docIds generalizing position seen hits with
  | nil => simp [creditAll]
  | cons docId docIds ih =>
    have hindex : docId ≠ id → position + (docId :: docIds).idxOf id =
        position + 1 + docIds.idxOf id := by
      intro hne
      rw [List.idxOf_cons_ne _ hne]
      omega
    unfold creditAll
    by_cases hseen : docId ∈ seen
    · rw [if_pos hseen, ih]
      by_cases hid : id = docId
      · simp [hid, hseen]
      · simp [hid, hindex (Ne.symm hid)]
    · rw [if_neg hseen, ih, ranksIn_credit]
      by_cases hid : id = docId
      · simp [hid, hseen]
      · simp [hid, hindex (Ne.symm hid)]

theorem ranksIn_creditRanking (k : ℤ) (weights : List (String × F)) (hits : List (FusedHit F))
    (ranking : String × List String) (id : String) :
    ranksIn (creditRanking k weights hits ranking) id =
      if PyFloat.isZero (weightOf weights ranking.1) = false ∧ id ∈ ranking.2 then
        setItem ranking.1 (ranking.2.idxOf id + 1) (ranksIn hits id)
      else ranksIn hits id := by
  unfold creditRanking
  by_cases hzero : PyFloat.isZero (weightOf weights ranking.1) = true
  · simp [hzero]
  · rw [if_neg hzero, ranksIn_creditAll, Nat.add_comm 1]
    simp [hzero]

section
variable (k : ℤ) (weights : List (String × F))

theorem lookup_ranksIn_foldl {rankings : List (String × List String)} {name : String}
    (hname : name ∉ rankings.map (·.1)) (hits : List (FusedHit F)) (id : String) :
    (ranksIn (rankings.foldl (creditRanking k weights) hits) id).lookup name =
      (ranksIn hits id).lookup name := by
  induction rankings generalizing hits with
  | nil => rfl
  | cons ranking rankings ih =>
    rw [List.map_cons, List.mem_cons, not_or] at hname
    rw [List.foldl_cons, ih hname.2, ranksIn_creditRanking]
    split
    · rw [lookup_setItem, if_neg hname.1]
    · rfl

/-- A retriever that counts gives an id the position of its first occurrence. -/
theorem rank_of_first {rankings : List (String × List String)}
    (hnames : (rankings.map (·.1)).Nodup) {ranking : String × List String}
    (hranking : ranking ∈ rankings)
    (hcounts : PyFloat.isZero (weightOf weights ranking.1) = false) {id : String}
    (hid : id ∈ ranking.2) :
    (ranksIn (rankings.foldl (creditRanking k weights) []) id).lookup ranking.1 =
      some (ranking.2.idxOf id + 1) := by
  rcases List.append_of_mem hranking with ⟨front, back, rfl⟩
  have hlater : ranking.1 ∉ back.map (·.1) := by
    rw [List.map_append, List.map_cons, List.nodup_append] at hnames
    exact (List.nodup_cons.mp hnames.2.1).1
  rw [List.foldl_append, List.foldl_cons, lookup_ranksIn_foldl k weights hlater,
    ranksIn_creditRanking, if_pos ⟨hcounts, hid⟩, lookup_setItem, if_pos rfl]

end

theorem creditAll_repeats (k : ℤ) (retriever : String) (weight : F) (firsts repeats : List String)
    (position : ℕ) (seen : List String) (hits : List (FusedHit F))
    (h : ∀ id ∈ repeats, id ∈ firsts ∨ id ∈ seen) :
    creditAll k retriever weight (firsts ++ repeats) position seen hits =
      creditAll k retriever weight firsts position seen hits := by
  induction firsts generalizing position seen hits with
  | nil =>
    rw [List.nil_append, creditAll]
    induction repeats generalizing position with
    | nil => rfl
    | cons id repeats ih =>
      have hseen : id ∈ seen := (h id List.mem_cons_self).resolve_left List.not_mem_nil
      rw [creditAll, if_pos hseen]
      exact ih _ fun other hother => h other (List.mem_cons_of_mem id hother)
  | cons first firsts ih =>
    rw [List.cons_append]
    unfold creditAll
    split
    · next hseen =>
      apply ih
      intro id hid
      rcases h id hid with hmem | hmem
      · cases List.mem_cons.mp hmem with
        | inl heq => exact Or.inr (heq ▸ hseen)
        | inr hmem => exact Or.inl hmem
      · exact Or.inr hmem
    · apply ih
      intro id hid
      rcases h id hid with hmem | hmem
      · cases List.mem_cons.mp hmem with
        | inl heq => exact Or.inr (heq ▸ List.mem_cons_self)
        | inr hmem => exact Or.inl hmem
      · exact Or.inr (List.mem_cons_of_mem first hmem)

def withoutRepeats (ranking : String × List String) : String × List String :=
  (ranking.1, ranking.2.eraseDups)

theorem creditRanking_withoutRepeats (k : ℤ) (weights : List (String × F))
    {ranking : String × List String}
    (h : PyFloat.isZero (weightOf weights ranking.1) = false → ranking.2.eraseDups <+: ranking.2)
    (hits : List (FusedHit F)) :
    creditRanking k weights hits (withoutRepeats ranking) = creditRanking k weights hits ranking := by
  unfold creditRanking withoutRepeats
  by_cases hzero : PyFloat.isZero (weightOf weights ranking.1) = true
  · rw [if_pos hzero, if_pos hzero]
  · rw [if_neg hzero, if_neg hzero]
    rcases h (by simpa using hzero) with ⟨repeats, hrepeats⟩
    have hseen : ∀ id ∈ repeats, id ∈ ranking.2.eraseDups ∨ id ∈ ([] : List String) := by
      intro id hid
      apply Or.inl
      apply List.mem_eraseDups.mpr
      rw [← hrepeats]
      exact List.mem_append_right _ hid
    have hskip := creditAll_repeats k ranking.1 (weightOf weights ranking.1) ranking.2.eraseDups
      repeats 1 [] hits hseen
    rw [hrepeats] at hskip
    exact hskip.symm

theorem ranksIn_of_ordered {hits hits' : List (FusedHit F)} (h : ordered hits = ordered hits')
    (hids : (hits'.map (·.docId)).Nodup) (id : String) : ranksIn hits id = ranksIn hits' id := by
  have hperm : hits.Perm hits' :=
    (ordered_perm hits).symm.trans (h ▸ ordered_perm hits')
  unfold ranksIn lookup
  rw [Keyed.find_perm hperm hids]

/-- In every list that counts, the repeated occurrences come behind all first ones. -/
def RepeatsLast (weights : List (String × F)) (rankings : List (String × List String)) : Prop :=
  ∀ ranking ∈ rankings, PyFloat.isZero (weightOf weights ranking.1) = false →
    ranking.2.eraseDups <+: ranking.2

variable {k : ℤ} {rankings : List (String × List String)} {weights : List (String × F)}

theorem repeatsLast_of_fusion (hk : 1 ≤ k) (hnames : (rankings.map (·.1)).Nodup)
    (hsame : reciprocalRankFusion rankings k weights none =
      reciprocalRankFusion (rankings.map withoutRepeats) k weights none) :
    RepeatsLast weights rankings := by
  intro ranking hranking hcounts
  rw [fusion_of_pos hk, fusion_of_pos hk] at hsame
  have hordered := Except.ok.inj hsame
  have hnames' : ((rankings.map withoutRepeats).map (·.1)).Nodup := by
    rw [List.map_map]
    exact hnames
  apply eraseDups_prefix
  intro id hid
  have hrank := rank_of_first k weights hnames hranking hcounts hid
  have hrank' := rank_of_first k weights hnames' (List.mem_map_of_mem hranking) hcounts
    (List.mem_eraseDups.mpr hid)
  rw [ranksIn_of_ordered hordered (ids_foldl_nodup List.nodup_nil)] at hrank
  exact Nat.succ.inj (Option.some.inj (hrank.symm.trans hrank'))

theorem fusion_of_repeatsLast (hk : 1 ≤ k) (h : RepeatsLast weights rankings) (limit : Option ℤ) :
    reciprocalRankFusion rankings k weights limit =
      reciprocalRankFusion (rankings.map withoutRepeats) k weights limit := by
  have hfold : rankings.foldl (creditRanking k weights) [] =
      (rankings.map withoutRepeats).foldl (creditRanking k weights) [] := by
    rw [List.foldl_map]
    apply List.foldl_ext
    intro hits ranking hranking
    exact (creditRanking_withoutRepeats k weights (h ranking hranking) hits).symm
  rw [fusion_of_pos hk, fusion_of_pos hk, hfold]

/-- Repeated ids are ignored exactly if they come behind all first occurrences. A limit may cut off
    the hits that tell the difference. -/
theorem repeats_are_ignored_iff (hk : 1 ≤ k) (hnames : (rankings.map (·.1)).Nodup) :
    (reciprocalRankFusion rankings k weights none =
        reciprocalRankFusion (rankings.map withoutRepeats) k weights none ↔
      RepeatsLast weights rankings) ∧
    ((∀ limit, reciprocalRankFusion rankings k weights limit =
        reciprocalRankFusion (rankings.map withoutRepeats) k weights limit) ↔
      RepeatsLast weights rankings) := by
  constructor
  · constructor
    · exact repeatsLast_of_fusion hk hnames
    · exact fun h => fusion_of_repeatsLast hk h none
  · constructor
    · exact fun hsame => repeatsLast_of_fusion hk hnames (hsame none)
    · exact fusion_of_repeatsLast hk

end

theorem trailing_repeats_are_ignored :
    reciprocalRankFusion [("dense", ["a", "b", "a"])] 60 ([] : List (String × ℚ)) none =
      reciprocalRankFusion ([("dense", ["a", "b", "a"])].map withoutRepeats) 60 [] none := by
  apply (repeats_are_ignored_iff (by decide) (by decide)).1.mpr
  intro ranking hranking _
  rw [List.mem_singleton.mp hranking]
  exact ⟨["a"], by decide⟩

/-- The position of "b" counts both occurrences of "a". -/
theorem a_repeat_pushes_an_id_down :
    reciprocalRankFusion [("dense", ["a", "a", "b"])] 60 ([] : List (String × ℚ)) none ≠
      reciprocalRankFusion ([("dense", ["a", "a", "b"])].map withoutRepeats) 60 [] none := by
  intro hsame
  rw [fusion_of_pos (by decide), fusion_of_pos (by decide)] at hsame
  have hranks := ranksIn_of_ordered (Except.ok.inj hsame) (ids_foldl_nodup List.nodup_nil) "b"
  revert hranks
  decide

end Ragent.RepeatedIds
