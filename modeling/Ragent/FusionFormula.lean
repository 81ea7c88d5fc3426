import Mathlib.Algebra.BigOperators.Group.List.Basic
import Mathlib.Data.List.Induction
import Mathlib.Data.Prod.Lex
import Mathlib.Data.String.Basic
import Ragent.Fusion
import Ragent.Keyed

set_option autoImplicit false

/-!
# Fusion and its formula

`reciprocal_rank_fusion` builds a map hit by hit. In exact arithmetic what it returns is the sum
over the retrievers that `fusion.py` states, sorted by a strict total order.
-/
namespace Ragent.FusionFormula
open PyNumbers Fusion

section
variable {F : Type} [PyFloat F]

def lookup (hits : List (FusedHit F)) (id : String) : Option (FusedHit F) :=
  hits.find? fun hit => hit.docId = id

def credited (retriever docId : String) (position : ℕ) (contribution : F) :
    Option (FusedHit F) → FusedHit F
  | none =>
    { docId := docId
      score := PyFloat.add (PyFloat.ofInt 0) contribution
      ranks := [(retriever, position)]
      contributions := [(retriever, contribution)] }
  | some hit =>
    { hit with
      score := PyFloat.add hit.score contribution
      ranks := setItem retriever position hit.ranks
      contributions := setItem retriever contribution hit.contributions }

theorem lookup_credit (retriever docId : String) (position : ℕ) (contribution : F)
    (hits : List (FusedHit F)) (id : String) :
    lookup (credit retriever docId position contribution hits) id =
      if id = docId then some (credited retriever docId position contribution (lookup hits docId))
      else lookup hits id := by
  induction hits with
  | nil =>
    by_cases hid : id = docId
    · simp [credit, lookup, credited, hid]
    · simp [credit, lookup, hid, Ne.symm hid]
  | cons hit hits ih =>
    unfold lookup at ih
    by_cases hsame : hit.docId = docId
    · by_cases hid : id = docId
      · simp [credit, lookup, credited, hid, hsame]
      · simp [credit, lookup, hid, hsame, Ne.symm hid]
    · by_cases hid : hit.docId = id
      · have hne : id ≠ docId := fun h => hsame (hid.trans h)
        simp [credit, lookup, hid, hne]
      · simp [credit, lookup, hsame, hid, ih]

theorem lookup_creditAll (k : ℤ) (retriever : String) (weight : F) (docIds : List String)
    (position : ℕ) (seen : List String) (hits : List (FusedHit F)) (hnodup : docIds.Nodup)
    (hseen : ∀ docId ∈ docIds, docId ∉ seen) (id : String) :
    lookup (creditAll k retriever weight docIds position seen hits) id =
      if id ∈ docIds then
        some (credited retriever id (position + docIds.idxOf id)
          (PyFloat.div weight (PyFloat.ofInt (k + (position + docIds.idxOf id : ℕ))))
          (lookup hits id))
      else lookup hits id := by
  induction docIds generalizing position seen hits with
  | nil => simp [creditAll]
  | cons docId docIds ih =>
    obtain ⟨hfresh, hnodup⟩ := List.nodup_cons.mp hnodup
    have hrest : ∀ other ∈ docIds, other ∉ docId :: seen := by
      intro other hother hmem
      cases List.mem_cons.mp hmem with
      | inl heq => exact hfresh (heq ▸ hother)
      | inr hmem => exact hseen other (List.mem_cons_of_mem docId hother) hmem
    rw [creditAll, if_neg (hseen docId List.mem_cons_self), ih (position + 1) (docId :: seen) _
      hnodup hrest, lookup_credit]
    by_cases hid : id = docId
    · subst hid
      simp [hfresh]
    · by_cases hmem : id ∈ docIds
      · have hindex : position + 1 + docIds.idxOf id = position + (docId :: docIds).idxOf id := by
          rw [List.idxOf_cons_ne _ (Ne.symm hid)]
          omega
        simp [hid, hmem, hindex]
      · simp [hid, hmem]

end

theorem setItem_fresh {β : Type} {key : String} (value : β) {items : List (String × β)}
    (h : key ∉ items.map (·.1)) : setItem key value items = items ++ [(key, value)] := by
  induction items with
  | nil => rfl
  | cons item items ih =>
    rw [List.map_cons, List.mem_cons, not_or] at h
    rw [setItem, if_neg (Ne.symm h.1), ih h.2, List.cons_append]

section
variable (k : ℤ) (weights : List (String × ℚ))

/-- The name of a retriever with a weight that has the id, and the position of the id in its list,
    counted from 1. -/
def rankIn (id : String) (ranking : String × List String) : Option (String × ℕ) :=
  if weightOf weights ranking.1 ≠ 0 ∧ id ∈ ranking.2 then
    some (ranking.1, ranking.2.idxOf id + 1)
  else none

def ranksOf (rankings : List (String × List String)) (id : String) : List (String × ℕ) :=
  rankings.filterMap (rankIn weights id)

/-- `w_r / (k + rank_r)` -/
def share (rank : String × ℕ) : ℚ := weightOf weights rank.1 / (k + rank.2)

def hitWith (id : String) (ranks : List (String × ℕ)) : FusedHit ℚ where
  docId := id
  score := (ranks.map (share k weights)).sum
  ranks := ranks
  contributions := ranks.map fun rank => (rank.1, share k weights rank)

theorem ranksOf_concat (rankings : List (String × List String)) (ranking : String × List String)
    (id : String) : ranksOf weights (rankings ++ [ranking]) id =
      ranksOf weights rankings id ++ (rankIn weights id ranking).toList := by
  unfold ranksOf
  rw [List.filterMap_append]
  cases h : rankIn weights id ranking with
  | none => simp [h]
  | some rank => simp [h]

theorem retriever_of_ranksOf {rankings : List (String × List String)} {id retriever : String}
    (h : retriever ∈ (ranksOf weights rankings id).map (·.1)) :
    retriever ∈ rankings.map (·.1) := by
  obtain ⟨rank, hrank, hname⟩ := List.mem_map.mp h
  obtain ⟨ranking, hranking, hsome⟩ := List.mem_filterMap.mp hrank
  unfold rankIn at hsome
  split at hsome
  · rw [← hname, ← Option.some.inj hsome]
    exact List.mem_map_of_mem hranking
  · cases hsome

def entry (id : String) (ranks : List (String × ℕ)) : Option (FusedHit ℚ) :=
  if ranks = [] then none else some (hitWith k weights id ranks)

theorem entry_concat (id : String) (ranks : List (String × ℕ)) (rank : String × ℕ) :
    entry k weights id (ranks ++ [rank]) = some (hitWith k weights id (ranks ++ [rank])) :=
  if_neg (by simp)

theorem credited_entry {id : String} (rank : String × ℕ) {ranks : List (String × ℕ)}
    (hfresh : rank.1 ∉ ranks.map (·.1)) :
    credited rank.1 id rank.2 (share k weights rank) (entry k weights id ranks) =
      hitWith k weights id (ranks ++ [rank]) := by
  by_cases hnil : ranks = []
  · subst hnil
    simp [entry, credited, hitWith, PyFloat.add, PyFloat.ofInt]
  · have hfresh' : rank.1 ∉ (ranks.map fun rank => (rank.1, share k weights rank)).map (·.1) := by
      simpa using hfresh
    simp [entry, hnil, credited, hitWith, PyFloat.add, setItem_fresh _ hfresh,
      setItem_fresh _ hfresh']

theorem lookup_creditRanking {hits : List (FusedHit ℚ)} {ranking : String × List String}
    {id : String} {ranks : List (String × ℕ)} (hnodup : ranking.2.Nodup)
    (hfresh : ranking.1 ∉ ranks.map (·.1)) (h : lookup hits id = entry k weights id ranks) :
    lookup (creditRanking k weights hits ranking) id =
      entry k weights id (ranks ++ (rankIn weights id ranking).toList) := by
  unfold creditRanking
  by_cases hzero : weightOf weights ranking.1 = 0
  · have hskip : PyFloat.isZero (weightOf weights ranking.1) = true := by
      simpa [PyFloat.isZero] using hzero
    have hrank : rankIn weights id ranking = none := if_neg fun h => h.1 hzero
    rw [if_pos hskip, hrank, h, Option.toList_none, List.append_nil]
  · have hcount : PyFloat.isZero (weightOf weights ranking.1) ≠ true := by
      simpa [PyFloat.isZero] using hzero
    rw [if_neg hcount, lookup_creditAll _ _ _ _ _ _ _ hnodup (fun _ _ => List.not_mem_nil) id]
    by_cases hmem : id ∈ ranking.2
    · have hrank : rankIn weights id ranking = some (ranking.1, ranking.2.idxOf id + 1) :=
        if_pos ⟨hzero, hmem⟩
      have hshare : PyFloat.div (weightOf weights ranking.1)
          (PyFloat.ofInt (k + (1 + ranking.2.idxOf id : ℕ))) =
            share k weights (ranking.1, ranking.2.idxOf id + 1) := by
        simp [share, PyFloat.div, PyFloat.ofInt, add_comm]
      rw [if_pos hmem, hrank, h, hshare, Nat.add_comm 1, Option.toList_some, entry_concat]
      exact congrArg some (credited_entry k weights (_, _) hfresh)
    · have hrank : rankIn weights id ranking = none := if_neg fun h => hmem h.2
      simp [hmem, hrank, h]

/-- After all rankings the map has the formula's hit for every id with a rank. -/
theorem lookup_foldl {rankings : List (String × List String)}
    (hnames : (rankings.map (·.1)).Nodup) (hlists : ∀ ranking ∈ rankings, ranking.2.Nodup)
    (id : String) : lookup (rankings.foldl (creditRanking k weights) []) id =
      entry k weights id (ranksOf weights rankings id) := by
  induction rankings using List.reverseRecOn with
  | nil => simp [lookup, entry, ranksOf]
  | append_singleton rankings ranking ih =>
    rw [List.map_append, List.map_singleton, List.nodup_append] at hnames
    rw [List.foldl_append, ranksOf_concat]
    apply lookup_creditRanking
    · exact hlists ranking (by simp)
    · intro hmem
      exact hnames.2.2 _ (retriever_of_ranksOf weights hmem) _ List.mem_cons_self rfl
    · exact ih hnames.1 fun other hother => hlists other (List.mem_append_left _ hother)

end

/-- Score descending, then number of retrievers descending, then id. -/
def Ahead (a b : FusedHit ℚ) : Prop :=
  b.score < a.score ∨ a.score = b.score ∧
    (b.retrieverCount < a.retrieverCount ∨
      a.retrieverCount = b.retrieverCount ∧ a.docId < b.docId)

/-- `(-score, -retriever_count, doc_id)` -/
def sortKey (hit : FusedHit ℚ) : ℚ ×ₗ ℤ ×ₗ String :=
  toLex (-hit.score, toLex (-(hit.retrieverCount : ℤ), hit.docId))

theorem ahead_iff (a b : FusedHit ℚ) : Ahead a b ↔ sortKey a < sortKey b := by
  simp only [Ahead, sortKey, Prod.Lex.toLex_lt_toLex, neg_lt_neg_iff, neg_inj, Nat.cast_lt,
    Nat.cast_inj]

theorem before_iff (a b : FusedHit ℚ) : before a b = true ↔ Ahead a b := by
  unfold before Ahead
  by_cases hscore : b.score < a.score
  · simp [PyFloat.lt, hscore]
  · by_cases hscore' : a.score < b.score
    · simp [PyFloat.lt, hscore, hscore', hscore'.ne]
    · have heq : a.score = b.score := le_antisymm (not_lt.mp hscore) (not_lt.mp hscore')
      by_cases hcount : a.retrieverCount = b.retrieverCount
      · simp [PyFloat.lt, heq, hcount]
      · simp [PyFloat.lt, heq, hcount]

theorem ordered_sorted (hits : List (FusedHit ℚ)) :
    (ordered hits).Pairwise fun a b => sortKey a ≤ sortKey b := by
  have hle : ∀ a b : FusedHit ℚ, before b a = false ↔ sortKey a ≤ sortKey b := by
    intro a b
    rw [← Bool.not_eq_true, before_iff, ahead_iff, not_lt]
  have htotal : Std.Total fun a b : FusedHit ℚ => before b a = false :=
    ⟨fun a b => by simpa only [hle] using le_total (sortKey a) (sortKey b)⟩
  have htrans : IsTrans (FusedHit ℚ) fun a b => before b a = false :=
    ⟨fun a b c => by simpa only [hle] using le_trans⟩
  exact (List.pairwise_insertionSort _ hits).imp fun h => (hle _ _).mp h

/-- Hits with different ids are never tied. -/
theorem ordered_ahead {hits : List (FusedHit ℚ)} (hids : (hits.map (·.docId)).Nodup) :
    (ordered hits).Pairwise Ahead := by
  have hids' : (ordered hits).Pairwise fun a b => a.docId ≠ b.docId := by
    apply List.pairwise_map.mp
    exact ((ordered_perm hits).map (·.docId)).nodup_iff.mpr hids
  apply ((ordered_sorted hits).and hids').imp
  intro a b h
  rw [ahead_iff]
  apply lt_of_le_of_ne h.1
  intro heq
  have hkey := congrArg (fun key => (ofLex (ofLex key).2).2) heq
  exact h.2 hkey

theorem lookup_eq_some_iff {hits : List (FusedHit ℚ)} (hids : (hits.map (·.docId)).Nodup)
    (hit : FusedHit ℚ) : lookup hits hit.docId = some hit ↔ hit ∈ hits := by
  unfold lookup
  constructor
  · exact List.mem_of_find?_eq_some
  · exact Keyed.find_key hids

section
variable (k : ℤ) (weights : List (String × ℚ)) (rankings : List (String × List String))

theorem ranksOf_ne_nil_iff (id : String) : ranksOf weights rankings id ≠ [] ↔
    ∃ ranking ∈ rankings, weightOf weights ranking.1 ≠ 0 ∧ id ∈ ranking.2 := by
  rw [ne_eq, ranksOf, List.filterMap_eq_nil_iff]
  simp [rankIn]

def formula (id : String) : FusedHit ℚ := hitWith k weights id (ranksOf weights rankings id)

structure IsFusion (fused : List (FusedHit ℚ)) : Prop where
  once : (fused.map (·.docId)).Nodup
  ids : ∀ id, id ∈ fused.map (·.docId) ↔
    ∃ ranking ∈ rankings, weightOf weights ranking.1 ≠ 0 ∧ id ∈ ranking.2
  values : ∀ hit ∈ fused, hit = formula k weights rankings hit.docId
  order : fused.Pairwise Ahead

variable {k rankings}

theorem ordered_isFusion (hnames : (rankings.map (·.1)).Nodup)
    (hlists : ∀ ranking ∈ rankings, ranking.2.Nodup) :
    IsFusion k weights rankings (ordered (rankings.foldl (creditRanking k weights) [])) := by
  have hperm := ordered_perm (rankings.foldl (creditRanking k weights) [])
  have hnodup : ((rankings.foldl (creditRanking k weights) []).map (·.docId)).Nodup :=
    ids_foldl_nodup List.nodup_nil
  have hmem : ∀ hit, hit ∈ rankings.foldl (creditRanking k weights) [] ↔
      ranksOf weights rankings hit.docId ≠ [] ∧ formula k weights rankings hit.docId = hit := by
    intro hit
    rw [← lookup_eq_some_iff hnodup, lookup_foldl k weights hnames hlists]
    unfold entry
    split
    · next hnil => simp [hnil]
    · next hne => simp [hne, formula]
  constructor
  · exact (hperm.map (·.docId)).nodup_iff.mpr hnodup
  · intro id
    rw [(hperm.map (·.docId)).mem_iff, ← ranksOf_ne_nil_iff, List.mem_map]
    constructor
    · intro h
      obtain ⟨hit, hhit, hid⟩ := h
      exact hid ▸ ((hmem hit).mp hhit).1
    · intro hne
      exact ⟨formula k weights rankings id, (hmem _).mpr ⟨hne, rfl⟩, rfl⟩
  · intro hit hhit
    exact ((hmem hit).mp (hperm.mem_iff.mp hhit)).2.symm
  · exact ordered_ahead hnodup

end

/-- Equal as far as dictionaries are: up to the order of their items. -/
structure SameHit (a b : FusedHit ℚ) : Prop where
  docId : a.docId = b.docId
  score : a.score = b.score
  ranks : a.ranks.Perm b.ranks
  contributions : a.contributions.Perm b.contributions

theorem SameHit.ahead_iff {a a' b b' : FusedHit ℚ} (ha : SameHit a a') (hb : SameHit b b') :
    Ahead a b ↔ Ahead a' b' := by
  unfold Ahead FusedHit.retrieverCount
  rw [ha.score, hb.score, ha.docId, hb.docId, ha.ranks.length_eq, hb.ranks.length_eq]

section
variable {k : ℤ} {weights weights' : List (String × ℚ)} {rankings rankings' : List (String × List String)}
variable (hweights : ∀ retriever, weightOf weights' retriever = weightOf weights retriever)
variable (hrankings : rankings'.Perm rankings)
include hweights hrankings

theorem ranksOf_perm (id : String) :
    (ranksOf weights' rankings' id).Perm (ranksOf weights rankings id) := by
  have hrank : rankIn weights' id = rankIn weights id := by
    funext ranking
    unfold rankIn
    rw [hweights]
  unfold ranksOf
  rw [hrank]
  exact hrankings.filterMap _

theorem formula_same (id : String) :
    SameHit (formula k weights' rankings' id) (formula k weights rankings id) := by
  have hranks := ranksOf_perm hweights hrankings id
  have hshare : share k weights' = share k weights := by
    funext rank
    unfold share
    rw [hweights]
  refine ⟨rfl, ?_, hranks, ?_⟩
  · unfold formula hitWith
    rw [hshare]
    exact (hranks.map _).sum_eq
  · unfold formula hitWith
    rw [hshare]
    exact hranks.map _

theorem isFusion_same {fused fused' : List (FusedHit ℚ)} (h : IsFusion k weights rankings fused)
    (h' : IsFusion k weights' rankings' fused') : List.Forall₂ SameHit fused' fused := by
  have hvalues : fused = (fused.map (·.docId)).map (formula k weights rankings) := by
    rw [List.map_map]
    exact (List.map_id fused).symm.trans (List.map_congr_left h.values)
  have hvalues' : fused' = (fused'.map (·.docId)).map (formula k weights' rankings') := by
    rw [List.map_map]
    exact (List.map_id fused').symm.trans (List.map_congr_left h'.values)
  have hperm : (fused'.map (·.docId)).Perm (fused.map (·.docId)) := by
    apply (List.perm_ext_iff_of_nodup h'.once h.once).mpr
    intro id
    rw [h'.ids, h.ids]
    simp only [hweights, hrankings.mem_iff]
  have horder : (fused.map (·.docId)).Pairwise fun x y =>
      Ahead (formula k weights rankings x) (formula k weights rankings y) :=
    List.pairwise_map.mp (hvalues ▸ h.order)
  have horder' : (fused'.map (·.docId)).Pairwise fun x y =>
      Ahead (formula k weights rankings x) (formula k weights rankings y) := by
    have hpairs := List.pairwise_map.mp (hvalues' ▸ h'.order)
    apply hpairs.imp
    intro x y hahead
    exact ((formula_same hweights hrankings x).ahead_iff
      (formula_same hweights hrankings y)).mp hahead
  have hids : fused'.map (·.docId) = fused.map (·.docId) := by
    apply hperm.eq_of_pairwise _ horder' horder
    intro x y _ _ hahead hahead'
    rw [ahead_iff] at hahead hahead'
    exact absurd hahead (lt_asymm hahead')
  rw [hvalues', hvalues, hids, List.forall₂_map_left_iff, List.forall₂_map_right_iff]
  exact List.forall₂_same.mpr fun id _ => formula_same hweights hrankings id

end

/-- Fusion returns each id of a list that counts once, with the values of the formula and in its
    order; a limit cuts that list, and neither the order of the retrievers nor that of the weights
    changes it. -/
theorem fusion_equals_its_formula {k : ℤ} (hk : 1 ≤ k) {rankings : List (String × List String)}
    (hnames : (rankings.map (·.1)).Nodup) (hlists : ∀ ranking ∈ rankings, ranking.2.Nodup)
    {weights : List (String × ℚ)} (hweights : (weights.map (·.1)).Nodup) :
    ∃ fused, reciprocalRankFusion rankings k weights none = .ok fused ∧
      IsFusion k weights rankings fused ∧
      (∀ limit : ℤ, 0 ≤ limit →
        reciprocalRankFusion rankings k weights (some limit) = .ok (fused.take limit.toNat)) ∧
      ∀ rankings' weights', rankings'.Perm rankings → weights'.Perm weights →
        ∃ fused', reciprocalRankFusion rankings' k weights' none = .ok fused' ∧
          List.Forall₂ SameHit fused' fused := by
  have hfusion := ordered_isFusion (k := k) weights hnames hlists
  refine ⟨_, fusion_of_pos hk rankings weights none, hfusion, ?_, ?_⟩
  · intro limit hlimit
    rw [fusion_of_pos hk rankings weights (some limit)]
    exact congrArg _ (if_pos hlimit)
  · intro rankings' weights' hrankings hperm
    refine ⟨_, fusion_of_pos hk rankings' weights' none, ?_⟩
    have hsame : ∀ retriever, weightOf weights' retriever = weightOf weights retriever := by
      intro retriever
      unfold weightOf
      rw [Keyed.lookup_perm hperm hweights]
    apply isFusion_same hsame hrankings hfusion
    apply ordered_isFusion
    · exact (hrankings.map (·.1)).nodup_iff.mpr hnames
    · exact fun ranking hranking => hlists ranking (hrankings.mem_iff.mp hranking)

theorem two_retrievers_fuse : ∃ fused,
    reciprocalRankFusion [("dense", ["a", "b"]), ("lexical", ["b"])] 60 [("dense", (2 : ℚ))] none =
      .ok fused ∧
    IsFusion 60 [("dense", 2)] [("dense", ["a", "b"]), ("lexical", ["b"])] fused := by
  obtain ⟨fused, hfused, hfusion, -⟩ := fusion_equals_its_formula (k := 60) (by decide)
    (show ([("dense", ["a", "b"]), ("lexical", ["b"])].map (·.1)).Nodup by decide) (by decide)
    (show ([("dense", (2 : ℚ))].map (·.1)).Nodup by decide)
  exact ⟨fused, hfused, hfusion⟩

end Ragent.FusionFormula
