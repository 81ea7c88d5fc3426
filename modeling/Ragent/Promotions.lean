import Mathlib.Tactic.Linarith
import Ragent.FusionFormula

set_option autoImplicit false

/-!
# Documents that move up

A retriever that puts a document further up, or finds it where it did not, does not hurt it: no other
document gets ahead of it in the fused list.
-/
namespace Ragent.Promotions
open PyNumbers Fusion FusionFormula

/-- In the second list the document is at least as far up, and no other is further up. -/
structure Promotes (id : String) (docIds docIds' : List String) : Prop where
  up : id ∈ docIds → id ∈ docIds' ∧ docIds'.idxOf id ≤ docIds.idxOf id
  others : ∀ other ∈ docIds', other ≠ id → other ∈ docIds ∧ docIds.idxOf other ≤ docIds'.idxOf other

theorem promotes_of_passing {id : String} {front passed rest : List String} (hfront : id ∉ front) :
    Promotes id (front ++ passed ++ id :: rest) (front ++ id :: (passed ++ rest)) where
  up _ := by
    refine ⟨by simp, ?_⟩
    rw [List.append_assoc, List.idxOf_append_of_notMem hfront, List.idxOf_append_of_notMem hfront,
      List.idxOf_cons_self]
    omega
  others other hother hne := by
    refine ⟨?_, ?_⟩
    · simp only [List.mem_append, List.mem_cons] at hother ⊢
      tauto
    · by_cases hmem : other ∈ front
      · rw [List.append_assoc, List.idxOf_append_of_mem hmem, List.idxOf_append_of_mem hmem]
      · rw [List.append_assoc, List.idxOf_append_of_notMem hmem, List.idxOf_append_of_notMem hmem,
          List.idxOf_cons_ne _ (Ne.symm hne)]
        by_cases hmem' : other ∈ passed
        · rw [List.idxOf_append_of_mem hmem', List.idxOf_append_of_mem hmem']
          omega
        · rw [List.idxOf_append_of_notMem hmem', List.idxOf_append_of_notMem hmem',
            List.idxOf_cons_ne _ (Ne.symm hne)]
          omega

def PromotesIn (id : String) : List (String × List String) → List (String × List String) → Prop :=
  List.Forall₂ fun ranking ranking' => ranking'.1 = ranking.1 ∧ Promotes id ranking.2 ranking'.2

section
variable {k : ℤ} {weights : List (String × ℚ)} {rankings rankings' : List (String × List String)}
  {id other : String}

/-- A retriever that ranks the id no worse adds no less. -/
theorem share_mono (hk : 1 ≤ k) (hweights : ∀ retriever, 0 ≤ weightOf weights retriever)
    (retriever : String) {p q : ℕ} (hpq : p ≤ q) :
    share k weights (retriever, q) ≤ share k weights (retriever, p) := by
  have hk' : (1 : ℚ) ≤ k := by exact_mod_cast hk
  have hp : (0 : ℚ) ≤ p := Nat.cast_nonneg p
  have hpq' : (p : ℚ) ≤ q := by exact_mod_cast hpq
  exact div_le_div_of_nonneg_left (hweights retriever) (by simp only; linarith)
    (by simp only; linarith)

theorem share_nonneg (hk : 1 ≤ k) (hweights : ∀ retriever, 0 ≤ weightOf weights retriever)
    (rank : String × ℕ) : 0 ≤ share k weights rank := by
  have hk' : (1 : ℚ) ≤ k := by exact_mod_cast hk
  have hrank : (0 : ℚ) ≤ rank.2 := Nat.cast_nonneg rank.2
  exact div_nonneg (hweights rank.1) (by linarith)

theorem formula_mono (hk : 1 ≤ k) (hweights : ∀ retriever, 0 ≤ weightOf weights retriever)
    (h : List.Forall₂ (fun ranking ranking' : String × List String => ranking'.1 = ranking.1 ∧
      (id ∈ ranking.2 → id ∈ ranking'.2 ∧ ranking'.2.idxOf id ≤ ranking.2.idxOf id))
        rankings rankings') :
    (formula k weights rankings id).score ≤ (formula k weights rankings' id).score ∧
      (formula k weights rankings id).retrieverCount ≤
        (formula k weights rankings' id).retrieverCount := by
  unfold formula hitWith FusedHit.retrieverCount ranksOf
  simp only
  induction h with
  | nil => exact ⟨le_refl _, le_refl _⟩
  | @cons ranking ranking' rankings rankings' hrank _ ih =>
    obtain ⟨hname, hup⟩ := hrank
    by_cases hcounts : weightOf weights ranking.1 ≠ 0 ∧ id ∈ ranking.2
    · obtain ⟨hmem, hindex⟩ := hup hcounts.2
      have hrankIn : rankIn weights id ranking = some (ranking.1, ranking.2.idxOf id + 1) :=
        if_pos hcounts
      have hrankIn' : rankIn weights id ranking' = some (ranking.1, ranking'.2.idxOf id + 1) := by
        unfold rankIn
        rw [hname]
        exact if_pos ⟨hcounts.1, hmem⟩
      have hshare := share_mono hk hweights ranking.1 (Nat.succ_le_succ hindex)
      rw [List.filterMap_cons_some hrankIn, List.filterMap_cons_some hrankIn', List.map_cons,
        List.map_cons, List.sum_cons, List.sum_cons, List.length_cons, List.length_cons]
      exact ⟨add_le_add hshare ih.1, Nat.succ_le_succ ih.2⟩
    · rw [List.filterMap_cons_none (show rankIn weights id ranking = none from if_neg hcounts)]
      cases hrankIn' : rankIn weights id ranking' with
      | none =>
        rw [List.filterMap_cons_none hrankIn']
        exact ih
      | some rank =>
        rw [List.filterMap_cons_some hrankIn', List.map_cons, List.sum_cons, List.length_cons]
        have hshare := share_nonneg hk hweights rank
        exact ⟨by linarith [ih.1], by omega⟩

theorem ahead_of_promotes (hk : 1 ≤ k) (hweights : ∀ retriever, 0 ≤ weightOf weights retriever)
    (h : PromotesIn id rankings rankings') (hne : other ≠ id)
    (hahead : Ahead (formula k weights rankings id) (formula k weights rankings other)) :
    Ahead (formula k weights rankings' id) (formula k weights rankings' other) := by
  have hup := formula_mono hk hweights (h.imp fun _ _ hrank => ⟨hrank.1, hrank.2.up⟩)
  have hdown : (formula k weights rankings' other).score ≤ (formula k weights rankings other).score ∧
      (formula k weights rankings' other).retrieverCount ≤
        (formula k weights rankings other).retrieverCount :=
    formula_mono hk hweights (h.flip.imp fun _ _ hrank =>
      ⟨hrank.1.symm, fun hmem => hrank.2.others other hmem hne⟩)
  rcases hahead with hlt | ⟨heq, htie⟩
  · exact .inl (by linarith [hup.1, hdown.1])
  · rcases lt_or_eq_of_le (show (formula k weights rankings' other).score ≤
        (formula k weights rankings' id).score by linarith [hup.1, hdown.1]) with hlt | heq'
    · exact .inl hlt
    · refine .inr ⟨heq'.symm, ?_⟩
      rcases htie with hcount | ⟨hcount, hid⟩
      · exact .inl (by omega)
      · rcases Nat.lt_or_ge (formula k weights rankings' other).retrieverCount
          (formula k weights rankings' id).retrieverCount with hmore | hless
        · exact .inl hmore
        · exact .inr ⟨by omega, hid⟩

end

theorem mem_take_idxOf {β : Type} [DecidableEq β] {R : β → β → Prop} {l : List β} {a b : β}
    (hl : l.Nodup) (hsorted : l.Pairwise R) (hb : b ∈ l) (h : a ∈ l.take (l.idxOf b)) :
    a ∈ l ∧ a ≠ b ∧ R a b := by
  have hindex := List.idxOf_lt_length_iff.mpr hb
  obtain ⟨i, hi, rfl⟩ := List.mem_take_iff_getElem.mp h
  have hlt : i < l.idxOf b := by omega
  have hget : l[l.idxOf b] = b := List.getElem_idxOf hindex
  refine ⟨List.getElem_mem _, fun heq => ?_, ?_⟩
  · rw [← heq, hl.idxOf_getElem] at hlt
    exact absurd hlt (Nat.lt_irrefl i)
  · have hpair := List.pairwise_iff_getElem.mp hsorted i (l.idxOf b) (by omega) hindex hlt
    rwa [hget] at hpair

theorem idxOf_le_of_before {β : Type} [DecidableEq β] {R R' : β → β → Prop} {l l' : List β} {b : β}
    (hl' : l'.Nodup) (hsorted : l.Pairwise R) (hsorted' : l'.Pairwise R') (hb : b ∈ l) (hb' : b ∈ l') (hkept : ∀ a ∈ l', a ≠ b → R' a b → a ∈ l ∧ ¬ R b a) :
    l'.idxOf b ≤ l.idxOf b := by
  have hindex := List.idxOf_lt_length_iff.mpr hb
  have hindex' := List.idxOf_lt_length_iff.mpr hb'
  have hsubset : l'.take (l'.idxOf b) ⊆ l.take (l.idxOf b) := by
    intro a ha
    obtain ⟨hmem', hne, hbefore⟩ := mem_take_idxOf hl' hsorted' hb' ha
    obtain ⟨hmem, hnot⟩ := hkept a hmem' hne hbefore
    have ha' := List.idxOf_lt_length_iff.mpr hmem
    have hget : l[l.idxOf a] = a := List.getElem_idxOf ha'
    have hget' : l[l.idxOf b] = b := List.getElem_idxOf hindex
    refine List.mem_take_iff_getElem.mpr ⟨l.idxOf a, ?_, hget⟩
    rcases Nat.lt_trichotomy (l.idxOf a) (l.idxOf b) with hlt | heq | hgt
    · omega
    · simp only [heq] at hget
      exact absurd (hget.symm.trans hget') hne
    · have hpair := List.pairwise_iff_getElem.mp hsorted _ _ hindex ha' hgt
      rw [hget, hget'] at hpair
      exact absurd hpair hnot
  have hlength := (List.subperm_of_subset (hl'.sublist (List.take_sublist _ l')) hsubset).length_le
  rw [List.length_take, List.length_take] at hlength
  omega

section
variable {k : ℤ} {weights : List (String × ℚ)} {rankings rankings' : List (String × List String)}
  {id : String}

theorem ids_pairwise {fused : List (FusedHit ℚ)} (h : IsFusion k weights rankings fused) :
    (fused.map (·.docId)).Pairwise fun x y =>
      Ahead (formula k weights rankings x) (formula k weights rankings y) := by
  rw [List.pairwise_map]
  apply h.order.imp_of_mem
  intro a b ha hb hahead
  rwa [← h.values a ha, ← h.values b hb]

theorem exists_of_forall₂ {β γ : Type} {R : β → γ → Prop} {l : List β} {l' : List γ}
    (h : List.Forall₂ R l l') {b : β} (hb : b ∈ l) : ∃ c ∈ l', R b c := by
  induction h with
  | nil => cases hb
  | cons hrel _ ih =>
    rcases List.mem_cons.mp hb with rfl | hb
    · exact ⟨_, List.mem_cons_self, hrel⟩
    · obtain ⟨c, hc, hrel'⟩ := ih hb
      exact ⟨c, List.mem_cons_of_mem _ hc, hrel'⟩

/-- A document that some retrievers put further up, or find where they did not, while the others stay
    as they are or fall back, is in the fused list if it was, and no further down. -/
theorem promotion_never_lowers (hk : 1 ≤ k) (hnames : (rankings.map (·.1)).Nodup)
    (hlists : ∀ ranking ∈ rankings, ranking.2.Nodup)
    (hlists' : ∀ ranking ∈ rankings', ranking.2.Nodup)
    (hweights : ∀ retriever, 0 ≤ weightOf weights retriever)
    (hpromotes : PromotesIn id rankings rankings') :
    ∃ fused fused', reciprocalRankFusion rankings k weights none = .ok fused ∧
      reciprocalRankFusion rankings' k weights none = .ok fused' ∧
      (id ∈ fused.map (·.docId) → id ∈ fused'.map (·.docId) ∧
        (fused'.map (·.docId)).idxOf id ≤ (fused.map (·.docId)).idxOf id) := by
  have hnames' : (rankings'.map (·.1)).Nodup := by
    have hsame : rankings'.map (·.1) = rankings.map (·.1) := by
      clear hnames hlists hlists'
      induction hpromotes with
      | nil => rfl
      | cons hrank _ ih => rw [List.map_cons, List.map_cons, hrank.1, ih]
    rwa [hsame]
  have hfusion := ordered_isFusion (k := k) weights hnames hlists
  have hfusion' := ordered_isFusion (k := k) weights hnames' hlists'
  refine ⟨_, _, fusion_of_pos hk rankings weights none, fusion_of_pos hk rankings' weights none,
    fun hid => ?_⟩
  have hid' : id ∈ (ordered (rankings'.foldl (creditRanking k weights) [])).map (·.docId) := by
    obtain ⟨ranking, hmem, hweight, hranked⟩ := (hfusion.ids id).mp hid
    obtain ⟨ranking', hmem', hname, hup⟩ := exists_of_forall₂ hpromotes hmem
    exact (hfusion'.ids id).mpr ⟨ranking', hmem', hname ▸ hweight, (hup.up hranked).1⟩
  refine ⟨hid', idxOf_le_of_before hfusion'.once (ids_pairwise hfusion)
    (ids_pairwise hfusion') hid hid' fun other hother hne hahead => ⟨?_, ?_⟩⟩
  · obtain ⟨ranking', hmem', hweight, hranked⟩ := (hfusion'.ids other).mp hother
    obtain ⟨ranking, hmem, hname, hup⟩ := exists_of_forall₂ hpromotes.flip hmem'
    exact (hfusion.ids other).mpr ⟨ranking, hmem, hname ▸ hweight, (hup.others other hranked hne).1⟩
  · intro hbehind
    have hstill := ahead_of_promotes hk hweights hpromotes hne hbehind
    rw [ahead_iff] at hahead hstill
    exact lt_asymm hahead hstill

end

theorem b_does_not_fall :
    ∃ fused fused',
      reciprocalRankFusion [("dense", ["a", "b"]), ("lexical", ["a", "b"])] 60
        ([] : List (String × ℚ)) none = .ok fused ∧
      reciprocalRankFusion [("dense", ["a", "b"]), ("lexical", ["b", "a"])] 60
        ([] : List (String × ℚ)) none = .ok fused' ∧
      ("b" ∈ fused.map (·.docId) → "b" ∈ fused'.map (·.docId) ∧
        (fused'.map (·.docId)).idxOf "b" ≤ (fused.map (·.docId)).idxOf "b") := by
  apply promotion_never_lowers (by decide) (by decide) (by decide) (by decide)
  · intro retriever
    exact zero_le_one
  · refine .cons ⟨rfl, ?_⟩ (.cons ⟨rfl, ?_⟩ .nil)
    · exact ⟨fun h => ⟨h, Nat.le_refl _⟩, fun other h _ => ⟨h, Nat.le_refl _⟩⟩
    · have hpasses : Promotes "b" ([] ++ ["a"] ++ "b" :: []) ([] ++ "b" :: (["a"] ++ [])) :=
        promotes_of_passing List.not_mem_nil
      exact hpasses

end Ragent.Promotions
