import Mathlib.Tactic.Linarith
import Ragent.FusionFormula
import Ragent.HybridSearch

set_option autoImplicit false

/-!
# Hits both retrievers agree on

Two shares of lists that are not longer than `k + 2` weigh at least as much as the best single
share, and a tie goes to the hit with more retrievers.
-/
namespace Ragent.Agreement
open PyNumbers Fusion FusionFormula HybridSearch

section
variable {k : ℤ} {weights : List (String × ℚ)} {first second : String} {xs ys : List String}

theorem share_le {retriever : String} {w : ℚ} (hk : 1 ≤ k) (hw : 0 ≤ w)
    (hweight : weightOf weights retriever = w) {position : ℕ} (hposition : 1 ≤ position) :
    share k weights (retriever, position) ≤ w / (k + 1) := by
  have hk' : (1 : ℚ) ≤ k := by exact_mod_cast hk
  have hposition' : (1 : ℚ) ≤ position := by exact_mod_cast hposition
  unfold share
  rw [hweight]
  exact div_le_div_of_nonneg_left hw (by linarith) (by simpa using hposition')

theorem half_le_share {retriever : String} {w : ℚ} (hk : 1 ≤ k) (hw : 0 ≤ w)
    (hweight : weightOf weights retriever = w) {position : ℕ} (hposition : (position : ℤ) ≤ k + 2) :
    w / (k + 1) / 2 ≤ share k weights (retriever, position) := by
  have hk' : (1 : ℚ) ≤ k := by exact_mod_cast hk
  have hposition' : (position : ℚ) ≤ k + 2 := by exact_mod_cast hposition
  have hnonneg : (0 : ℚ) ≤ position := Nat.cast_nonneg position
  unfold share
  rw [hweight, div_div]
  exact div_le_div_of_nonneg_left hw (by linarith) (by simp only; linarith)

/-- The sum of two shares is at least any third one; where it is no more, two retrievers count more
    than one. -/
theorem ahead_of_shares {id other : String} {w : ℚ} {p q : ℕ} {rank : String × ℕ} (hk : 1 ≤ k)
    (hw : 0 ≤ w) (hfirst : weightOf weights first = w) (hsecond : weightOf weights second = w)
    (hrank : weightOf weights rank.1 = w) (hp : (p : ℤ) ≤ k + 2) (hq : (q : ℤ) ≤ k + 2)
    (hposition : 1 ≤ rank.2) :
    Ahead (hitWith k weights id [(first, p), (second, q)]) (hitWith k weights other [rank]) := by
  have hsingle : share k weights rank ≤ w / (k + 1) := share_le hk hw hrank hposition
  have hp' := half_le_share hk hw hfirst hp
  have hq' := half_le_share hk hw hsecond hq
  have hscore : (hitWith k weights other [rank]).score ≤
      (hitWith k weights id [(first, p), (second, q)]).score := by
    simp only [hitWith, List.map_cons, List.map_nil, List.sum_cons, List.sum_nil, add_zero]
    linarith
  cases lt_or_eq_of_le hscore with
  | inl hlt => exact .inl hlt
  | inr heq => exact .inr ⟨heq.symm, .inl (by simp [FusedHit.retrieverCount, hitWith])⟩

theorem ranksOf_pair (id : String) : ranksOf weights [(first, xs), (second, ys)] id =
    (rankIn weights id (first, xs)).toList ++ (rankIn weights id (second, ys)).toList := by
  unfold ranksOf
  cases hx : rankIn weights id (first, xs) with
  | none => cases hy : rankIn weights id (second, ys) <;> simp [hx, hy]
  | some rank => cases hy : rankIn weights id (second, ys) <;> simp [hx, hy]

theorem rankIn_of_mem {id retriever : String} {docIds : List String}
    (hweight : weightOf weights retriever ≠ 0) (h : id ∈ docIds) :
    rankIn weights id (retriever, docIds) = some (retriever, docIds.idxOf id + 1) :=
  if_pos ⟨hweight, h⟩

theorem rankIn_of_not_mem {id retriever : String} {docIds : List String} (h : id ∉ docIds) :
    rankIn weights id (retriever, docIds) = none :=
  if_neg fun hrank => h hrank.2

theorem position_le {id : String} {docIds : List String} (h : id ∈ docIds)
    (hlength : (docIds.length : ℤ) ≤ k + 2) : ((docIds.idxOf id + 1 : ℕ) : ℤ) ≤ k + 2 := by
  have hindex := List.idxOf_lt_length_iff.mpr h
  omega

theorem agreed_ahead {w : ℚ} (hk : 1 ≤ k) (hw : 0 < w) (hfirst : weightOf weights first = w)
    (hsecond : weightOf weights second = w) (hxs : (xs.length : ℤ) ≤ k + 2)
    (hys : (ys.length : ℤ) ≤ k + 2) {id other : String} (hx : id ∈ xs) (hy : id ∈ ys)
    (hother : other ∈ xs ∨ other ∈ ys) (hsingle : other ∉ xs ∨ other ∉ ys) :
    Ahead (formula k weights [(first, xs), (second, ys)] id)
      (formula k weights [(first, xs), (second, ys)] other) := by
  have hfirst0 : weightOf weights first ≠ 0 := by rw [hfirst]; exact hw.ne'
  have hsecond0 : weightOf weights second ≠ 0 := by rw [hsecond]; exact hw.ne'
  unfold formula
  rw [ranksOf_pair id, rankIn_of_mem hfirst0 hx, rankIn_of_mem hsecond0 hy, ranksOf_pair other]
  by_cases hmem : other ∈ xs
  · have hnot : other ∉ ys := hsingle.resolve_left (not_not_intro hmem)
    rw [rankIn_of_mem hfirst0 hmem, rankIn_of_not_mem hnot]
    exact ahead_of_shares hk hw.le hfirst hsecond hfirst (position_le hx hxs) (position_le hy hys)
      (Nat.le_add_left 1 _)
  · rw [rankIn_of_not_mem hmem, rankIn_of_mem hsecond0 (hother.resolve_left hmem)]
    exact ahead_of_shares hk hw.le hfirst hsecond hsecond (position_le hx hxs) (position_le hy hys)
      (Nat.le_add_left 1 _)

end

theorem pair_sublist_take {α : Type} {R : α → α → Prop} (hasymm : ∀ a b, R a b → ¬ R b a)
    {items : List α} (hsorted : items.Pairwise R) {x y : α} {m : ℕ} (hx : x ∈ items)
    (hy : y ∈ items.take m) (hxy : R x y) : [x, y].Sublist (items.take m) := by
  induction items generalizing m with
  | nil => cases hx
  | cons a items ih =>
    cases m with
    | zero => cases hy
    | succ m =>
      obtain ⟨hfirst, hsorted⟩ := List.pairwise_cons.mp hsorted
      rw [List.take_succ_cons] at hy ⊢
      cases List.mem_cons.mp hx with
      | inl hxa =>
        subst hxa
        cases List.mem_cons.mp hy with
        | inl hyx => exact absurd (hyx ▸ hxy) (hasymm _ _ (hyx ▸ hxy))
        | inr hy => exact List.Sublist.cons_cons x (List.singleton_sublist.mpr hy)
      | inr hx =>
        cases List.mem_cons.mp hy with
        | inl hya => exact absurd hxy (hasymm _ _ (hya ▸ hfirst x hx))
        | inr hy => exact (ih hsorted hx hy).cons a

def AgreedFirst (xs ys ids : List String) : Prop :=
  ∀ id ∈ xs, id ∈ ys → ∀ other ∈ ids, other ∉ xs ∨ other ∉ ys → [id, other].Sublist ids

theorem upTo_eq_take {β : Type} (limit : ℤ) (items : List β) :
    ∃ m, upTo limit items = items.take m := by
  unfold upTo
  by_cases h : 0 ≤ limit
  · exact ⟨limit.toNat, if_pos h⟩
  · exact ⟨items.length - limit.natAbs, if_neg h⟩

/-- The list is in order, and so is each cut of it. -/
theorem agreedFirst_of_fusion {k : ℤ} {weights : List (String × ℚ)} {first second : String}
    {xs ys : List String} {w : ℚ} (hk : 1 ≤ k) (hne : first ≠ second) (hxs : xs.Nodup)
    (hys : ys.Nodup) (hxs' : (xs.length : ℤ) ≤ k + 2) (hys' : (ys.length : ℤ) ≤ k + 2)
    (hfirst : weightOf weights first = w) (hsecond : weightOf weights second = w) (hw : 0 ≤ w)
    (limit : Option ℤ) :
    ∃ fused, reciprocalRankFusion [(first, xs), (second, ys)] k weights limit = .ok fused ∧
      AgreedFirst xs ys (fused.map (·.docId)) := by
  have hnames : ([(first, xs), (second, ys)].map (·.1)).Nodup := by simp [hne]
  have hlists : ∀ ranking ∈ [(first, xs), (second, ys)], ranking.2.Nodup := by simp [hxs, hys]
  have hfusion := ordered_isFusion (k := k) weights hnames hlists
  generalize hall : ordered ([(first, xs), (second, ys)].foldl (creditRanking k weights) []) = all
    at hfusion
  have hcut : ∃ m, reciprocalRankFusion [(first, xs), (second, ys)] k weights limit =
      .ok (all.take m) := by
    rw [fusion_of_pos hk, hall]
    cases limit with
    | none => exact ⟨all.length, by rw [List.take_length]⟩
    | some n =>
      obtain ⟨m, hm⟩ := upTo_eq_take n all
      exact ⟨m, congrArg _ hm⟩
  obtain ⟨m, hm⟩ := hcut
  refine ⟨all.take m, hm, ?_⟩
  intro id hx hy other hother hsingle
  obtain ⟨hit, hhit, hid⟩ := List.mem_map.mp hother
  subst hid
  have hmem : hit ∈ all := List.mem_of_mem_take hhit
  have hids : ∀ id, id ∈ all.map (·.docId) ↔ w ≠ 0 ∧ (id ∈ xs ∨ id ∈ ys) := by
    intro id
    rw [hfusion.ids]
    simp [hfirst, hsecond, and_or_left]
  have hfound := (hids hit.docId).mp (List.mem_map_of_mem hmem)
  have hpos : 0 < w := lt_of_le_of_ne hw hfound.1.symm
  obtain ⟨agreed, hagreed, hid⟩ := List.mem_map.mp ((hids id).mpr ⟨hpos.ne', .inl hx⟩)
  subst hid
  have hahead := agreed_ahead hk hpos hfirst hsecond hxs' hys' hx hy hfound.2 hsingle
  rw [← hfusion.values agreed hagreed, ← hfusion.values hit hmem] at hahead
  have hasymm : ∀ a b, Ahead a b → ¬ Ahead b a := by
    intro a b h h'
    rw [ahead_iff] at h h'
    exact lt_asymm h h'
  exact (pair_sublist_take hasymm hfusion.order hagreed hhit hahead).map (·.docId)

/-- Both services return at most `limit` hits, and none twice: a point of a collection and a row of
    the table has an id of its own. -/
structure Limited {F : Type} (sv : Services F) : Prop where
  points_limit : ∀ {points vector limit conditions hits},
    sv.queryPoints points vector limit conditions = some hits → hits.length ≤ limit.toNat
  points_once : ∀ {points vector limit conditions hits}, (points.map (·.id)).Nodup →
    sv.queryPoints points vector limit conditions = some hits → (hits.map (·.1)).Nodup
  rows_limit : ∀ {rows query limit hits},
    sv.rankChunks rows query limit = some hits → hits.length ≤ limit.toNat
  rows_once : ∀ {rows query limit hits}, (rows.map (·.id)).Nodup →
    sv.rankChunks rows query limit = some hits → (hits.map (·.1)).Nodup

section
variable {sv : Services ℚ} {settings : Settings} {corpus : Corpus ℚ} {r : Request} {strategy : String}
variable (laws : Limited sv)
include laws

variable (settings r) in
theorem denseIds_limited (hpoints : ((corpus.points strategy).map (·.id)).Nodup) :
    (denseIds sv settings corpus r strategy).Nodup ∧
      (denseIds sv settings corpus r strategy).length ≤ (topK settings r).toNat := by
  unfold denseIds dense
  cases hvector : sv.embedQuery r.query with
  | none => exact ⟨List.nodup_nil, Nat.zero_le _⟩
  | some vector =>
    dsimp only
    cases hhits : sv.queryPoints (corpus.points strategy) vector (topK settings r)
        (buildFilter (payloadFilters r)) with
    | none => exact ⟨List.nodup_nil, Nat.zero_le _⟩
    | some hits => exact ⟨laws.points_once hpoints hhits, by simpa using laws.points_limit hhits⟩

variable (settings corpus r strategy) in
theorem lexicalIds_limited : (lexicalIds sv settings corpus r strategy).Nodup ∧
    (lexicalIds sv settings corpus r strategy).length ≤ (topK settings r).toNat := by
  unfold lexicalIds lexical
  cases hhits : sv.rankChunks (selected sv corpus r.query strategy r.tenantId) r.query
      (topK settings r) with
  | none => exact ⟨List.nodup_nil, Nat.zero_le _⟩
  | some hits =>
    have hrows : ((selected sv corpus r.query strategy r.tenantId).map (·.id)).Nodup :=
      corpus.chunks_nodup.sublist (List.filter_sublist.map _)
    exact ⟨laws.rows_once hrows hhits, by simpa using laws.rows_limit hhits⟩

theorem fusedHits_agreed (hpoints : ((corpus.points strategy).map (·.id)).Nodup)
    (hk : 1 ≤ settings.rrfK) (hdepth : topK settings r ≤ settings.rrfK + 2) :
    ∃ hits, fusedHits sv settings corpus r strategy = .ok hits ∧
      AgreedFirst (denseIds sv settings corpus r strategy)
        (lexicalIds sv settings corpus r strategy) (hits.map (·.docId)) := by
  unfold fusedHits
  by_cases hnone : denseIds sv settings corpus r strategy = [] ∧
      lexicalIds sv settings corpus r strategy = []
  · refine ⟨[], if_pos hnone, ?_⟩
    intro id _ _ other hother
    cases hother
  · have hdense := denseIds_limited settings r laws hpoints
    have hlexical := lexicalIds_limited settings corpus r strategy laws
    have hweight : ∀ retriever, weightOf ([] : List (String × ℚ)) retriever = 1 := fun _ => rfl
    obtain ⟨fused, hfused, hagreed⟩ := agreedFirst_of_fusion hk
      (show "dense" ≠ "lexical" by decide) hdense.1 hlexical.1 (by omega) (by omega)
      (hweight "dense") (hweight "lexical") zero_le_one (some settings.rerankTopN)
    refine ⟨fused, ?_, hagreed⟩
    simp only [if_neg hnone, hfused]

omit laws in
theorem chunkIds_passages (hits : List (FusedHit ℚ)) :
    (hits.filterMap (passageOf corpus)).map (·.chunkId) =
      (hits.map (·.docId)).filter fun id => (citationTarget corpus id).isSome := by
  induction hits with
  | nil => rfl
  | cons hit hits ih =>
    cases htarget : citationTarget corpus hit.docId with
    | none => simp [passageOf, htarget, ih]
    | some target => simp [passageOf, htarget, ih]

theorem passages_agreed (hpoints : ((corpus.points strategy).map (·.id)).Nodup)
    (hk : 1 ≤ settings.rrfK) (hdepth : topK settings r ≤ settings.rrfK + 2)
    (hstrategy : strategyOf settings r = .ok strategy) :
    ∃ passages, hybridSearch sv settings corpus r = .ok passages ∧
      ∀ id ∈ denseIds sv settings corpus r strategy,
        id ∈ lexicalIds sv settings corpus r strategy → id ∈ corpus.db.chunks.map (·.id) →
        ∀ p ∈ passages, (p.chunkId ∉ denseIds sv settings corpus r strategy ∨
            p.chunkId ∉ lexicalIds sv settings corpus r strategy) →
          [id, p.chunkId].Sublist (passages.map (·.chunkId)) := by
  obtain ⟨hits, hhits, hagreed⟩ := fusedHits_agreed laws hpoints hk hdepth
  refine ⟨hits.filterMap (passageOf corpus), ?_, ?_⟩
  · unfold hybridSearch
    rw [hstrategy]
    exact (congrArg (· >>= fun hits => pure (hits.filterMap (passageOf corpus))) hhits)
  · intro id hdense hlexical hchunk p hp hsingle
    have htarget : (citationTarget corpus id).isSome := by
      obtain ⟨row, hrow, hid⟩ := List.mem_map.mp hchunk
      obtain ⟨p', hp', -⟩ := passageOf_chunk hrow
        (show row.id = ({ docId := id, score := 0 } : FusedHit ℚ).docId from hid)
      obtain ⟨target, htarget, -⟩ := Option.map_eq_some_iff.mp hp'
      exact Option.isSome_iff_exists.mpr ⟨target, htarget⟩
    have hfound : p.chunkId ∈ (hits.filterMap (passageOf corpus)).map (·.chunkId) :=
      List.mem_map_of_mem hp
    rw [chunkIds_passages, List.mem_filter] at hfound
    have hpair := (hagreed id hdense hlexical p.chunkId hfound.1 hsingle).filter
      fun id => (citationTarget corpus id).isSome
    rw [chunkIds_passages]
    simpa [htarget, hfound.2] using hpair

end

/-- With equal weights that are not negative and lists of at most `k + 2` ids, what both retrievers
    found goes before what only one found, in the fused list and in every cut of it; so it does in
    the passages of a search that is no deeper than that. -/
theorem agreement_wins :
    (∀ (k : ℤ) (weights : List (String × ℚ)) (first second : String) (xs ys : List String),
      1 ≤ k → first ≠ second → xs.Nodup → ys.Nodup → (xs.length : ℤ) ≤ k + 2 →
      (ys.length : ℤ) ≤ k + 2 → weightOf weights first = weightOf weights second →
      0 ≤ weightOf weights second → ∀ limit,
      ∃ fused, reciprocalRankFusion [(first, xs), (second, ys)] k weights limit = .ok fused ∧
        AgreedFirst xs ys (fused.map (·.docId))) ∧
    ∀ (sv : Services ℚ) (settings : Settings) (corpus : Corpus ℚ) (r : Request) (strategy : String),
      Limited sv → ((corpus.points strategy).map (·.id)).Nodup → 1 ≤ settings.rrfK →
      topK settings r ≤ settings.rrfK + 2 → strategyOf settings r = .ok strategy →
      ∃ passages, hybridSearch sv settings corpus r = .ok passages ∧
        ∀ id ∈ denseIds sv settings corpus r strategy,
          id ∈ lexicalIds sv settings corpus r strategy → id ∈ corpus.db.chunks.map (·.id) →
          ∀ p ∈ passages, (p.chunkId ∉ denseIds sv settings corpus r strategy ∨
              p.chunkId ∉ lexicalIds sv settings corpus r strategy) →
            [id, p.chunkId].Sublist (passages.map (·.chunkId)) := by
  constructor
  · intro k weights first second xs ys hk hne hxs hys hxs' hys' hequal hnonneg limit
    exact agreedFirst_of_fusion hk hne hxs hys hxs' hys' hequal rfl hnonneg limit
  · intro sv settings corpus r strategy laws hpoints hk hdepth hstrategy
    exact passages_agreed laws hpoints hk hdepth hstrategy

theorem fruitServices_limited (embedder : Bool) : Limited (fruitServices embedder) where
  points_limit := by
    intro points vector limit conditions hits h
    cases h
    rw [List.length_map]
    exact List.length_take_le _ _
  points_once := by
    intro points vector limit conditions hits hpoints h
    cases h
    rw [List.map_map]
    exact hpoints.sublist (((List.take_sublist _ _).trans List.filter_sublist).map _)
  rows_limit := by
    intro rows query limit hits h
    cases h
    rw [List.length_map]
    exact List.length_take_le _ _
  rows_once := by
    intro rows query limit hits hrows h
    cases h
    rw [List.map_map]
    exact hrows.sublist ((List.take_sublist _ _).map _)

theorem pears_agree :
    (∃ fused, reciprocalRankFusion [("dense", ["c1", "c2"]), ("lexical", ["c2"])] 60
        ([] : List (String × ℚ)) (some 8) = .ok fused ∧
      AgreedFirst ["c1", "c2"] ["c2"] (fused.map (·.docId))) ∧
    ∃ passages, hybridSearch (fruitServices true) {} fruits { query := "Pears" } = .ok passages ∧
      ∀ p ∈ passages, p.chunkId = "c1" → ["c2", p.chunkId].Sublist (passages.map (·.chunkId)) := by
  constructor
  · exact agreement_wins.1 60 [] "dense" "lexical" ["c1", "c2"] ["c2"] (by decide) (by decide)
      (by decide) (by decide) (by decide) (by decide) rfl (by decide) (some 8)
  · obtain ⟨passages, hpassages, hagreed⟩ := agreement_wins.2 (fruitServices true) {} fruits
      { query := "Pears" } "layout" (fruitServices_limited true) (by decide) (by decide) (by decide)
      rfl
    refine ⟨passages, hpassages, ?_⟩
    intro p hp hid
    exact hagreed "c2" (by decide) (by decide) (by decide) p hp (by rw [hid]; decide)

/-- Under equal negative weights agreement counts against a hit. -/
theorem negative_weights_punish_agreement :
    ¬ ∀ (k : ℤ) (weights : List (String × ℚ)) (first second : String) (xs ys : List String),
      1 ≤ k → first ≠ second → xs.Nodup → ys.Nodup → (xs.length : ℤ) ≤ k + 2 →
      (ys.length : ℤ) ≤ k + 2 → weightOf weights first = weightOf weights second →
      ∃ fused, reciprocalRankFusion [(first, xs), (second, ys)] k weights none = .ok fused ∧
        AgreedFirst xs ys (fused.map (·.docId)) := by
  intro hall
  obtain ⟨fused, hfused, hagreed⟩ := hall 60 [("dense", -1), ("lexical", -1)] "dense" "lexical"
    ["c1", "c2"] ["c1"] (by decide) (by decide) (by decide) (by decide) (by decide) (by decide) rfl
  have hids : (reciprocalRankFusion [("dense", ["c1", "c2"]), ("lexical", ["c1"])] 60
      [("dense", (-1 : ℚ)), ("lexical", -1)] none).map (fun hits => hits.map (·.docId)) =
        .ok ["c2", "c1"] := by decide +kernel
  rw [hfused] at hids
  have hids' : fused.map (·.docId) = ["c2", "c1"] := Except.ok.inj hids
  have hpair := hagreed "c1" (by decide) (by decide) "c2" (by simp [hids']) (by decide)
  rw [hids'] at hpair
  exact absurd hpair (by decide)

end Ragent.Agreement
