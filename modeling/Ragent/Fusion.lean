import Mathlib.Data.List.Sort
import Ragent.PyNumbers

set_option autoImplicit false

/-!
# Reciprocal rank fusion

`ragent/retrieval/fusion.py`. A dictionary is a list of items in the order of insertion.
-/
namespace Ragent.Fusion
open PyNumbers

structure FusedHit (F : Type) where
  docId : String
  score : F
  ranks : List (String × ℕ) := []
  contributions : List (String × F) := []

def FusedHit.retrieverCount {F : Type} (h : FusedHit F) : ℕ := h.ranks.length

/-- `items[key] = value` -/
def setItem {β : Type} (key : String) (value : β) : List (String × β) → List (String × β)
  | [] => [(key, value)]
  | item :: items => if item.1 = key then (key, value) :: items else item :: setItem key value items

/-- `items[:limit]` -/
def upTo {β : Type} (limit : ℤ) (items : List β) : List β :=
  if 0 ≤ limit then items.take limit.toNat else items.take (items.length - limit.natAbs)

section
variable {F : Type} [PyFloat F]

def credit (retriever docId : String) (position : ℕ) (contribution : F) :
    List (FusedHit F) → List (FusedHit F)
  | [] =>
    [{ docId := docId
       score := PyFloat.add (PyFloat.ofInt 0) contribution
       ranks := [(retriever, position)]
       contributions := [(retriever, contribution)] }]
  | hit :: hits =>
    if hit.docId = docId then
      { hit with
        score := PyFloat.add hit.score contribution
        ranks := setItem retriever position hit.ranks
        contributions := setItem retriever contribution hit.contributions } :: hits
    else hit :: credit retriever docId position contribution hits

/-- One retriever's list, from a position on. Only the best rank it gave an id counts. -/
def creditAll (k : ℤ) (retriever : String) (weight : F) :
    List String → ℕ → List String → List (FusedHit F) → List (FusedHit F)
  | [], _, _, hits => hits
  | docId :: docIds, position, seen, hits =>
    if docId ∈ seen then creditAll k retriever weight docIds (position + 1) seen hits
    else creditAll k retriever weight docIds (position + 1) (docId :: seen)
      (credit retriever docId position (PyFloat.div weight (PyFloat.ofInt (k + position))) hits)

def weightOf (weights : List (String × F)) (retriever : String) : F :=
  (weights.lookup retriever).getD (PyFloat.ofInt 1)

def creditRanking (k : ℤ) (weights : List (String × F)) (hits : List (FusedHit F))
    (ranking : String × List String) : List (FusedHit F) :=
  if PyFloat.isZero (weightOf weights ranking.1) then hits
  else creditAll k ranking.1 (weightOf weights ranking.1) ranking.2 1 [] hits

/-- `<` on `(-score, -retriever_count, doc_id)` -/
def before (a b : FusedHit F) : Bool :=
  if PyFloat.lt b.score a.score then true
  else if PyFloat.lt a.score b.score then false
  else if a.retrieverCount ≠ b.retrieverCount then b.retrieverCount < a.retrieverCount
  else a.docId < b.docId

def ordered (hits : List (FusedHit F)) : List (FusedHit F) :=
  hits.insertionSort fun a b => before b a = false

/-- The error is the text of a `ValueError`. -/
def reciprocalRankFusion (rankings : List (String × List String)) (k : ℤ)
    (weights : List (String × F)) (limit : Option ℤ) : Except String (List (FusedHit F)) :=
  if k ≤ 0 then .error ("k must be positive, got " ++ k.repr)
  else
    let hits := rankings.foldl (creditRanking k weights) []
    match limit with
    | some n => .ok (upTo n (ordered hits))
    | none => .ok (ordered hits)

variable {hits : List (FusedHit F)}

theorem mem_ids_credit {retriever docId id : String} {position : ℕ} {contribution : F}
    (h : id ∈ (credit retriever docId position contribution hits).map (·.docId)) :
    id = docId ∨ id ∈ hits.map (·.docId) := by
  induction hits with
  | nil => simpa [credit] using h
  | cons hit hits ih =>
    unfold credit at h
    by_cases hsame : hit.docId = docId
    · rw [if_pos hsame] at h
      exact .inr h
    · rw [if_neg hsame, List.map_cons, List.mem_cons] at h
      rw [List.map_cons, List.mem_cons]
      obtain rfl | h := h
      · exact .inr (.inl rfl)
      · exact (ih h).imp_right .inr

theorem mem_ids_creditAll {k : ℤ} {retriever id : String} {weight : F} {docIds seen : List String}
    {position : ℕ}
    (h : id ∈ (creditAll k retriever weight docIds position seen hits).map (·.docId)) :
    id ∈ docIds ∨ id ∈ hits.map (·.docId) := by
  induction docIds generalizing position seen hits with
  | nil => exact .inr h
  | cons docId docIds ih =>
    unfold creditAll at h
    by_cases hseen : docId ∈ seen
    · rw [if_pos hseen] at h
      exact (ih h).imp_left (List.mem_cons_of_mem docId)
    · rw [if_neg hseen] at h
      obtain h | h := ih h
      · exact .inl (List.mem_cons_of_mem docId h)
      · obtain rfl | h := mem_ids_credit h
        · exact .inl List.mem_cons_self
        · exact .inr h

theorem ids_credit_nodup {retriever docId : String} {position : ℕ} {contribution : F}
    (h : (hits.map (·.docId)).Nodup) :
    ((credit retriever docId position contribution hits).map (·.docId)).Nodup := by
  induction hits with
  | nil => exact List.nodup_singleton docId
  | cons hit hits ih =>
    unfold credit
    by_cases hsame : hit.docId = docId
    · rw [if_pos hsame]
      exact h
    · rw [if_neg hsame]
      rw [List.map_cons, List.nodup_cons] at h ⊢
      refine ⟨fun hmem => ?_, ih h.2⟩
      obtain heq | hmem := mem_ids_credit hmem
      · exact hsame heq
      · exact h.1 hmem

theorem ids_creditAll_nodup {k : ℤ} {retriever : String} {weight : F} {docIds seen : List String}
    {position : ℕ} (h : (hits.map (·.docId)).Nodup) :
    ((creditAll k retriever weight docIds position seen hits).map (·.docId)).Nodup := by
  induction docIds generalizing position seen hits with
  | nil => exact h
  | cons docId docIds ih =>
    unfold creditAll
    by_cases hseen : docId ∈ seen
    · rw [if_pos hseen]
      exact ih h
    · rw [if_neg hseen]
      exact ih (ids_credit_nodup h)

theorem mem_ids_creditRanking {k : ℤ} {weights : List (String × F)} {ranking : String × List String}
    {id : String} (h : id ∈ (creditRanking k weights hits ranking).map (·.docId)) :
    id ∈ ranking.2 ∨ id ∈ hits.map (·.docId) := by
  unfold creditRanking at h
  by_cases hzero : PyFloat.isZero (weightOf weights ranking.1) = true
  · rw [if_pos hzero] at h
    exact .inr h
  · rw [if_neg hzero] at h
    exact mem_ids_creditAll h

theorem ids_creditRanking_nodup {k : ℤ} {weights : List (String × F)}
    {ranking : String × List String} (h : (hits.map (·.docId)).Nodup) :
    ((creditRanking k weights hits ranking).map (·.docId)).Nodup := by
  unfold creditRanking
  by_cases hzero : PyFloat.isZero (weightOf weights ranking.1) = true
  · rw [if_pos hzero]
    exact h
  · rw [if_neg hzero]
    exact ids_creditAll_nodup h

theorem mem_ids_foldl {k : ℤ} {weights : List (String × F)} {rankings : List (String × List String)}
    {id : String} (h : id ∈ (rankings.foldl (creditRanking k weights) hits).map (·.docId)) :
    (∃ ranking ∈ rankings, id ∈ ranking.2) ∨ id ∈ hits.map (·.docId) := by
  induction rankings generalizing hits with
  | nil => exact .inr h
  | cons ranking rankings ih =>
    obtain ⟨other, hother, hmem⟩ | h := ih h
    · exact .inl ⟨other, List.mem_cons_of_mem ranking hother, hmem⟩
    · apply (mem_ids_creditRanking h).imp_left
      intro hmem
      exact ⟨ranking, List.mem_cons_self, hmem⟩

theorem ids_foldl_nodup {k : ℤ} {weights : List (String × F)} {rankings : List (String × List String)}
    (h : (hits.map (·.docId)).Nodup) :
    ((rankings.foldl (creditRanking k weights) hits).map (·.docId)).Nodup := by
  induction rankings generalizing hits with
  | nil => exact h
  | cons ranking rankings ih => exact ih (ids_creditRanking_nodup h)

theorem upTo_sublist {β : Type} (limit : ℤ) (items : List β) : (upTo limit items).Sublist items := by
  unfold upTo
  by_cases h : 0 ≤ limit
  · rw [if_pos h]
    exact List.take_sublist _ _
  · rw [if_neg h]
    exact List.take_sublist _ _

theorem ordered_perm (hits : List (FusedHit F)) : (ordered hits).Perm hits :=
  List.perm_insertionSort _ hits

theorem fusion_of_pos {k : ℤ} (hk : 1 ≤ k) (rankings : List (String × List String))
    (weights : List (String × F)) (limit : Option ℤ) :
    reciprocalRankFusion rankings k weights limit = .ok (match limit with
      | some n => upTo n (ordered (rankings.foldl (creditRanking k weights) []))
      | none => ordered (rankings.foldl (creditRanking k weights) [])) := by
  unfold reciprocalRankFusion
  rw [if_neg (by omega)]
  cases limit with
  | none => rfl
  | some n => rfl

/-- Every fused id was returned by a retriever, and none is listed twice. -/
theorem of_fused {rankings : List (String × List String)} {k : ℤ} {weights : List (String × F)}
    {limit : Option ℤ} {fused : List (FusedHit F)}
    (h : reciprocalRankFusion rankings k weights limit = .ok fused) :
    (∀ hit ∈ fused, ∃ ranking ∈ rankings, hit.docId ∈ ranking.2) ∧
      (fused.map (·.docId)).Nodup := by
  unfold reciprocalRankFusion at h
  by_cases hk : k ≤ 0
  · rw [if_pos hk] at h
    cases h
  rw [if_neg hk] at h
  have hsublist : fused.Sublist (ordered (rankings.foldl (creditRanking k weights) [])) := by
    cases limit with
    | none => exact Except.ok.inj h ▸ List.Sublist.refl _
    | some n => exact Except.ok.inj h ▸ upTo_sublist n _
  have hids := hsublist.map (·.docId)
  have hperm := (ordered_perm (rankings.foldl (creditRanking k weights) [])).map (·.docId)
  constructor
  · intro hit hmem
    have hid := hperm.subset (hids.subset (List.mem_map_of_mem hmem))
    obtain hranking | hid := mem_ids_foldl hid
    · exact hranking
    · cases hid
  · exact (hperm.nodup_iff.mpr (ids_foldl_nodup List.nodup_nil)).sublist hids

end
end Ragent.Fusion
