import Mathlib.Data.List.Sort
import Ragent.Batches
import Ragent.DocumentTables

set_option autoImplicit false

/-!
# Embeddings

`OpenAIEmbedder.embed_documents` of `ragent/providers/embeddings.py`, `upsert_chunks` of
`ragent/retrieval/vectors.py` and what `embed_stage` of `ragent/ingest/stages/index.py` does with a
strategy.
-/
namespace Ragent.Embeddings
open SpacedWords SourceTypes DocumentTables Batches

/-- An element of `response.data`. -/
structure Datum (V : Type) where
  index : ℤ
  embedding : V

section
variable {V : Type}

/-- `sorted(response.data, key=lambda d: d.index)`, and the embeddings of that. -/
def embeddingsOf (data : List (Datum V)) : List V :=
  (data.insertionSort fun d d' => d.index ≤ d'.index).map (·.embedding)

/-- `OpenAIEmbedder.embed_documents`, where `create n` answers the request `n`. -/
def embedDocuments (batch : ℕ) (create : ℕ → List (List Char) → List (Datum V))
    (texts : List (List Char)) : List V :=
  if texts.isEmpty then []
  else (List.range ((texts.length + batch - 1) / batch)).flatMap fun n =>
    -- the start `n` of `range(0, len(texts), self.BATCH)`
    let start := batch * n
    embeddingsOf (create n (slice texts start (start + batch)))

def labelled (vectors : List V) : List (Datum V) :=
  vectors.zipIdx.map fun v => { index := v.2, embedding := v.1 }

/-- One embedding for each input, under its index, in any order. -/
def Answers (IsEmbedding : List Char → V → Prop) (inputs : List (List Char))
    (data : List (Datum V)) : Prop :=
  ∃ vectors, List.Forall₂ IsEmbedding inputs vectors ∧ data.Perm (labelled vectors)

theorem labelled_pairwise (vectors : List V) :
    (labelled vectors).Pairwise fun d d' => d.index < d'.index := by
  unfold labelled
  rw [List.pairwise_map]
  have hindices : (vectors.zipIdx.map (·.2)).Pairwise (· < ·) := by
    rw [List.zipIdx_map_snd]
    exact List.pairwise_lt_range'
  exact (List.pairwise_map.mp hindices).imp fun h => Int.ofNat_lt.mpr h

theorem embeddingsOf_labelled {vectors : List V} {data : List (Datum V)}
    (h : data.Perm (labelled vectors)) : embeddingsOf data = vectors := by
  have hordered := labelled_pairwise vectors
  have hsorted : (data.insertionSort fun d d' => d.index ≤ d'.index).Pairwise
      fun d d' => d.index ≤ d'.index := by
    have htotal : Std.Total fun d d' : Datum V => d.index ≤ d'.index :=
      ⟨fun d d' => le_total d.index d'.index⟩
    have htrans : IsTrans (Datum V) fun d d' => d.index ≤ d'.index :=
      ⟨fun _ _ _ => le_trans⟩
    exact List.pairwise_insertionSort _ data
  have heq : (data.insertionSort fun d d' => d.index ≤ d'.index) = labelled vectors := by
    apply ((List.perm_insertionSort _ data).trans h).eq_of_pairwise _ hsorted
      (hordered.imp le_of_lt)
    intro d d' hd hd' hle hle'
    have hmem := h.subset ((List.mem_insertionSort _).mp hd)
    have hindices : ((labelled vectors).map (·.index)).Nodup :=
      List.pairwise_map.mpr (hordered.imp ne_of_lt)
    exact List.inj_on_of_nodup_map hindices hmem hd' (le_antisymm hle hle')
  unfold embeddingsOf
  rw [heq, labelled, List.map_map]
  exact List.zipIdx_map_fst 0 vectors

section
variable {batch : ℕ} {create : ℕ → List (List Char) → List (Datum V)}

theorem embedDocuments_eq (hbatch : 0 < batch) (texts : List (List Char)) :
    embedDocuments batch create texts =
      (batches batch texts).zipIdx.flatMap fun request =>
        embeddingsOf (create request.2 request.1) := by
  rw [batches_eq_map texts hbatch]
  unfold embedDocuments
  by_cases hempty : texts.isEmpty = true
  · have hnone : (texts.length + batch - 1) / batch = 0 := by
      rw [List.isEmpty_iff.mp hempty]
      apply Nat.div_eq_of_lt
      rw [List.length_nil]
      omega
    rw [if_pos hempty, hnone]
    rfl
  · have hnumbered : ∀ (f : ℕ → List (List Char)) (k : ℕ),
        ((List.range k).map f).zipIdx = (List.range k).map fun n => (f n, n) := by
      intro f k
      apply List.ext_getElem?
      intro n
      by_cases hn : n < k
      · simp [List.getElem?_range hn]
      · simp [hn]
    rw [if_neg hempty, hnumbered, List.flatMap_map]
    unfold slice
    simp only [List.drop_take, Nat.add_sub_cancel_left]

variable {IsEmbedding : List Char → V → Prop}

theorem forall₂_flatMap {requests : List (List (List Char))} (n : ℕ)
    (hserver : ∀ m, ∀ request ∈ requests, Answers IsEmbedding request (create m request)) :
    List.Forall₂ IsEmbedding requests.flatten
      ((requests.zipIdx n).flatMap fun request => embeddingsOf (create request.2 request.1)) := by
  induction requests generalizing n with
  | nil => exact List.Forall₂.nil
  | cons request requests ih =>
    rw [List.flatten_cons, List.zipIdx_cons, List.flatMap_cons]
    apply List.rel_append
    · rcases hserver n request List.mem_cons_self with ⟨vectors, hvectors, hdata⟩
      rw [embeddingsOf_labelled hdata]
      exact hvectors
    · exact ih (n + 1) fun m other hother => hserver m other (List.mem_cons_of_mem request hother)

theorem embedDocuments_aligned (hbatch : 0 < batch) (texts : List (List Char))
    (hserver : ∀ n request, request ≠ [] → Answers IsEmbedding request (create n request)) :
    List.Forall₂ IsEmbedding texts (embedDocuments batch create texts) := by
  have hrequests : ∀ m, ∀ request ∈ batches batch texts,
      Answers IsEmbedding request (create m request) := fun m request hrequest =>
    hserver m request (ne_nil_of_mem_batches hbatch hrequest)
  have haligned := forall₂_flatMap 0 hrequests
  rw [batches_flatten] at haligned
  rw [embedDocuments_eq hbatch]
  exact haligned

end

structure DocumentRow where
  tenantId : String := "default"
  originalName : String
  cik : Option String := none
  ticker : Option String := none
  companyName : Option String := none
  formType : Option String := none
  fiscalYear : Option ℤ := none

structure Payload where
  tenantId : String
  documentId : String
  documentName : Option String
  strategy : String
  seq : ℕ
  cik : Option String
  ticker : Option String
  fiscalYear : Option ℤ
  formType : Option String
  pageFrom : Option ℤ
  sectionPath : List String

structure PointStruct (V : Type) where
  id : String
  vector : V
  payload : Payload

/-- `zip(a, b, c, strict=True)`, with the text of the `ValueError`. -/
def zipStrict {α β γ : Type} : List α → List β → List γ → Except String (List (α × β × γ))
  | a :: as, b :: bs, c :: cs => (zipStrict as bs cs).map ((a, b, c) :: ·)
  | [], [], [] => .ok []
  | _ :: _, [], _ => .error "zip() argument 2 is shorter than argument 1"
  | _ :: _, _ :: _, [] => .error "zip() argument 3 is shorter than arguments 1-2"
  | [], _ :: _, _ => .error "zip() argument 2 is longer than argument 1"
  | [], [], _ :: _ => .error "zip() argument 3 is longer than arguments 1-2"

/-- `upsert_chunks`: the points it sends. -/
def upsertChunks (chunkIds : List String) (vectors : List V) (payloads : List Payload) :
    Except String (List (PointStruct V)) :=
  if chunkIds.isEmpty then .ok []
  else (zipStrict chunkIds vectors payloads).map fun rows =>
    rows.map fun row => { id := row.1, vector := row.2.1, payload := row.2.2 }

def embeddingText (c : Chunk Char) : List Char :=
  match c.contextPrefix with
  | some before => if before.isEmpty then c.text else before ++ "\n\n".toList ++ c.text
  | none => c.text

/-- The text of a row of `load_chunks`. -/
def rowText (row : ChunkRow) : List Char := embeddingText
  { seq := row.chunk.seq
    text := row.chunk.text
    blockIds := []
    tokenCount := row.chunk.tokenCount
    contextPrefix := row.chunk.contextPrefix }

def payload (document : Option DocumentRow) (documentId strategy : String) (row : ChunkRow) :
    Payload where
  tenantId := (document.map (·.tenantId)).getD "default"
  documentId := documentId
  documentName := document.map (·.originalName)
  strategy := strategy
  seq := row.chunk.seq
  cik := document.bind (·.cik)
  ticker := document.bind (·.ticker)
  fiscalYear := document.bind (·.fiscalYear)
  formType := document.bind (·.formType)
  pageFrom := row.chunk.pageFrom
  sectionPath := row.chunk.sectionPath

/-- What `embed_stage` upserts for the chunks of a strategy. -/
def strategyPoints (embed : List (List Char) → List V) (document : Option DocumentRow)
    (documentId strategy : String) (chunks : List ChunkRow) :
    Except String (List (PointStruct V)) :=
  if chunks.isEmpty then .ok []
  else
    let embeddings := embed (chunks.map rowText)
    if embeddings.isEmpty then .ok []
    else upsertChunks (chunks.map (·.id)) embeddings
      (chunks.map (payload document documentId strategy))

theorem zipStrict_forall₂ {α β γ ρ : Type} {rows : List ρ} {bs : List β} {R : ρ → β → Prop}
    (f : ρ → α) (g : ρ → γ) (h : List.Forall₂ R rows bs) :
    ∃ zipped, zipStrict (rows.map f) bs (rows.map g) = .ok zipped ∧
      List.Forall₂ (fun row z => z.1 = f row ∧ R row z.2.1 ∧ z.2.2 = g row) rows zipped := by
  induction h with
  | nil => exact ⟨[], rfl, List.Forall₂.nil⟩
  | @cons row b rows bs hrow hrows ih =>
    rcases ih with ⟨zipped, hzipped, hall⟩
    refine ⟨(f row, b, g row) :: zipped, ?_, List.Forall₂.cons ⟨rfl, hrow, rfl⟩ hall⟩
    rw [List.map_cons, List.map_cons, zipStrict, hzipped]
    rfl

theorem strategyPoints_of_aligned {R : List Char → V → Prop} {embed : List (List Char) → List V}
    {chunks : List ChunkRow} (h : List.Forall₂ R (chunks.map rowText) (embed (chunks.map rowText)))
    (document : Option DocumentRow) (documentId strategy : String) :
    ∃ points, strategyPoints embed document documentId strategy chunks = .ok points ∧
      List.Forall₂ (fun row point => point.id = row.id ∧ R (rowText row) point.vector ∧
        point.payload = payload document documentId strategy row) chunks points := by
  rw [List.forall₂_map_left_iff] at h
  unfold strategyPoints
  cases hchunks : chunks with
  | nil => exact ⟨[], rfl, List.Forall₂.nil⟩
  | cons row rows =>
    rw [← hchunks]
    have hembeddings : (embed (chunks.map rowText)).isEmpty = false := by
      have hlength := h.length_eq
      rw [hchunks, List.length_cons] at hlength
      rw [List.isEmpty_eq_false_iff, hchunks]
      exact List.ne_nil_of_length_pos (by omega)
    have hids : (chunks.map (·.id)).isEmpty = false := by rw [hchunks]; rfl
    have hrows : chunks.isEmpty = false := by rw [hchunks]; rfl
    rcases zipStrict_forall₂ (·.id) (payload document documentId strategy) h with
      ⟨zipped, hzipped, hall⟩
    refine ⟨zipped.map fun z => { id := z.1, vector := z.2.1, payload := z.2.2 }, ?_, ?_⟩
    · simp only [hrows, hembeddings, upsertChunks, hids, hzipped]
      rfl
    · exact List.forall₂_map_right_iff.mpr hall

/-- Every text gets its own embedding, and every chunk the vector of its own text. -/
theorem embeddings_stay_aligned {IsEmbedding : List Char → V → Prop} {batch : ℕ}
    {create : ℕ → List (List Char) → List (Datum V)} (hbatch : 1 ≤ batch)
    (hserver : ∀ n request, request ≠ [] → Answers IsEmbedding request (create n request)) :
    (∀ texts : List (List Char),
      List.Forall₂ IsEmbedding texts (embedDocuments batch create texts)) ∧
    ∀ document documentId strategy chunks, ∃ points,
      strategyPoints (embedDocuments batch create) document documentId strategy chunks =
        .ok points ∧
      List.Forall₂ (fun row point => point.id = row.id ∧ IsEmbedding (rowText row) point.vector ∧
        point.payload = payload document documentId strategy row) chunks points := by
  constructor
  · intro texts
    exact embedDocuments_aligned hbatch texts hserver
  · intro document documentId strategy chunks
    apply strategyPoints_of_aligned
    exact embedDocuments_aligned hbatch _ hserver

end

def lengthsBackwards (_ : ℕ) (inputs : List (List Char)) : List (Datum ℕ) :=
  (labelled (inputs.map List.length)).reverse

theorem three_texts_keep_their_lengths :
    List.Forall₂ (fun text vector => vector = text.length)
      ["a".toList, "bb".toList, "ccc".toList]
      (embedDocuments 2 lengthsBackwards ["a".toList, "bb".toList, "ccc".toList]) := by
  apply (embeddings_stay_aligned (by decide) _).1
  intro n request _
  refine ⟨request.map List.length, ?_, List.reverse_perm _⟩
  rw [List.forall₂_map_right_iff, List.forall₂_same]
  exact fun _ _ => rfl

end Ragent.Embeddings
