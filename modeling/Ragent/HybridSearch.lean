import Ragent.DocumentTables
import Ragent.Exceptions
import Ragent.Fusion
import Ragent.Keyed
import Ragent.PyJson

set_option autoImplicit false

/-!
# Hybrid retrieval

`ragent/retrieval/search.py` with the two statements of `ragent/db/repo.py` and the query of
`ragent/retrieval/vectors.py` that it runs. What the embedder, the vector index and the full-text
search answer is a parameter.
-/
namespace Ragent.HybridSearch
open SourceTypes DocumentTables Exceptions PyNumbers PyJson Fusion

structure DocumentRow where
  id : String
  tenantId : String
  originalName : String
  provenance : Option String

inductive PayloadValue
  | none
  | str (s : String)
  | list (items : List String)
  deriving DecidableEq

structure Point (F : Type) where
  id : String
  vector : List F
  payload : List (String × PayloadValue)

/-- The primary keys and the foreign key are those of `init.sql`. -/
structure Corpus (F : Type) where
  documents : List DocumentRow
  db : Database
  /-- The points of a strategy's collection. -/
  points : String → List (Point F)
  documents_nodup : (documents.map (·.id)).Nodup
  chunks_nodup : (db.chunks.map (·.id)).Nodup
  chunks_owned : ∀ row ∈ db.chunks, row.documentId ∈ documents.map (·.id)

inductive Match
  | any (values : List String)
  | value (s : String)
  deriving DecidableEq

structure FieldCondition where
  key : String
  condition : Match
  deriving DecidableEq

inductive FilterValue
  | none
  | str (s : String)
  | list (items : List String)
  deriving DecidableEq

/-- `_build_filter`, whose conditions must all hold. -/
def buildFilter (filters : List (String × FilterValue)) : List FieldCondition :=
  filters.filterMap fun f =>
    match f.2 with
    | .none => none
    | .str s => some ⟨f.1, .value s⟩
    | .list items => some ⟨f.1, .any items⟩

def Match.holds : Match → PayloadValue → Bool
  | .value s, .str t => s = t
  | .value s, .list items => s ∈ items
  | .any values, .str t => t ∈ values
  | .any values, .list items => values.any (· ∈ items)
  | _, .none => false

/-- A condition on a list holds if one of its elements meets it. -/
def FieldCondition.holds (c : FieldCondition) (payload : List (String × PayloadValue)) : Bool :=
  match payload.lookup c.key with
  | some v => c.condition.holds v
  | none => false

/-- `none` stands for an exception. -/
structure Services (F : Type) where
  embedQuery : String → Option (List F)
  queryPoints : List (Point F) → List F → ℤ → List FieldCondition → Option (List (String × F))
  /-- `c.tsv @@ websearch_to_tsquery('english', $1)` -/
  matchesQuery : String → ChunkRow → Bool
  /-- `ORDER BY score DESC LIMIT $2` over the rows of the `WHERE` clause. -/
  rankChunks : List ChunkRow → String → ℤ → Option (List (String × F))

structure Services.Lawful {F : Type} (sv : Services F) : Prop where
  returns_matching : ∀ {points vector limit conditions hits},
    sv.queryPoints points vector limit conditions = some hits →
    ∀ hit ∈ hits, ∃ p ∈ points, p.id = hit.1 ∧ ∀ c ∈ conditions, c.holds p.payload = true
  limits_points : ∀ {points vector limit conditions hits},
    sv.queryPoints points vector limit conditions = some hits → hits.length ≤ limit.toNat
  returns_selected : ∀ {rows query limit hits}, sv.rankChunks rows query limit = some hits →
    ∀ hit ∈ hits, ∃ row ∈ rows, row.id = hit.1
  limits_rows : ∀ {rows query limit hits}, sv.rankChunks rows query limit = some hits →
    hits.length ≤ limit.toNat

section
variable {F : Type} (sv : Services F) (corpus : Corpus F)

def dense (query strategy : String) (limit : ℤ) (filters : List (String × FilterValue)) :
    List String :=
  match sv.embedQuery query with
  | none => []
  | some vector =>
    match sv.queryPoints (corpus.points strategy) vector limit (buildFilter filters) with
    | none => []
    | some hits => hits.map (·.1)

/-- The rows of the `WHERE` clause of `lexical_search`. -/
def selected (query strategy tenantId : String) : List ChunkRow :=
  corpus.db.chunks.filter fun c =>
    (corpus.documents.any fun d => d.id = c.documentId ∧ d.tenantId = tenantId) &&
      c.strategy = strategy && sv.matchesQuery query c

def lexical (query strategy : String) (limit : ℤ) (tenantId : String) : List String :=
  match sv.rankChunks (selected sv corpus query strategy tenantId) query limit with
  | none => []
  | some hits => hits.map (·.1)

end

structure Region where
  pageNo : ℤ
  x0 : ℚ
  y0 : ℚ
  x1 : ℚ
  y1 : ℚ
  deriving DecidableEq

structure Target where
  chunkId : String
  documentId : String
  documentName : String
  provenance : Option String
  text : List Char
  sectionPath : List String
  charStart : Option ℕ
  charEnd : Option ℕ
  regions : List Region

def linkedBoxes (db : Database) (chunkId : String) : List (ℤ × BBox) :=
  (db.chunkBlocks.filter (·.chunkId = chunkId)).filterMap fun link =>
    (db.blocks.find? (·.block.id = link.blockId)).bind fun row =>
      row.block.bbox.map fun bbox => (row.block.pageNo, bbox)

/-- `min` and `max` over one group. -/
def regionOf (boxes : List (ℤ × BBox)) (pageNo : ℤ) : Region :=
  let group := (boxes.filter (·.1 = pageNo)).map (·.2)
  { pageNo := pageNo
    x0 := (group.map (·.x0)).min?.getD 0
    y0 := (group.map (·.y0)).min?.getD 0
    x1 := (group.map (·.x1)).max?.getD 0
    y1 := (group.map (·.y1)).max?.getD 0 }

def regions (db : Database) (chunkId : String) : List Region :=
  let boxes := linkedBoxes db chunkId
  ((boxes.map (·.1)).dedup.insertionSort (· ≤ ·)).map (regionOf boxes)

/-- The entry of `chunk_citation_targets` for one id. -/
def citationTarget {F : Type} (corpus : Corpus F) (chunkId : String) : Option Target :=
  (corpus.db.chunks.find? (·.id = chunkId)).bind fun row =>
    (corpus.documents.find? (·.id = row.documentId)).map fun d =>
      { chunkId := chunkId
        documentId := d.id
        documentName := d.originalName
        provenance := d.provenance
        text := row.chunk.text
        sectionPath := row.chunk.sectionPath
        charStart := row.chunk.charStart
        charEnd := row.chunk.charEnd
        regions := regions corpus.db chunkId }

structure Passage (F : Type) where
  chunkId : String
  text : List Char
  score : F
  documentId : String
  documentName : String
  provenance : String
  sectionPath : List String := []
  regions : List Region := []
  charStart : Option ℕ := none
  charEnd : Option ℕ := none
  retrievers : List (String × ℕ) := []

structure Settings where
  chunkStrategies : List String := ["layout"]
  retrievalTopK : ℤ := 50
  rerankTopN : ℤ := 8
  rrfK : ℤ := 60

structure Request where
  query : String
  strategy : Option String := none
  limit : Option ℤ := none
  tenantId : String := "default"
  documentIds : Option (List String) := none
  filters : List (String × FilterValue) := []

inductive SearchError
  | indexError
  | valueError (text : String)
  deriving DecidableEq

/-- `strategy or settings.chunk_strategies[0]` -/
def strategyOf (settings : Settings) (r : Request) : Except SearchError String :=
  match r.strategy, settings.chunkStrategies with
  | some strategy, strategies =>
    if strategy ≠ "" then .ok strategy
    else match strategies with
      | first :: _ => .ok first
      | [] => .error .indexError
  | none, first :: _ => .ok first
  | none, [] => .error .indexError

/-- `limit or settings.retrieval_top_k` -/
def topK (settings : Settings) (r : Request) : ℤ :=
  match r.limit with
  | some n => if n ≠ 0 then n else settings.retrievalTopK
  | none => settings.retrievalTopK

def payloadFilters (r : Request) : List (String × FilterValue) :=
  let base := r.filters.foldl (fun items f => setItem f.1 f.2 items)
    [("tenant_id", FilterValue.str r.tenantId)]
  match r.documentIds with
  | some (id :: ids) => setItem "document_id" (.list (id :: ids)) base
  | _ => base

section
variable {F : Type} [PyFloat F] (sv : Services F) (settings : Settings) (corpus : Corpus F)

def denseIds (r : Request) (strategy : String) : List String :=
  dense sv corpus r.query strategy (topK settings r) (payloadFilters r)

def lexicalIds (r : Request) (strategy : String) : List String :=
  lexical sv corpus r.query strategy (topK settings r) r.tenantId

def fusedHits (r : Request) (strategy : String) : Except SearchError (List (FusedHit F)) :=
  let denseIds := denseIds sv settings corpus r strategy
  let lexicalIds := lexicalIds sv settings corpus r strategy
  if denseIds = [] ∧ lexicalIds = [] then .ok []
  else match reciprocalRankFusion [("dense", denseIds), ("lexical", lexicalIds)] settings.rrfK []
      (some settings.rerankTopN) with
    | .ok hits => .ok hits
    | .error text => .error (.valueError text)

/-- A chunk without a target was deleted since. -/
def passageOf (hit : FusedHit F) : Option (Passage F) :=
  (citationTarget corpus hit.docId).map fun target =>
    { chunkId := hit.docId
      text := target.text
      score := hit.score
      documentId := target.documentId
      documentName := target.documentName
      provenance := match target.provenance with
        | some provenance => if provenance ≠ "" then provenance else "paged"
        | none => "paged"
      sectionPath := target.sectionPath
      regions := target.regions
      charStart := target.charStart
      charEnd := target.charEnd
      retrievers := hit.ranks }

def hybridSearch (r : Request) : Except SearchError (List (Passage F)) := do
  let strategy ← strategyOf settings r
  let hits ← fusedHits sv settings corpus r strategy
  return hits.filterMap (passageOf corpus)

end

section
variable {F : Type} {sv : Services F} {settings : Settings} {corpus : Corpus F} {r : Request}
  {strategy tenantId : String} {ids : List String}

theorem find_chunk {row : ChunkRow} (h : row ∈ corpus.db.chunks) :
    corpus.db.chunks.find? (·.id = row.id) = some row :=
  Keyed.find_key corpus.chunks_nodup h

theorem document_of_chunk {row : ChunkRow} (h : row ∈ corpus.db.chunks) :
    ∃ d, corpus.documents.find? (·.id = row.documentId) = some d ∧ d.id = row.documentId := by
  cases hfind : corpus.documents.find? (·.id = row.documentId) with
  | none =>
    obtain ⟨d, hd, hid⟩ := List.mem_map.mp (corpus.chunks_owned row h)
    exact absurd hid (by simpa using List.find?_eq_none.mp hfind d hd)
  | some d => exact ⟨d, rfl, by simpa using List.find?_some hfind⟩

theorem passageOf_chunk {hit : FusedHit F} {row : ChunkRow} (h : row ∈ corpus.db.chunks)
    (hid : row.id = hit.docId) :
    ∃ p, passageOf corpus hit = some p ∧ p.documentId = row.documentId := by
  obtain ⟨d, hd, howner⟩ := document_of_chunk h
  have hfind := find_chunk h
  rw [hid] at hfind
  unfold passageOf citationTarget
  rw [hfind, Option.bind_some, hd]
  exact ⟨_, rfl, howner⟩

theorem chunk_of_passageOf {hit : FusedHit F} {p : Passage F} (h : passageOf corpus hit = some p) :
    ∃ row ∈ corpus.db.chunks, row.id = hit.docId := by
  unfold passageOf citationTarget at h
  cases hfind : corpus.db.chunks.find? (·.id = hit.docId) with
  | none =>
    rw [hfind] at h
    cases h
  | some row => exact ⟨row, List.mem_of_find?_eq_some hfind, by simpa using List.find?_some hfind⟩

def InScope (corpus : Corpus F) (tenantId : String) (ids : List String) (documentId : String) :
    Prop :=
  ∃ d ∈ corpus.documents, d.id = documentId ∧ d.tenantId = tenantId ∧ d.id ∈ ids

def scopeConditions (tenantId : String) (ids : List String) : List FieldCondition :=
  [⟨"tenant_id", .value tenantId⟩, ⟨"document_id", .any ids⟩]

/-- The payload of the point puts it in scope, as the query demands. -/
def NamedInScope (corpus : Corpus F) (strategy tenantId : String) (ids : List String) (id : String) :
    Prop :=
  ∃ p ∈ corpus.points strategy, p.id = id ∧
    ∀ c ∈ scopeConditions tenantId ids, c.holds p.payload = true

theorem buildFilter_payloadFilters (hids : ids ≠ []) (hdocuments : r.documentIds = some ids)
    (hfilters : r.filters = []) :
    buildFilter (payloadFilters r) = scopeConditions r.tenantId ids := by
  unfold payloadFilters
  rw [hdocuments, hfilters]
  cases ids with
  | nil => exact absurd rfl hids
  | cons id ids => rfl

theorem point_of_denseIds (laws : sv.Lawful) (hids : ids ≠ []) (hdocuments : r.documentIds = some ids)
    (hfilters : r.filters = []) {id : String} (h : id ∈ denseIds sv settings corpus r strategy) :
    ∃ p ∈ corpus.points strategy, p.id = id ∧
      ∀ c ∈ scopeConditions r.tenantId ids, c.holds p.payload = true := by
  unfold denseIds dense at h
  cases hembed : sv.embedQuery r.query with
  | none =>
    rw [hembed] at h
    cases h
  | some vector =>
    simp only [hembed] at h
    split at h
    · cases h
    · rename_i hits hhits
      obtain ⟨hit, hhit, rfl⟩ := List.mem_map.mp h
      rw [buildFilter_payloadFilters hids hdocuments hfilters] at hhits
      exact laws.returns_matching hhits hit hhit

theorem row_of_lexicalIds (laws : sv.Lawful) {row : ChunkRow} (hrow : row ∈ corpus.db.chunks)
    (h : row.id ∈ lexicalIds sv settings corpus r strategy) :
    row.strategy = strategy ∧ sv.matchesQuery r.query row = true ∧
      ∃ d ∈ corpus.documents, d.id = row.documentId ∧ d.tenantId = r.tenantId := by
  unfold lexicalIds lexical at h
  split at h
  · cases h
  · rename_i hits hhits
    obtain ⟨hit, hhit, hid⟩ := List.mem_map.mp h
    obtain ⟨found, hfound, hfoundId⟩ := laws.returns_selected hhits hit hhit
    obtain ⟨hmem, hwhere⟩ := List.mem_filter.mp hfound
    obtain rfl := List.inj_on_of_nodup_map corpus.chunks_nodup hmem hrow (hfoundId.trans hid)
    simp only [Bool.and_eq_true, List.any_eq_true, decide_eq_true_eq] at hwhere
    exact ⟨hwhere.1.2, hwhere.2, hwhere.1.1⟩

end

section
variable {F : Type} [PyFloat F] (sv : Services F) (settings : Settings) (corpus : Corpus F)

def keptIds (r : Request) (strategy : String) : List String :=
  match fusedHits sv settings corpus r strategy with
  | .ok hits => hits.map (·.docId)
  | .error _ => []

variable {sv settings corpus} {r : Request} {strategy tenantId : String} {ids : List String}
  {passages : List (Passage F)}

theorem of_hybridSearch (hstrategy : strategyOf settings r = .ok strategy)
    (h : hybridSearch sv settings corpus r = .ok passages) :
    ∃ hits, fusedHits sv settings corpus r strategy = .ok hits ∧
      passages = hits.filterMap (passageOf corpus) := by
  obtain ⟨strategy', hstrategy', h⟩ := ok_of_bind h
  obtain rfl := Except.ok.inj (hstrategy.symm.trans hstrategy')
  obtain ⟨hits, hhits, h⟩ := ok_of_bind h
  exact ⟨hits, hhits, (Except.ok.inj h).symm⟩

theorem passages_in_scope_iff_rows (hstrategy : strategyOf settings r = .ok strategy)
    (h : hybridSearch sv settings corpus r = .ok passages) :
    (∀ p ∈ passages, InScope corpus tenantId ids p.documentId) ↔
      ∀ row ∈ corpus.db.chunks, row.id ∈ keptIds sv settings corpus r strategy →
        InScope corpus tenantId ids row.documentId := by
  obtain ⟨hits, hhits, rfl⟩ := of_hybridSearch hstrategy h
  have hkept : keptIds sv settings corpus r strategy = hits.map (·.docId) := by
    rw [keptIds, hhits]
  rw [hkept]
  constructor
  · intro hall row hrow hmem
    obtain ⟨hit, hhit, hid⟩ := List.mem_map.mp hmem
    obtain ⟨p, hp, howner⟩ := passageOf_chunk hrow hid.symm
    rw [← howner]
    exact hall p (List.mem_filterMap.mpr ⟨hit, hhit, hp⟩)
  · intro hall p hp
    obtain ⟨hit, hhit, hp⟩ := List.mem_filterMap.mp hp
    obtain ⟨row, hrow, hid⟩ := chunk_of_passageOf hp
    obtain ⟨p', hp', howner⟩ := passageOf_chunk hrow hid
    obtain rfl := Option.some.inj (hp.symm.trans hp')
    rw [howner]
    apply hall row hrow
    rw [hid]
    exact List.mem_map_of_mem hhit

theorem retriever_of_keptIds {id : String} (h : id ∈ keptIds sv settings corpus r strategy) :
    id ∈ denseIds sv settings corpus r strategy ∨ id ∈ lexicalIds sv settings corpus r strategy := by
  unfold keptIds fusedHits at h
  by_cases hnone : denseIds sv settings corpus r strategy = [] ∧
      lexicalIds sv settings corpus r strategy = []
  · simp only [if_pos hnone] at h
    cases h
  · simp only [if_neg hnone] at h
    split at h
    · rename_i hits hhits
      obtain ⟨hit, hhit, rfl⟩ := List.mem_map.mp h
      split at hhits
      · rename_i fused hfused
        obtain rfl := Except.ok.inj hhits
        obtain ⟨ranking, hranking, hmem⟩ := (of_fused hfused).1 hit hhit
        simp only [List.mem_cons, List.not_mem_nil, or_false] at hranking
        obtain rfl | rfl := hranking
        · exact .inl hmem
        · exact .inr hmem
      · cases hhits
    · cases h

/-- Every passage is in scope, whatever the embedder, the index and the full-text search answer. -/
def StaysInScope (matchesQuery : String → ChunkRow → Bool) (settings : Settings) (corpus : Corpus F)
    (r : Request) (ids : List String) : Prop :=
  ∀ sv : Services F, sv.Lawful → sv.matchesQuery = matchesQuery → ∀ passages,
    hybridSearch sv settings corpus r = .ok passages →
      ∀ p ∈ passages, InScope corpus r.tenantId ids p.documentId

/-- What the query matches of the tenant's chunks lies in the documents asked for, and the points
    that say they are in scope are. -/
structure Confined (matchesQuery : String → ChunkRow → Bool) (corpus : Corpus F) (r : Request)
    (strategy : String) (ids : List String) : Prop where
  rows : ∀ row ∈ corpus.db.chunks, row.strategy = strategy → matchesQuery r.query row = true →
    (∃ d ∈ corpus.documents, d.id = row.documentId ∧ d.tenantId = r.tenantId) → row.documentId ∈ ids
  points : ∀ row ∈ corpus.db.chunks, NamedInScope corpus strategy r.tenantId ids row.id →
    InScope corpus r.tenantId ids row.documentId

theorem staysInScope_of_confined {matchesQuery : String → ChunkRow → Bool} (hids : ids ≠ [])
    (hdocuments : r.documentIds = some ids) (hfilters : r.filters = [])
    (hstrategy : strategyOf settings r = .ok strategy)
    (h : Confined matchesQuery corpus r strategy ids) :
    StaysInScope matchesQuery settings corpus r ids := by
  rintro sv laws rfl passages hpassages
  rw [passages_in_scope_iff_rows hstrategy hpassages]
  intro row hrow hkept
  obtain hdense | hlexical := retriever_of_keptIds hkept
  · exact h.points row hrow (point_of_denseIds laws hids hdocuments hfilters hdense)
  · obtain ⟨hlayer, hmatches, d, hd, hid, htenant⟩ := row_of_lexicalIds laws hrow hlexical
    exact ⟨d, hd, hid, htenant, hid ▸ h.rows row hrow hlayer hmatches ⟨d, hd, hid, htenant⟩⟩

/-- The full-text search returns one chunk, or the index one point, and the other fails. -/
def loneHit (matchesQuery : String → ChunkRow → Bool) (indexed : Bool) (id : String) :
    Services F where
  embedQuery _ := if indexed then some [] else none
  queryPoints points _ limit conditions := some
    (((points.find? fun p => p.id = id ∧ conditions.all (·.holds p.payload)).toList.take
      limit.toNat).map fun p => (p.id, PyFloat.ofInt 1))
  matchesQuery := matchesQuery
  rankChunks rows _ limit := if indexed then none else some
    (((rows.find? (·.id = id)).toList.take limit.toNat).map fun row => (row.id, PyFloat.ofInt 1))

theorem loneHit_lawful (matchesQuery : String → ChunkRow → Bool) (indexed : Bool) (id : String) :
    (loneHit matchesQuery indexed id : Services F).Lawful where
  returns_matching := by
    intro points vector limit conditions hits h hit hhit
    obtain rfl := Option.some.inj h
    obtain ⟨p, hp, rfl⟩ := List.mem_map.mp hhit
    have hfound := Option.mem_toList.mp (List.mem_of_mem_take hp)
    have hmatch : p.id = id ∧ conditions.all (·.holds p.payload) = true := by
      simpa using List.find?_some hfound
    exact ⟨p, List.mem_of_find?_eq_some hfound, rfl, List.all_eq_true.mp hmatch.2⟩
  limits_points := by
    intro points vector limit conditions hits h
    obtain rfl := Option.some.inj h
    simp
  returns_selected := by
    intro rows query limit hits h hit hhit
    unfold loneHit at h
    rw [Option.ite_none_left_eq_some] at h
    obtain rfl := Option.some.inj h.2
    obtain ⟨row, hrow, rfl⟩ := List.mem_map.mp hhit
    exact ⟨row, List.mem_of_find?_eq_some (Option.mem_toList.mp (List.mem_of_mem_take hrow)), rfl⟩
  limits_rows := by
    intro rows query limit hits h
    unfold loneHit at h
    rw [Option.ite_none_left_eq_some] at h
    obtain rfl := Option.some.inj h.2
    simp

theorem take_single {α : Type} {n : ℤ} (h : 1 ≤ n) (x : α) : [x].take n.toNat = [x] := by
  apply List.take_of_length_le
  rw [List.length_singleton]
  omega

theorem fusion_of_lone (hone : PyFloat.isZero (PyFloat.ofInt 1 : F) = false) {k n : ℤ} (hk : 1 ≤ k)
    (hn : 1 ≤ n) {denseIds lexicalIds : List String} {id : String}
    (h : (denseIds = [id] ∧ lexicalIds = []) ∨ (denseIds = [] ∧ lexicalIds = [id])) :
    ∃ hit : FusedHit F,
      reciprocalRankFusion [("dense", denseIds), ("lexical", lexicalIds)] k [] (some n) =
          .ok [hit] ∧
        hit.docId = id := by
  have hzero : ∀ retriever,
      PyFloat.isZero (weightOf ([] : List (String × F)) retriever) ≠ true := by
    intro retriever
    rw [weightOf, List.lookup_nil, Option.getD_none, hone]
    simp
  have hcut : ∀ hit : FusedHit F, upTo n (ordered [hit]) = [hit] := by
    intro hit
    have hsorted : ordered [hit] = [hit] := by simp [ordered]
    rw [hsorted, upTo, if_pos (by omega), take_single hn]
  rw [fusion_of_pos hk]
  simp only [List.foldl_cons, List.foldl_nil, creditRanking, if_neg (hzero _)]
  obtain ⟨rfl, rfl⟩ | ⟨rfl, rfl⟩ := h
  · exact ⟨_, congrArg Except.ok (hcut _), rfl⟩
  · exact ⟨_, congrArg Except.ok (hcut _), rfl⟩

/-- In a request that stays in scope every chunk that could be the only hit is. -/
theorem inScope_of_lone {matchesQuery : String → ChunkRow → Bool}
    (hone : PyFloat.isZero (PyFloat.ofInt 1 : F) = false) (hk : 1 ≤ settings.rrfK)
    (hn : 1 ≤ settings.rerankTopN) (hstrategy : strategyOf settings r = .ok strategy)
    (h : StaysInScope matchesQuery settings corpus r ids) {indexed : Bool} {row : ChunkRow}
    (hrow : row ∈ corpus.db.chunks)
    (hids : (denseIds (loneHit matchesQuery indexed row.id) settings corpus r strategy = [row.id] ∧
        lexicalIds (loneHit matchesQuery indexed row.id) settings corpus r strategy = []) ∨
      (denseIds (loneHit matchesQuery indexed row.id) settings corpus r strategy = [] ∧
        lexicalIds (loneHit matchesQuery indexed row.id) settings corpus r strategy = [row.id])) :
    InScope corpus r.tenantId ids row.documentId := by
  obtain ⟨hit, hfused, hid⟩ := fusion_of_lone hone hk hn hids
  have hhits : fusedHits (loneHit matchesQuery indexed row.id) settings corpus r strategy =
      .ok [hit] := by
    have hsome : ¬ (denseIds (loneHit matchesQuery indexed row.id) settings corpus r strategy = [] ∧
        lexicalIds (loneHit matchesQuery indexed row.id) settings corpus r strategy = []) := by
      rintro ⟨hdense, hlexical⟩
      rw [hdense, hlexical] at hids
      simp at hids
    unfold fusedHits
    rw [if_neg hsome, hfused]
  have hanswer : hybridSearch (loneHit matchesQuery indexed row.id) settings corpus r =
      .ok ([hit].filterMap (passageOf corpus)) := by
    unfold hybridSearch
    rw [hstrategy]
    change (fusedHits _ settings corpus r strategy >>= _) = _
    rw [hhits]
    rfl
  have hall := h _ (loneHit_lawful matchesQuery indexed row.id) rfl _ hanswer
  apply (passages_in_scope_iff_rows hstrategy hanswer).mp hall row hrow
  rw [keptIds, hhits, ← hid]
  exact List.mem_singleton_self _

theorem lexicalIds_of_lone {matchesQuery : String → ChunkRow → Bool} (htop : 1 ≤ topK settings r)
    {row : ChunkRow}
    (hrow : row ∈ selected (loneHit matchesQuery false row.id) corpus r.query strategy r.tenantId) :
    lexicalIds (loneHit matchesQuery false row.id) settings corpus r strategy = [row.id] := by
  obtain ⟨found, hfound⟩ : ∃ found, (selected (loneHit matchesQuery false row.id) corpus r.query
      strategy r.tenantId).find? (·.id = row.id) = some found := by
    apply Option.isSome_iff_exists.mp
    rw [List.find?_isSome]
    exact ⟨row, hrow, by simp⟩
  have hid : found.id = row.id := by simpa using List.find?_some hfound
  have hanswer : (loneHit matchesQuery false row.id : Services F).rankChunks
      (selected (loneHit matchesQuery false row.id) corpus r.query strategy r.tenantId) r.query
        (topK settings r) = some [(row.id, PyFloat.ofInt 1)] := by
    simp only [loneHit, Bool.false_eq_true, if_false] at hfound ⊢
    rw [hfound, Option.toList_some, take_single htop, ← hid]
    rfl
  unfold lexicalIds lexical
  rw [hanswer]
  rfl

theorem denseIds_of_lone {matchesQuery : String → ChunkRow → Bool} (hids : ids ≠ [])
    (hdocuments : r.documentIds = some ids) (hfilters : r.filters = [])
    (htop : 1 ≤ topK settings r) {id : String}
    (hnamed : NamedInScope corpus strategy r.tenantId ids id) :
    denseIds (loneHit matchesQuery true id) settings corpus r strategy = [id] := by
  obtain ⟨p, hp, hpid, hholds⟩ := hnamed
  obtain ⟨found, hfound⟩ : ∃ found, (corpus.points strategy).find? (fun p => p.id = id ∧
      (scopeConditions r.tenantId ids).all (·.holds p.payload)) = some found := by
    apply Option.isSome_iff_exists.mp
    rw [List.find?_isSome]
    exact ⟨p, hp, decide_eq_true ⟨hpid, List.all_eq_true.mpr hholds⟩⟩
  have hid : found.id = id := by
    have hmatch := List.find?_some hfound
    simp only [decide_eq_true_eq] at hmatch
    exact hmatch.1
  have hanswer : (loneHit matchesQuery true id : Services F).queryPoints (corpus.points strategy) []
      (topK settings r) (buildFilter (payloadFilters r)) = some [(id, PyFloat.ofInt 1)] := by
    rw [buildFilter_payloadFilters hids hdocuments hfilters]
    simp only [loneHit]
    rw [hfound, Option.toList_some, take_single htop, ← hid]
    rfl
  have hembedded : (loneHit matchesQuery true id : Services F).embedQuery r.query = some [] := rfl
  unfold denseIds dense
  simp only [hembedded, hanswer]
  rfl

/-- A confined corpus keeps the request in scope, and where the settings let a hit through no other
    does. -/
theorem passages_in_scope_iff {matchesQuery : String → ChunkRow → Bool} (hids : ids ≠ [])
    (hdocuments : r.documentIds = some ids) (hfilters : r.filters = [])
    (hstrategy : strategyOf settings r = .ok strategy) :
    (Confined matchesQuery corpus r strategy ids →
        StaysInScope matchesQuery settings corpus r ids) ∧
      (PyFloat.isZero (PyFloat.ofInt 1 : F) = false → 1 ≤ topK settings r → 1 ≤ settings.rrfK →
        1 ≤ settings.rerankTopN → StaysInScope matchesQuery settings corpus r ids →
          Confined matchesQuery corpus r strategy ids) := by
  refine ⟨staysInScope_of_confined hids hdocuments hfilters hstrategy, ?_⟩
  intro hone htop hk hn h
  constructor
  · intro row hrow hlayer hmatches htenant
    have hselected : row ∈ selected (loneHit matchesQuery false row.id : Services F) corpus r.query
        strategy r.tenantId := by
      have hmatches' : (loneHit matchesQuery false row.id : Services F).matchesQuery r.query row =
          true := hmatches
      refine List.mem_filter.mpr ⟨hrow, ?_⟩
      simpa only [hlayer, hmatches', decide_true, Bool.and_true, List.any_eq_true,
        decide_eq_true_eq] using htenant
    obtain ⟨d, -, hid, -, hmem⟩ :=
      inScope_of_lone hone hk hn hstrategy h hrow (.inr ⟨rfl, lexicalIds_of_lone htop hselected⟩)
    exact hid ▸ hmem
  · intro row hrow hnamed
    exact inScope_of_lone hone hk hn hstrategy h hrow
      (.inl ⟨denseIds_of_lone hids hdocuments hfilters htop hnamed, rfl⟩)

end

def fruitChunk (id documentId text : String) : ChunkRow where
  id := id
  documentId := documentId
  strategy := "layout"
  chunk := { seq := 0, text := text.toList, blockIds := [], tokenCount := 2 }

def fruitPoint (id documentId : String) : Point ℚ where
  id := id
  vector := [1]
  payload := [("tenant_id", .str "default"), ("document_id", .str documentId)]

def fruits : Corpus ℚ where
  documents := [⟨"d1", "default", "apples.md", some "flow"⟩, ⟨"d2", "default", "pears.md", some "flow"⟩]
  db := { chunks := [fruitChunk "c1" "d1" "Apples rot.", fruitChunk "c2" "d2" "Pears rot."] }
  points := fun strategy =>
    if strategy = "layout" then [fruitPoint "c1" "d1", fruitPoint "c2" "d2"] else []
  documents_nodup := by decide
  chunks_nodup := by decide
  chunks_owned := by decide

def fruitServices (embedder : Bool) : Services ℚ where
  embedQuery _ := if embedder then some [1] else none
  queryPoints points _ limit conditions := some
    (((points.filter fun p => conditions.all (·.holds p.payload)).take limit.toNat).map
      fun p => (p.id, 1))
  matchesQuery query row :=
    (SpacedWords.words PyText.isSpace query.toList).all
      (· ∈ SpacedWords.words PyText.isSpace row.chunk.text)
  rankChunks rows _ limit := some ((rows.take limit.toNat).map fun row => (row.id, 1))

theorem fruitServices_lawful (embedder : Bool) : (fruitServices embedder).Lawful where
  returns_matching := by
    intro points vector limit conditions hits h hit hhit
    obtain rfl := Option.some.inj h
    obtain ⟨p, hp, rfl⟩ := List.mem_map.mp hhit
    obtain ⟨hmem, hholds⟩ := List.mem_filter.mp (List.mem_of_mem_take hp)
    exact ⟨p, hmem, rfl, fun c hc => List.all_eq_true.mp hholds c hc⟩
  limits_points := by
    intro points vector limit conditions hits h
    obtain rfl := Option.some.inj h
    simp
  returns_selected := by
    intro rows query limit hits h hit hhit
    obtain rfl := Option.some.inj h
    obtain ⟨row, hrow, rfl⟩ := List.mem_map.mp hhit
    exact ⟨row, List.mem_of_mem_take hrow, rfl⟩
  limits_rows := by
    intro rows query limit hits h
    obtain rfl := Option.some.inj h
    simp

def onlyApples (query : String) : Request where
  query := query
  documentIds := some ["d1"]

def fruitPassages (embedder : Bool) (query : String) : List (Passage ℚ) :=
  ((hybridSearch (fruitServices embedder) {} fruits (onlyApples query)).toOption).getD []

/-- With the embedder down, a question about pears is answered from the document left out. -/
theorem lexical_search_leaves_the_scope :
    ¬ ∀ (sv : Services ℚ) (settings : Settings) (corpus : Corpus ℚ) (r : Request)
      (ids : List String) (passages : List (Passage ℚ)), sv.Lawful → ids ≠ [] →
      r.documentIds = some ids → r.filters = [] →
      hybridSearch sv settings corpus r = .ok passages →
      ∀ p ∈ passages, InScope corpus r.tenantId ids p.documentId := by
  intro hall
  have hscope := hall (fruitServices false) {} fruits (onlyApples "Pears") ["d1"]
    (fruitPassages false "Pears") (fruitServices_lawful false) (by decide) rfl rfl rfl
  have hfound : (fruitPassages false "Pears").map (·.documentId) = ["d2"] := by decide
  obtain ⟨p, hp, hd2⟩ := List.mem_map.mp (hfound ▸ List.mem_singleton_self "d2")
  obtain ⟨d, -, hid, -, hmem⟩ := hscope p hp
  rw [hid, hd2] at hmem
  exact absurd hmem (by decide)

/-- Only the document asked for speaks of apples, and only the other one of pears. -/
theorem apples_stay_in_scope : fruitPassages true "Apples" ≠ [] ∧
    StaysInScope (fruitServices true).matchesQuery {} fruits (onlyApples "Apples") ["d1"] ∧
    ¬ StaysInScope (fruitServices true).matchesQuery {} fruits (onlyApples "Pears") ["d1"] := by
  have hstrategy : ∀ query, strategyOf {} (onlyApples query) = .ok "layout" := fun _ => rfl
  refine ⟨List.cons_ne_nil _ _, ?_, fun hscope => ?_⟩
  · apply (passages_in_scope_iff (List.cons_ne_nil "d1" []) rfl rfl (hstrategy "Apples")).1
    constructor
    · intro row hrow _ hmatches _
      obtain rfl | hrow := List.mem_cons.mp hrow
      · exact List.mem_singleton_self "d1"
      · obtain rfl := List.mem_singleton.mp hrow
        exact absurd hmatches (by decide)
    · intro row hrow hnamed
      obtain rfl | hrow := List.mem_cons.mp hrow
      · exact ⟨_, List.mem_cons_self, rfl, rfl, List.mem_cons_self⟩
      · obtain rfl := List.mem_singleton.mp hrow
        obtain ⟨p, hp, hid, hholds⟩ := hnamed
        have hpear : p = fruitPoint "c2" "d2" := by
          rcases List.mem_cons.mp hp with rfl | hp
          · exact absurd hid (by decide)
          · exact List.mem_singleton.mp hp
        subst hpear
        exact absurd (hholds ⟨"document_id", .any ["d1"]⟩ (by simp [scopeConditions])) (by decide)
  · -- the second chunk matches, and its document was not asked for
    have hconfined := (passages_in_scope_iff (List.cons_ne_nil "d1" []) rfl rfl
      (hstrategy "Pears")).2 (by decide) (by decide) (by decide) (by decide) hscope
    have hrow : fruitChunk "c2" "d2" "Pears rot." ∈ fruits.db.chunks :=
      List.mem_cons_of_mem _ (List.mem_singleton_self _)
    have hd2 := hconfined.rows _ hrow rfl (by decide)
      ⟨_, List.mem_cons_of_mem _ (List.mem_singleton_self _), rfl, rfl⟩
    exact absurd hd2 (by decide)

end Ragent.HybridSearch
