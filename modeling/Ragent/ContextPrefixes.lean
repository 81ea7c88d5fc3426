import Ragent.Embeddings
import Ragent.Executions
import Ragent.StageHandlers

set_option autoImplicit false

/-!
# Context prefixes

`contextualize_stage` of `ragent/ingest/stages/index.py` writes the prefixes of one strategy, the
first that is configured. `chunk_stage` has stored the chunks of all of them but `semantic`, and
`embed_stage` embeds whatever is stored. So the prefixes reach every chunk if there is no second
strategy, and the first one is stored at all.
-/
namespace Ragent.ContextPrefixes
open Runner GuardedRuns Consumer SpacedWords PyText PyNumbers SourceTypes FlattenedDocument RangeChunks
  FixedChunks RecursiveChunks LayoutChunks SemanticChunks ChunkDocument ChunkCoverage DocumentTables
  StageHandlers Executions Embeddings

def given (text : Option String) : Option String := text.filter (· ≠ "")

def numbered (label : String) : Option ℤ → String
  | some n => if n = 0 then "" else label ++ toString n
  | none => ""

def documentParts (document : Option DocumentRow) : List String :=
  let company := (given (document.bind (·.companyName))).toList
  let form := (given (document.bind (·.formType))).toList.map fun form =>
    form ++ numbered " " (document.bind (·.fiscalYear))
  let parts := company ++ form
  if parts.isEmpty then [(given (document.map (·.originalName))).getD "document"] else parts

def location (row : ChunkRow) : String :=
  let path := " > ".intercalate row.chunk.sectionPath
  (if path = "" then "" else ", section " ++ path) ++ numbered ", page " row.chunk.pageFrom

def templatePrefix (document : Option DocumentRow) (row : ChunkRow) : String :=
  "From " ++ " ".intercalate (documentParts document) ++ location row ++ "."

/-- `UPDATE chunks SET context_prefix = $1 WHERE id = $2`, as a row sees it. -/
def setContextPrefix (row : ChunkRow) (update : String × String) : ChunkRow :=
  if row.id = update.2 then
    { row with chunk := { row.chunk with contextPrefix := some update.1.toList } }
  else row

/-- `executemany` -/
def updateChunks (updates : List (String × String)) (db : Database) : Database :=
  updates.foldl (fun db update =>
    { db with chunks := db.chunks.map fun row => setContextPrefix row update }) db

def prefixUpdates (document : Option DocumentRow) (documentId strategy : String) (db : Database) :
    List (String × String) :=
  (db.loadChunks documentId strategy).map fun chunk => (templatePrefix document chunk, chunk.id)

inductive StageError
  | indexError
  | permanentError (reason : String)

/-- `contextualize_stage`: what it makes of the tables. -/
def contextualize (strategies : List String) (document : Option DocumentRow) (documentId : String)
    (db : Database) : Except StageError Database :=
  match strategies with
  | [] => .error .indexError
  | strategy :: _ =>
    if (db.loadChunks documentId strategy).isEmpty then
      .error (.permanentError "no chunks to contextualise")
    else .ok (updateChunks (prefixUpdates document documentId strategy db) db)

/-- The texts `embed_stage` embeds, under the ids of their chunks. -/
def embeddedTexts (strategies : List String) (documentId : String) (db : Database) :
    List (String × List Char) :=
  strategies.flatMap fun strategy =>
    (db.loadChunks documentId strategy).map fun row => (row.id, rowText row)

/-- A row that `chunk_stage` stores for the document, see `stored_iff_drawn`. -/
def Stored (strategies : List String) (documentId : String) (row : ChunkRow) : Prop :=
  row.documentId = documentId ∧ row.strategy ∈ strategies ∧ row.strategy ≠ "semantic"

/-- `contextualize_stage` returns, and gives every stored row a prefix that is embedded with it. -/
def ContextReaches (strategies : List String) (document : Option DocumentRow) (documentId : String)
    (db : Database) : Prop :=
  ∃ db', contextualize strategies document documentId db = .ok db' ∧
    ∀ row ∈ db'.chunks, Stored strategies documentId row →
      ∃ before, row.chunk.contextPrefix = some before ∧
        ∃ text, (row.id, text) ∈ embeddedTexts strategies documentId db' ∧ before <:+: text

theorem contextualizeStage_iff {F : Type} {settings : Settings F} {d : String} {w : World}
    (document : Option DocumentRow) :
    contextualizeStage settings d .next (.started, w) = some (.returned, w) ↔
      ∃ db, contextualize settings.chunkStrategies document d w.db = .ok db := by
  unfold contextualizeStage contextualize
  cases hstrategies : settings.chunkStrategies with
  | nil => simp
  | cons σ strategies => by_cases hchunks : w.db.loadChunks d σ = [] <;> simp [hchunks]

section
variable {updates : List (String × String)} {db : Database} {row : ChunkRow}

theorem updateChunks_chunks (updates : List (String × String)) (db : Database) :
    (updateChunks updates db).chunks = db.chunks.map fun row => updates.foldl setContextPrefix row := by
  unfold updateChunks
  induction updates generalizing db with
  | nil => simp
  | cons update updates ih =>
    rw [List.foldl_cons, ih, List.map_map]
    rfl

theorem setContextPrefix_of_eq {update : String × String} (h : row.id = update.2) :
    (setContextPrefix row update).chunk.contextPrefix = some update.1.toList := by
  unfold setContextPrefix
  rw [if_pos h]

theorem setContextPrefix_of_ne {update : String × String} (h : row.id ≠ update.2) :
    setContextPrefix row update = row := if_neg h

theorem updated_keys (updates : List (String × String)) (row : ChunkRow) :
    (updates.foldl setContextPrefix row).id = row.id ∧
      (updates.foldl setContextPrefix row).documentId = row.documentId ∧
      (updates.foldl setContextPrefix row).strategy = row.strategy := by
  induction updates generalizing row with
  | nil => exact ⟨rfl, rfl, rfl⟩
  | cons update updates ih =>
    have hone : (setContextPrefix row update).id = row.id ∧
        (setContextPrefix row update).documentId = row.documentId ∧
        (setContextPrefix row update).strategy = row.strategy := by
      unfold setContextPrefix
      split_ifs
      · exact ⟨rfl, rfl, rfl⟩
      · exact ⟨rfl, rfl, rfl⟩
    rw [List.foldl_cons]
    rcases ih (setContextPrefix row update) with ⟨hid, hdocument, hstrategy⟩
    exact ⟨hid.trans hone.1, hdocument.trans hone.2.1, hstrategy.trans hone.2.2⟩

theorem updated_of_not_mem (h : row.id ∉ updates.map (·.2)) :
    updates.foldl setContextPrefix row = row := by
  induction updates with
  | nil => rfl
  | cons update updates ih =>
    rw [List.map_cons, List.mem_cons, not_or] at h
    rw [List.foldl_cons, setContextPrefix_of_ne h.1]
    exact ih h.2

theorem updated_of_mem (h : row.id ∈ updates.map (·.2)) :
    ∃ update ∈ updates,
      (updates.foldl setContextPrefix row).chunk.contextPrefix = some update.1.toList := by
  induction updates using List.reverseRecOn with
  | nil => cases h
  | append_singleton updates update ih =>
    have hkeys := (updated_keys updates row).1
    rw [List.foldl_append, List.foldl_cons, List.foldl_nil]
    by_cases hid : row.id = update.2
    · exact ⟨update, by simp, setContextPrefix_of_eq (hkeys.trans hid)⟩
    · have hmem : row.id ∈ updates.map (·.2) := by
        rw [List.map_append, List.mem_append] at h
        exact h.resolve_right fun hlast => hid (List.mem_singleton.mp hlast)
      rcases ih hmem with ⟨u, hu, hbefore⟩
      rw [setContextPrefix_of_ne fun heq => hid (hkeys.symm.trans heq)]
      exact ⟨u, List.mem_append_left _ hu, hbefore⟩

end

theorem templatePrefix_ne_nil (document : Option DocumentRow) (row : ChunkRow) :
    (templatePrefix document row).toList ≠ [] := by
  unfold templatePrefix
  simp

theorem infix_rowText {row : ChunkRow} {before : List Char}
    (h : row.chunk.contextPrefix = some before) (hne : before ≠ []) : before <:+: rowText row := by
  have hempty : before.isEmpty = false := List.isEmpty_eq_false_iff.mpr hne
  have heq : rowText row = before ++ ("\n\n".toList ++ row.chunk.text) := by
    simp [rowText, embeddingText, h, hempty]
  rw [heq]
  exact (List.prefix_append _ _).isInfix

section
variable {α F : Type} [Glyph α] [PyFloat F]

structure Bare (blocks : List (SourceBlock α)) (chunks : List (Chunk α)) : Prop where
  noPrefix : ∀ c ∈ chunks, c.contextPrefix = none
  nil_iff : chunks = [] ↔ prepare blocks = []

theorem nil_iff_of_covers {blocks : List (SourceBlock α)} {chunks : List (Chunk α)}
    (h : Covers blocks chunks) : chunks = [] ↔ prepare blocks = [] := by
  constructor
  · rintro rfl
    rw [List.eq_nil_iff_forall_not_mem]
    intro b hb
    rcases (h.blockIds b.id).mpr ((exists_prepare_iff blocks b.id).mp ⟨b, hb, rfl⟩) with ⟨c, hc, -⟩
    exact List.not_mem_nil hc
  · intro hnil
    rw [List.eq_nil_iff_forall_not_mem]
    intro c hc
    rcases List.exists_mem_of_ne_nil _ (h.nonempty c hc) with ⟨id, hid⟩
    rcases (exists_prepare_iff blocks id).mpr ((h.blockIds id).mp ⟨c, hc, hid⟩) with ⟨b, hb, -⟩
    rw [hnil] at hb
    exact List.not_mem_nil hb

theorem noPrefix_of_ranges {blocks : List (SourceBlock α)} {strategy : String}
    {countTokens : TokenCounter} {rs : List (ℕ × ℕ)} {c : Chunk α}
    (hc : c ∈ appendRanges (flatten (prepare blocks)).1 (flatten (prepare blocks)).2 strategy
      countTokens [] rs) : c.contextPrefix = none := by
  rw [appendRanges_eq strategy countTokens (flatten_flattened (prepare blocks)), List.nil_append] at hc
  rcases List.mem_mapIdx.mp hc with ⟨i, hi, rfl⟩
  rfl

theorem Bare.withPrevious {blocks : List (SourceBlock α)} {chunks : List (Chunk α)}
    {f : Chunk α → Chunk α → Chunk α} (h : Bare blocks chunks)
    (hf : ∀ prev cur, cur.contextPrefix = none → (f prev cur).contextPrefix = none) :
    Bare blocks (withPrevious f chunks) := by
  constructor
  · intro c hc
    rcases mem_withPrevious.mp hc with hhead | ⟨prev, cur, hsucc, rfl⟩
    · exact h.noPrefix c (List.mem_of_mem_head? hhead)
    · exact hf prev cur (h.noPrefix cur (hsucc.subset (by simp)))
  · rw [← h.nil_iff]
    cases chunks with
    | nil => rfl
    | cons first rest => exact iff_of_false (List.cons_ne_nil _ _) (List.cons_ne_nil _ _)

theorem overlapChunk_noPrefix (countTokens : TokenCounter) (overlap : ℤ) (prev : Chunk α)
    {cur : Chunk α} (h : cur.contextPrefix = none) :
    (overlapChunk countTokens overlap prev cur).contextPrefix = none := by
  unfold overlapChunk
  simp only
  split_ifs
  · exact h
  · rfl

theorem overlapBlocks_noPrefix (countTokens : TokenCounter) (overlap : ℤ)
    (prepared : List (SourceBlock α)) (prev : Chunk α) {cur : Chunk α}
    (h : cur.contextPrefix = none) :
    (overlapBlocks countTokens overlap prepared prev cur).contextPrefix = none := by
  unfold overlapBlocks
  simp only
  split_ifs
  · exact h
  · exact h
  · unfold assemble
    simp only
    split_ifs
    · exact h
    · rfl

theorem packedChunks_bare (countTokens : TokenCounter) (target : ℤ) (blocks : List (SourceBlock α)) :
    Bare blocks (packedChunks countTokens target blocks) := by
  rcases packedChunks_tiles countTokens target blocks with ⟨rs, hrs, heq⟩
  rw [heq]
  exact ⟨fun c hc => noPrefix_of_ranges hc,
    nil_iff_of_covers (covers_of_ranges "recursive" countTokens (coveringCuts_of_tiles hrs))⟩

theorem packedBlocks_bare (countTokens : TokenCounter) (target : ℤ) (blocks : List (SourceBlock α)) :
    Bare blocks (packedBlocks countTokens target blocks) := by
  rcases packedBlocks_groups countTokens target blocks with ⟨groups, heq, hflat, hgroups⟩
  rw [heq]
  constructor
  · intro c hc
    rcases mem_mapIdx_groups hc with ⟨i, g, -, rfl⟩
    rfl
  · apply nil_iff_of_covers
    apply covers_of_groups countTokens fun g hg => (hgroups g hg).ne_nil
    intro b
    rw [← hflat, List.mem_flatten]

theorem chunkDocument_bare {strategy : String} {blocks : List (SourceBlock α)} {o : ChunkOptions F}
    {chunks : List (Chunk α)} (h : chunkDocument strategy blocks o = .ok chunks) :
    Bare blocks chunks := by
  rcases chunkDocument_eq_ok h with ⟨fn, -, hchunks⟩
  cases fn with
  | fixed =>
    cases hchunks
    rcases chunkFixed_covering F o.countTokens o.targetTokens o.overlapTokens blocks with ⟨rs, hrs, heq⟩
    rw [heq]
    exact ⟨fun c hc => noPrefix_of_ranges hc,
      nil_iff_of_covers (covers_of_ranges "fixed" o.countTokens hrs)⟩
  | recursive =>
    cases hchunks
    have hpacked := packedChunks_bare o.countTokens o.targetTokens blocks
    unfold chunkRecursive
    simp only
    split_ifs
    · exact hpacked.withPrevious fun prev _ => overlapChunk_noPrefix _ _ prev
    · exact hpacked
  | layout =>
    cases hchunks
    have hpacked := packedBlocks_bare o.countTokens o.targetTokens blocks
    unfold chunkLayout
    simp only
    split_ifs
    · exact hpacked.withPrevious fun prev _ => overlapBlocks_noPrefix _ _ _ prev
    · exact hpacked
  | semantic =>
    rcases chunkSemantic_tiles o.countTokens o.targetTokens hchunks with ⟨rs, hrs, rfl⟩
    exact ⟨fun c hc => noPrefix_of_ranges hc,
      nil_iff_of_covers (covers_of_ranges "semantic" o.countTokens (coveringCuts_of_tiles hrs))⟩

end

structure BareRows (db : Database) (documentId : String) (blocks : List (SourceBlock Char))
    (strategy : String) : Prop where
  noPrefix : ∀ row ∈ db.chunks, row.documentId = documentId → row.strategy = strategy →
    row.chunk.contextPrefix = none
  exists_iff : (∃ row ∈ db.chunks, row.documentId = documentId ∧ row.strategy = strategy) ↔
    prepare blocks ≠ []

structure NewRows (issued : List String) (db : Database) (documentId : String)
    (done : List String) : Prop where
  drawn : issued ⊆ db.issued
  stored_iff : ∀ row ∈ db.chunks, Stored done documentId row ↔ row.id ∉ issued

section
variable {db db' : Database} {d σ : String} {blocks : List (SourceBlock Char)}
  {chunks : List (Chunk Char)} {ids issued done : List String}

theorem newRows_nil (h : db.Keys) : NewRows db.issued db d [] := by
  refine ⟨List.Subset.refl _, fun row hrow => iff_of_false ?_ ?_⟩
  · exact fun hstored => List.not_mem_nil hstored.2.1
  · exact fun hnew => hnew (h.issued row hrow)

theorem NewRows.skip (h : NewRows issued db d done) : NewRows issued db d (done ++ ["semantic"]) := by
  refine ⟨h.drawn, fun row hrow => Iff.trans ?_ (h.stored_iff row hrow)⟩
  unfold Stored
  rw [List.mem_append, List.mem_singleton]
  constructor
  · rintro ⟨hd, hold | hsemantic, hne⟩
    · exact ⟨hd, hold, hne⟩
    · exact absurd hsemantic hne
  · exact fun ⟨hd, hold, hne⟩ => ⟨hd, Or.inl hold, hne⟩

theorem NewRows.store (h : NewRows issued db d done) (hσ : σ ≠ "semantic")
    (hdraws : db.Draws ids chunks.length) (hdb : db.replaceChunks d σ chunks ids = some db') :
    NewRows issued db' d (done ++ [σ]) := by
  have hreplaced := Database.replaced_of_replaceChunks hdb
  refine ⟨hreplaced.issued ▸ List.subset_append_of_subset_left ids h.drawn, ?_⟩
  intro row hrow
  unfold Stored
  rw [List.mem_append, List.mem_singleton]
  rcases (hreplaced.mem_chunks row).mp hrow with ⟨hold, hkept⟩ | ⟨hd, hstrategy, hpair⟩
  · rw [← h.stored_iff row hold]
    constructor
    · rintro ⟨hd, hdone | hsame, hne⟩
      · exact ⟨hd, hdone, hne⟩
      · exact absurd ⟨hd, hsame⟩ hkept
    · exact fun ⟨hd, hdone, hne⟩ => ⟨hd, Or.inl hdone, hne⟩
  · have hid : row.id ∈ ids := (List.of_mem_zip hpair).2
    apply iff_of_true
    · exact ⟨hd, Or.inr hstrategy, hstrategy ▸ hσ⟩
    · exact fun hdrawn => hdraws.2.2 _ hid (h.drawn hdrawn)

theorem bareRows_of_replaceChunks (h : Bare blocks chunks) (hlength : ids.length = chunks.length)
    (hdb : db.replaceChunks d σ chunks ids = some db') : BareRows db' d blocks σ := by
  have hreplaced := Database.replaced_of_replaceChunks hdb
  have hnew : ∀ row ∈ db'.chunks, row.documentId = d → row.strategy = σ → row.chunk ∈ chunks := by
    intro row hrow hd hσ
    rcases (hreplaced.mem_chunks row).mp hrow with hold | hnew
    · exact absurd ⟨hd, hσ⟩ hold.2
    · exact (List.of_mem_zip hnew.2.2).1
  constructor
  · exact fun row hrow hd hσ => h.noPrefix _ (hnew row hrow hd hσ)
  · rw [Ne, ← h.nil_iff]
    constructor
    · rintro ⟨row, hrow, hd, hσ⟩
      exact List.ne_nil_of_mem (hnew row hrow hd hσ)
    · intro hchunks
      cases hzip : chunks.zip ids with
      | nil =>
        rcases List.zip_eq_nil_iff.mp hzip with hnil | hnil
        · exact absurd hnil hchunks
        · rw [hnil, List.length_nil, eq_comm, List.length_eq_zero_iff] at hlength
          exact absurd hlength hchunks
      | cons p pairs =>
        have hp : p ∈ chunks.zip ids := hzip ▸ List.mem_cons_self
        refine ⟨⟨p.2, d, σ, p.1⟩, (hreplaced.mem_chunks _).mpr (Or.inr ⟨rfl, rfl, hp⟩), rfl, rfl⟩

theorem BareRows.replaceChunks {τ : String} (h : BareRows db d blocks σ) (hne : τ ≠ σ)
    (hdb : db.replaceChunks d τ chunks ids = some db') : BareRows db' d blocks σ := by
  have hreplaced := Database.replaced_of_replaceChunks hdb
  have hsame : ∀ row, row.strategy = σ → (row ∈ db'.chunks ↔ row ∈ db.chunks) := by
    intro row hσ
    rw [hreplaced.mem_chunks]
    constructor
    · rintro (hold | hnew)
      · exact hold.1
      · exact absurd (hnew.2.1.symm.trans hσ) hne
    · exact fun hrow => Or.inl ⟨hrow, fun hgone => hne (hgone.2.symm.trans hσ)⟩
  constructor
  · exact fun row hrow hd hσ => h.noPrefix row ((hsame row hσ).mp hrow) hd hσ
  · rw [← h.exists_iff]
    constructor
    · rintro ⟨row, hrow, hd, hσ⟩
      exact ⟨row, (hsame row hσ).mp hrow, hd, hσ⟩
    · rintro ⟨row, hrow, hd, hσ⟩
      exact ⟨row, (hsame row hσ).mpr hrow, hd, hσ⟩

end

section
variable {F : Type} [PyFloat F] {settings : Settings F} {m : StageMessage} {w w' : World} {c : Choice}
  {k k' : Execution}

theorem keys_of_step (h : w.db.Keys) (hstep : Step settings m w c k k' w') : w'.db.Keys := by
  cases hstep with
  | parses =>
    exact ⟨h.nodup, fun row hrow => List.mem_append_left _ (List.mem_append_left _ (h.issued row hrow))⟩
  | parsesFlow => exact ⟨h.nodup, fun row hrow => List.mem_append_left _ (h.issued row hrow)⟩
  | stores _ _ _ hdraws hdb => exact h.replaceChunks hdraws hdb
  | _ => exact ⟨h.nodup, h.issued⟩

theorem keys_of_reachable {s : System World Execution}
    (hreach : Reachable Untouched (exec (handlers settings)) (fun _ _ => True) s) :
    s.world.db.Keys := by
  refine (world_invariant (I := fun w => w.db.Keys) (P := fun _ _ _ => True) ?_ ?_ ?_ ?_ hreach).1
  · rintro s ⟨hinit, documents, -, hworld⟩
    rw [hworld]
    refine ⟨⟨List.nodup_nil, fun row hrow => absurd hrow List.not_mem_nil⟩, ?_⟩
    rintro m h ⟨run, w, hmem⟩
    simp [hinit.2] at hmem
  · exact fun world m => trivial
  · intro s run i c m w h h' world' _ _ hkeys _ hmove
    exact ⟨keys_of_step hkeys (step_of_move hmove), trivial, fun _ _ _ => trivial⟩
  · exact fun world documentId hkeys => ⟨⟨hkeys.nodup, hkeys.issued⟩, fun _ _ _ => trivial⟩

/-- The strategies an execution of `chunk_stage` is through with have their rows, under ids that were
    not drawn before. -/
def Chunked (settings : Settings F) (d : String) (issued : List String) (w : World) :
    Execution → Prop
  | .started => NewRows issued w.db d []
  | .chunking blocks left => ∃ done, settings.chunkStrategies = done ++ left ∧
      NewRows issued w.db d done ∧ ∀ σ ∈ done, σ ≠ "semantic" → BareRows w.db d blocks σ
  | .returned => NewRows issued w.db d settings.chunkStrategies ∧
      ∃ blocks, ∀ σ ∈ settings.chunkStrategies, σ ≠ "semantic" → BareRows w.db d blocks σ
  | _ => False

theorem chunked_of_step {issued : List String} (hstage : m.stage = "chunk")
    (h : Chunked settings m.documentId issued w k) (hstep : Step settings m w c k k' w') :
    Chunked settings m.documentId issued w' k' := by
  cases hstep with
  | loadsBlocks => exact ⟨[], rfl, h, fun σ hσ => absurd hσ List.not_mem_nil⟩
  | @skips _ blocks left =>
    rcases h with ⟨done, hdone, hnew, hrows⟩
    refine ⟨done ++ ["semantic"], by simpa using hdone, hnew.skip, ?_⟩
    intro σ hσ hne
    rcases List.mem_append.mp hσ with hold | hlast
    · exact hrows σ hold hne
    · exact absurd (List.mem_singleton.mp hlast) hne
  | @stores _ blocks τ left ids chunks db hτ hchunks hdraws hdb =>
    rcases h with ⟨done, hdone, hnew, hrows⟩
    refine ⟨done ++ [τ], by simpa using hdone, hnew.store hτ hdraws hdb, ?_⟩
    intro σ hσ hne
    by_cases hsame : τ = σ
    · subst hsame
      exact bareRows_of_replaceChunks (chunkDocument_bare hchunks) hdraws.1 hdb
    · have hold : σ ∈ done := by
        rcases List.mem_append.mp hσ with hold | hlast
        · exact hold
        · exact absurd (List.mem_singleton.mp hlast).symm hsame
      exact (hrows σ hold hne).replaceChunks hsame hdb
  | @chunked _ blocks =>
    rcases h with ⟨done, hdone, hnew, hrows⟩
    rw [List.append_nil] at hdone
    exact ⟨hdone ▸ hnew, blocks, hdone ▸ hrows⟩
  | detects hother => exact absurd (hother.symm.trans hstage) (by decide)
  | refuses hother => exact absurd (hother.symm.trans hstage) (by decide)
  | passes hother =>
    rw [hstage] at hother
    exact absurd hother (by decide)
  | parses hother | parsesFlow hother => exact absurd (hother.symm.trans hstage) (by decide)
  | contextualizes hother => exact absurd (hother.symm.trans hstage) (by decide)
  | embeds hother | embedsNothing hother | loadsChunks hother | noEmbeddings hother =>
    exact absurd (hother.symm.trans hstage) (by decide)
  | clears hother | upserts hother | embedded hother =>
    exact absurd (hother.symm.trans hstage) (by decide)

variable (settings m) in
def handlerStep (x : Execution × World) (c : Choice) : Option (Execution × World) :=
  move settings m c x

theorem chunked_of_run {choices : List Choice} (hstage : m.stage = "chunk") (hkeys : w.db.Keys)
    (hrun : run (handlerStep settings m) (.started, w) choices = some (.returned, w')) :
    w'.db.Keys ∧ Chunked settings m.documentId w.db.issued w' .returned := by
  have hreach : Reachable (· = (Execution.started, w)) (handlerStep settings m) (fun _ _ => True)
      (.returned, w') := reachable_of_run (.start rfl) (fun _ _ _ => trivial) hrun
  exact hreach.invariant
    (I := fun x => x.2.db.Keys ∧ Chunked settings m.documentId w.db.issued x.2 x.1)
    (by
      rintro x rfl
      exact ⟨hkeys, newRows_nil hkeys⟩)
    (by
      rintro x y c ⟨hk, hc⟩ - hexec
      have hstep := step_of_move hexec
      exact ⟨keys_of_step hk hstep, chunked_of_step hstage hc hstep⟩)

/-- What counts as stored is what the run has inserted. -/
theorem stored_iff_drawn {choices : List Choice} (hstage : m.stage = "chunk") (hkeys : w.db.Keys)
    (hrun : run (handlerStep settings m) (.started, w) choices = some (.returned, w'))
    {row : ChunkRow} (hrow : row ∈ w'.db.chunks) :
    Stored settings.chunkStrategies m.documentId row ↔ row.id ∉ w.db.issued :=
  (chunked_of_run hstage hkeys hrun).2.1.stored_iff row hrow

end

def OnlyFirst (strategies : List String) : Prop :=
  ∃ σ, strategies.head? = some σ ∧ σ ≠ "semantic" ∧ ∀ τ ∈ strategies, τ = σ ∨ τ = "semantic"

section
variable {strategies : List String} {document : Option DocumentRow} {d : String} {db : Database}

theorem mem_embeddedTexts {row : ChunkRow} (hrow : row ∈ db.chunks) (hd : row.documentId = d)
    (hσ : row.strategy ∈ strategies) : (row.id, rowText row) ∈ embeddedTexts strategies d db := by
  apply List.mem_flatMap.mpr
  exact ⟨row.strategy, hσ, List.mem_map_of_mem (Database.mem_loadChunks.mpr ⟨hrow, hd, rfl⟩)⟩

theorem mem_prefixUpdates {σ id : String} :
    id ∈ (prefixUpdates document d σ db).map (·.2) ↔
      ∃ row ∈ db.chunks, (row.documentId = d ∧ row.strategy = σ) ∧ row.id = id := by
  unfold prefixUpdates
  rw [List.map_map, List.mem_map]
  simp only [Database.mem_loadChunks, and_assoc, Function.comp_apply]

theorem contextualize_of_row {σ : String} {rest : List String} {row : ChunkRow}
    (hrow : row ∈ db.chunks) (hd : row.documentId = d) (hσ : row.strategy = σ) :
    contextualize (σ :: rest) document d db =
      .ok (updateChunks (prefixUpdates document d σ db) db) := by
  have hne : (db.loadChunks d σ).isEmpty = false := by
    rw [List.isEmpty_eq_false_iff]
    exact List.ne_nil_of_mem (Database.mem_loadChunks.mpr ⟨hrow, hd, hσ⟩)
  simp [contextualize, hne]

theorem contextReaches_of_onlyFirst (document : Option DocumentRow) (h : OnlyFirst strategies)
    (hstored : ∃ row ∈ db.chunks, Stored strategies d row) :
    ContextReaches strategies document d db := by
  rcases h with ⟨σ, hhead, hσ, hrest⟩
  rcases List.head?_eq_some_iff.mp hhead with ⟨rest, rfl⟩
  have hfirst : ∀ row, Stored (σ :: rest) d row → row.strategy = σ := fun row hrow =>
    (hrest row.strategy hrow.2.1).resolve_right hrow.2.2
  rcases hstored with ⟨row, hrow, hkept⟩
  refine ⟨_, contextualize_of_row hrow hkept.1 (hfirst row hkept), ?_⟩
  intro row' hrow' hstored'
  have hstrategy := hfirst row' hstored'
  have hembedded := mem_embeddedTexts hrow' hstored'.1 hstored'.2.1
  rw [updateChunks_chunks] at hrow'
  rcases List.mem_map.mp hrow' with ⟨old, hold, rfl⟩
  rcases updated_keys (prefixUpdates document d σ db) old with ⟨-, hdocument, hsame⟩
  have hmem : old.id ∈ (prefixUpdates document d σ db).map (·.2) := mem_prefixUpdates.mpr
    ⟨old, hold, ⟨hdocument.symm.trans hstored'.1, hsame.symm.trans hstrategy⟩, rfl⟩
  rcases updated_of_mem hmem with ⟨update, hupdate, hbefore⟩
  have hne : update.1.toList ≠ [] := by
    rcases List.mem_map.mp hupdate with ⟨chunk, -, rfl⟩
    exact templatePrefix_ne_nil document chunk
  exact ⟨_, hbefore, _, hembedded, infix_rowText hbefore hne⟩

/-- The rows of a strategy that is not the first keep no prefix. -/
theorem onlyFirst_of_contextReaches (hkeys : db.Keys) {blocks : List (SourceBlock Char)}
    (hrows : ∀ σ ∈ strategies, σ ≠ "semantic" → BareRows db d blocks σ)
    (hstored : ∃ row ∈ db.chunks, Stored strategies d row)
    (h : ContextReaches strategies document d db) : OnlyFirst strategies := by
  rcases h with ⟨db', hdb, hreaches⟩
  have hcontent : prepare blocks ≠ [] := by
    rcases hstored with ⟨row, hrow, hd, hσ, hne⟩
    exact (hrows row.strategy hσ hne).exists_iff.mp ⟨row, hrow, hd, rfl⟩
  unfold contextualize at hdb
  cases strategies with
  | nil => cases hdb
  | cons σ rest =>
    simp only at hdb
    split_ifs at hdb
    cases hdb
    have hfirst : ∀ τ ∈ σ :: rest, τ ≠ "semantic" → τ = σ := by
      intro τ hτ hne
      rcases (hrows τ hτ hne).exists_iff.mpr hcontent with ⟨row, hrow, hd, rfl⟩
      rcases updated_keys (prefixUpdates document d σ db) row with ⟨-, hdocument, hsame⟩
      have hnew := updateChunks_chunks (prefixUpdates document d σ db) db
      rcases hreaches _ (hnew ▸ List.mem_map_of_mem hrow)
        ⟨hdocument.trans hd, hsame ▸ hτ, hsame ▸ hne⟩ with ⟨before, hbefore, -⟩
      -- without an update the row is as `chunk_stage` has left it
      by_cases hmem : row.id ∈ (prefixUpdates document d σ db).map (·.2)
      · rcases mem_prefixUpdates.mp hmem with ⟨chunk, hchunk, ⟨-, hσ⟩, hid⟩
        rw [← List.inj_on_of_nodup_map hkeys.nodup hchunk hrow hid]
        exact hσ
      · rw [updated_of_not_mem hmem, (hrows _ hτ hne).noPrefix row hrow hd rfl] at hbefore
        cases hbefore
    rcases hstored with ⟨row, hrow, hd, hσ, hne⟩
    refine ⟨σ, rfl, fun heq => hne ((hfirst _ hσ hne).trans heq), ?_⟩
    intro τ hτ
    by_cases hsemantic : τ = "semantic"
    · exact Or.inr hsemantic
    · exact Or.inl (hfirst τ hτ hsemantic)

end

/-- Behind `chunk_stage`, the context reaches the chunks it has stored if and only if the first
    configured strategy is not `semantic`, and no other one but `semantic` is configured. -/
theorem context_reaches_iff {F : Type} [PyFloat F] {settings : Settings F} {m : StageMessage}
    {w w' : World} {choices : List Choice} (document : Option DocumentRow)
    (hstage : m.stage = "chunk") (hkeys : w.db.Keys)
    (hrun : run (handlerStep settings m) (.started, w) choices = some (.returned, w'))
    (hstored : ∃ row ∈ w'.db.chunks, Stored settings.chunkStrategies m.documentId row) :
    ContextReaches settings.chunkStrategies document m.documentId w'.db ↔
      OnlyFirst settings.chunkStrategies := by
  rcases chunked_of_run hstage hkeys hrun with ⟨hkeys', -, blocks, hrows⟩
  constructor
  · exact onlyFirst_of_contextReaches hkeys' hrows hstored
  · exact fun h => contextReaches_of_onlyFirst document h hstored

def chunkMessage : StageMessage :=
  (uploadMessage "document" "run" "v1" "trace").forStage "chunk"

def parsedWorld : World :=
  { db := ({} : Database).insertBlocks "document" [.paragraph "tmp-0" 0 "Hello." 0] ["b1"] }

theorem parsedWorld_keys : parsedWorld.db.Keys :=
  ⟨List.nodup_nil, fun _ hrow => absurd hrow List.not_mem_nil⟩

def everyStrategy : Settings ℚ :=
  { oneStrategy with chunkStrategies := ["layout", "recursive", "fixed", "semantic"] }

def seen (x : Execution × World) : Bool × List (String × String) :=
  (match x.1 with
    | .returned => true
    | _ => false,
   x.2.db.chunks.map fun row => (row.documentId, row.strategy))

theorem stored_of_seen {settings : Settings ℚ} {choices : List Choice} {d σ : String}
    {rows : List (String × String)}
    (hend : (run (handlerStep settings chunkMessage) (.started, parsedWorld) choices).map seen =
      some (true, rows)) (hmem : (d, σ) ∈ rows) (hσ : σ ∈ settings.chunkStrategies)
    (hne : σ ≠ "semantic") :
    ∃ w', run (handlerStep settings chunkMessage) (.started, parsedWorld) choices =
        some (.returned, w') ∧ ∃ row ∈ w'.db.chunks, Stored settings.chunkStrategies d row := by
  rcases Option.map_eq_some_iff.mp hend with ⟨⟨k, w'⟩, hrun, hseen⟩
  rcases Prod.mk.inj hseen with ⟨hreturned, hrows⟩
  have hk : k = .returned := by
    cases k with
    | returned => rfl
    | _ => cases hreturned
  subst hk
  rw [← hrows] at hmem
  rcases List.mem_map.mp hmem with ⟨row, hrow, heq⟩
  rcases Prod.mk.inj heq with ⟨rfl, rfl⟩
  exact ⟨w', hrun, row, hrow, rfl, hσ, hne⟩

theorem one_strategy_is_reached :
    ∃ w', run (handlerStep oneStrategy chunkMessage) (.started, parsedWorld)
        [.next, .drawn ["c1"], .next] = some (.returned, w') ∧
      (ContextReaches oneStrategy.chunkStrategies none "document" w'.db ↔
        OnlyFirst oneStrategy.chunkStrategies) := by
  have hend : (run (handlerStep oneStrategy chunkMessage) (.started, parsedWorld)
      [.next, .drawn ["c1"], .next]).map seen = some (true, [("document", "layout")]) := by
    decide +kernel
  rcases stored_of_seen hend List.mem_cons_self List.mem_cons_self (by decide) with
    ⟨w', hrun, hstored⟩
  exact ⟨w', hrun, context_reaches_iff none rfl parsedWorld_keys hrun hstored⟩

/-- Of the four strategies only the first one gets prefixes. -/
theorem a_second_strategy_stays_bare :
    ¬ ∀ (settings : Settings ℚ) (document : Option DocumentRow) (m : StageMessage) (w w' : World)
      (choices : List Choice), settings.chunkStrategies ≠ [] →
        (∀ σ ∈ settings.chunkStrategies, (strategyOf σ).isSome) → m.stage = "chunk" → w.db.Keys →
        run (handlerStep settings m) (.started, w) choices = some (.returned, w') →
        (∃ row ∈ w'.db.chunks, Stored settings.chunkStrategies m.documentId row) →
          ContextReaches settings.chunkStrategies document m.documentId w'.db := by
  intro hall
  have hend : (run (handlerStep everyStrategy chunkMessage) (.started, parsedWorld)
      [.next, .drawn ["c1"], .drawn ["c2"], .drawn ["c3"], .next, .next]).map seen =
        some (true, [("document", "layout"), ("document", "recursive"), ("document", "fixed")]) := by
    decide +kernel
  rcases stored_of_seen hend List.mem_cons_self List.mem_cons_self (by decide) with
    ⟨w', hrun, hstored⟩
  rcases chunked_of_run rfl parsedWorld_keys hrun with ⟨hkeys, -, blocks, hrows⟩
  have hreaches := hall everyStrategy none chunkMessage parsedWorld w' _ (by decide) (by decide) rfl
    parsedWorld_keys hrun hstored
  rcases onlyFirst_of_contextReaches hkeys hrows hstored hreaches with ⟨σ, hhead, -, hrest⟩
  cases Option.some.inj hhead
  exact absurd (hrest "recursive" (by decide)) (by decide)

end Ragent.ContextPrefixes
