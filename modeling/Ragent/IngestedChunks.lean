import Ragent.BlockRenaming
import Ragent.IndexAgreement
import Ragent.StageContracts
import Ragent.TableIntegrity

set_option autoImplicit false

/-!
# The chunks of an ingested document

Ingest in one go parses the source and chunks the blocks, once for each strategy. The system does it
in stages that crash, are delivered again and overlap, and the ids of the blocks change with every
parse. What it stores is what ingest in one go would, up to those ids; context prefixes, which come
later, aside.
-/
namespace Ragent.IngestedChunks
open Formats Stages Runner GuardedRuns Consumer StageOrder StageContracts SourceTypes PyNumbers
  FlattenedDocument ChunkDocument DocumentTables Database StageHandlers TableIntegrity BlockRenaming

section
variable {F : Type} [PyFloat F] (settings : StageHandlers.Settings F)
variable (extracted : String → List (SourceBlock Char))

/-- The blocks of a document as `chunk_stage` loads them, under the ids `ids`. -/
def sourceBlocks (d : String) (ids : List String) : List (SourceBlock Char) :=
  (storedBlocks (extracted d) ids).insertionSort inOrder

def Identifies (d : String) (ids : List String) : Prop :=
  ids.Nodup ∧ ids.length = (extracted d).length

def ChunkedAs (w : World) (d σ : String) : Prop :=
  ∃ ids chunks, Identifies extracted d ids ∧
    chunkDocument σ (sourceBlocks extracted d ids) settings.options = .ok chunks ∧
    (w.db.loadChunks d σ).map (·.chunk) = chunks

/-- For each strategy but the semantic one, which is left to the bake-off. -/
def Chunked (w : World) (d : String) : Prop :=
  ∀ σ ∈ settings.chunkStrategies, σ ≠ "semantic" → ChunkedAs settings extracted w d σ

variable {extracted} {d σ : String} {ids ids' : List String}

theorem sourceBlocks_named (f : String → String) :
    sourceBlocks extracted d (ids.map f) = (sourceBlocks extracted d ids).map (named f) := by
  have hrows : storedBlocks (extracted d) (ids.map f) =
      (storedBlocks (extracted d) ids).map (named f) := by
    unfold storedBlocks
    rw [List.zip_map_right, List.map_map, List.map_map]
    rfl
  unfold sourceBlocks
  rw [hrows]
  exact (List.map_insertionSort inOrder inOrder (named f) _ fun _ _ _ _ => Iff.rfl).symm

theorem sourceBlocks_ids_nodup (h : Identifies extracted d ids) :
    ((sourceBlocks extracted d ids).map (·.id)).Nodup := by
  have hperm : (sourceBlocks extracted d ids).Perm (storedBlocks (extracted d) ids) :=
    List.perm_insertionSort _ _
  have hids : (storedBlocks (extracted d) ids).map (·.id) = ids := by
    rw [storedBlocks, List.map_map]
    exact List.map_snd_zip h.2.le
  rw [(hperm.map _).nodup_iff, hids]
  exact h.1

/-- Other ids, other names for the blocks of the same chunks. -/
theorem chunks_of_ids (h : Identifies extracted d ids) (h' : Identifies extracted d ids')
    {o : ChunkOptions F} {chunks : List (Chunk Char)}
    (hchunks : chunkDocument σ (sourceBlocks extracted d ids) o = .ok chunks) :
    ∃ chunks' f, chunkDocument σ (sourceBlocks extracted d ids') o = .ok chunks' ∧
      Function.Injective f ∧ chunks = chunks'.map (renamed f) := by
  obtain ⟨f, rfl⟩ := exists_perm_map_eq h'.1 h.1 (h'.2.trans h.2.symm)
  rw [sourceBlocks_named, chunkDocument_named f.injective] at hchunks
  cases hreference : chunkDocument σ (sourceBlocks extracted d ids') o with
  | error e =>
    rw [hreference] at hchunks
    cases hchunks
  | ok chunks' =>
    rw [hreference] at hchunks
    cases hchunks
    exact ⟨chunks', f, rfl, f.injective, rfl⟩

/-- What the two parse stages read out of the source of a document is always the same. -/
def Faithful (extracted : String → List (SourceBlock Char)) (m : StageMessage) : Choice → Prop
  | .parsed _ _ blocks _ => blocks = extracted m.documentId
  | _ => True

def ReadsSource (extracted : String → List (SourceBlock Char)) (s : System World Execution) :
    Event Choice → Prop
  | .act run i (.work c) => ∀ t, (s.runs run).tokens[i]? = some t → Faithful extracted t.message c
  | _ => True

open Classical in
noncomputable def faithfulHandlers (extracted : String → List (SourceBlock Char)) :
    Handlers World Execution Choice :=
  { handlers settings with
    move := fun m c x => if Faithful extracted m c then move settings m c x else none }

variable {settings}

theorem exec_faithful {s : System World Execution} {e : Event Choice}
    (h : ReadsSource extracted s e) :
    Consumer.exec (faithfulHandlers settings extracted) s e =
      Consumer.exec (handlers settings) s e := by
  cases e with
  | act run i a =>
    apply Option.bind_congr
    intro t ht
    have hact : act (faithfulHandlers settings extracted) s.live t (s.runs run).record s.world a =
        act (handlers settings) s.live t (s.runs run).record s.world a := by
      cases a with
      | work c =>
        have hmove : (faithfulHandlers settings extracted).move t.message c =
            (handlers settings).move t.message c := funext fun x => if_pos (h t ht)
        simp only [act, hmove]
      | _ => rfl
    rw [hact]
  | _ => rfl

theorem faithful_of_reachable {s : System World Execution}
    (h : Reachable Untouched (Consumer.exec (handlers settings)) (ReadsSource extracted) s) :
    Reachable Untouched (Consumer.exec (faithfulHandlers settings extracted)) (fun _ _ => True)
      s := by
  induction h with
  | start hinit => exact .start hinit
  | next _ hok hexec ih => exact ih.next trivial ((exec_faithful hok).trans hexec)

def Filed (extracted : String → List (SourceBlock Char)) (w : World) (d : String) : Prop :=
  ∃ ids, Identifies extracted d ids ∧ (w.db.blocks.filter (·.documentId = d)).map (·.block) =
    storedBlocks (extracted d) ids

variable (settings extracted) in
/-- Blocks and chunks are those of the source if there are any, and those of a document that is ready
    are there. -/
structure Sound (w : World) : Prop where
  blocks : ∀ d, w.db.blocks.filter (·.documentId = d) = [] ∨ Filed extracted w d
  chunks : ∀ d σ, w.db.loadChunks d σ = [] ∨ ChunkedAs settings extracted w d σ
  ready : ∀ d, w.db.documents d = some .ready → Chunked settings extracted w d

variable (settings extracted) in
def Stands (w : World) (m : StageMessage) : Execution → Prop
  | .chunking blocks left => (∃ ids, Identifies extracted m.documentId ids ∧
      blocks = sourceBlocks extracted m.documentId ids) ∧
      ∀ σ ∈ settings.chunkStrategies, σ ∉ left → σ ≠ "semantic" →
        ChunkedAs settings extracted w m.documentId σ
  | .returned => m.stage = "chunk" → Chunked settings extracted w m.documentId
  | _ => True

variable (settings extracted) in
def terms : Terms World Execution where
  Holds := Sound settings extracted
  Given _ _ := True
  During w m k := (m.stage = "contextualize" ∨ m.stage = "embed" →
    Chunked settings extracted w m.documentId) ∧ Stands settings extracted w m k
  Done w m := m.stage = "chunk" ∨ m.stage = "contextualize" →
    Chunked settings extracted w m.documentId

variable {w w' : World} {m : StageMessage} {c : Choice} {k k' : Execution}

theorem sound_of_untouched {s : System World Execution} (h : Untouched s) :
    Sound settings extracted s.world := by
  obtain ⟨-, documents, hready, hworld⟩ := h
  rw [hworld]
  exact ⟨fun _ => .inl rfl, fun _ _ => .inl rfl,
    fun d hd => absurd hd (hready d)⟩

def Keeps (settings : StageHandlers.Settings F) (extracted : String → List (SourceBlock Char))
    (w w' : World) : Prop :=
  ∀ d σ, ChunkedAs settings extracted w d σ → ChunkedAs settings extracted w' d σ

theorem kept_of_keeps (h : Sound settings extracted w') (hkeeps : Keeps settings extracted w w') :
    (terms settings extracted).Kept w w' where
  holds := h
  given _ _ := trivial
  during m k hduring := by
    refine ⟨fun hstage σ hσ hne => hkeeps _ σ (hduring.1 hstage σ hσ hne), ?_⟩
    cases k with
    | chunking blocks left =>
      exact ⟨hduring.2.1, fun σ hσ hleft hne => hkeeps _ σ (hduring.2.2 σ hσ hleft hne)⟩
    | returned => exact fun hstage σ hσ hne => hkeeps _ σ (hduring.2 hstage σ hσ hne)
    | _ => trivial
  done m hdone hstage σ hσ hne := hkeeps _ σ (hdone hstage σ hσ hne)

theorem Keeps.refl (w : World) : Keeps settings extracted w w := fun _ _ h => h

theorem Sound.setDocumentStatus (h : Sound settings extracted w) (d : String) {status : DocStatus}
    (hready : status = .ready → Chunked settings extracted w d) :
    Sound settings extracted (w.setDocumentStatus d status) where
  blocks := h.blocks
  chunks := h.chunks
  ready d' hd' := by
    change Function.update w.db.documents d _ d' = _ at hd'
    by_cases hd : d' = d
    · subst hd
      rw [Function.update_self, Option.map_eq_some_iff] at hd'
      obtain ⟨-, -, hstatus⟩ := hd'
      exact hready hstatus
    · rw [Function.update_of_ne hd] at hd'
      exact h.ready d' hd'

theorem filter_blocks_of_ne {db db' : Database} {blocks : List (SourceBlock Char)} {ids : List String}
    (hblocks : db'.blocks = (db.deleteBlocks d).blocks) {d' : String} (hd : d' ≠ d) :
    (db'.insertBlocks d blocks ids).blocks.filter (·.documentId = d') =
      db.blocks.filter (·.documentId = d') := by
  have hnew : ((blocks.zip ids).map fun b =>
      (⟨d, db'.pageId d b.1.pageNo, stored b.1 b.2⟩ : BlockRow)).filter
        (fun row => row.documentId = d') = [] := by
    apply List.filter_eq_nil_iff.mpr
    intro row hrow heq
    obtain ⟨b, -, rfl⟩ := List.mem_map.mp hrow
    exact hd (of_decide_eq_true heq).symm
  change (db'.blocks ++ (blocks.zip ids).map fun b =>
    (⟨d, db'.pageId d b.1.pageNo, stored b.1 b.2⟩ : BlockRow)).filter
      (fun row => row.documentId = d') = _
  rw [List.filter_append, hnew, hblocks, List.append_nil]
  change (db.blocks.filter _).filter _ = _
  rw [List.filter_filter]
  apply List.filter_congr
  intro row _
  by_cases hrow : row.documentId = d'
  · simp [hrow, hd]
  · simp [hrow]

theorem Sound.parse (h : Sound settings extracted w) (db : Database) {ids : List String}
    (hblocks : db.blocks = (w.db.deleteBlocks d).blocks) (hchunks : db.chunks = w.db.chunks)
    (hdocuments : db.documents = w.db.documents) (hids : Identifies extracted d ids) :
    Sound settings extracted { w with db := db.insertBlocks d (extracted d) ids } ∧
      Keeps settings extracted w { w with db := db.insertBlocks d (extracted d) ids } := by
  have hload : ∀ d' σ, (db.insertBlocks d (extracted d) ids).loadChunks d' σ =
      w.db.loadChunks d' σ := by
    intro d' σ
    change (db.chunks.filter _).insertionSort _ = _
    rw [hchunks]
    rfl
  have hkeeps : Keeps settings extracted w { w with db := db.insertBlocks d (extracted d) ids } := by
    rintro d' σ ⟨ids', chunks, hids', hreference, hstored⟩
    exact ⟨ids', chunks, hids', hreference, (hload d' σ).symm ▸ hstored⟩
  refine ⟨⟨?_, ?_, ?_⟩, hkeeps⟩
  · intro d'
    by_cases hd : d' = d
    · subst hd
      refine .inr ⟨ids, hids, blocks_insertBlocks ?_⟩
      rw [hblocks]
      exact documentId_of_deleteBlocks
    · have hsame : (db.insertBlocks d (extracted d) ids).blocks.filter (·.documentId = d') =
          w.db.blocks.filter (·.documentId = d') := filter_blocks_of_ne hblocks hd
      rcases h.blocks d' with hnone | ⟨ids', hids', hfiled⟩
      · exact .inl (hsame.trans hnone)
      · exact .inr ⟨ids', hids', (congrArg _ hsame).trans hfiled⟩
  · intro d' σ
    rcases h.chunks d' σ with hnil | hchunked
    · exact .inl ((hload d' σ).trans hnil)
    · exact .inr (hkeeps d' σ hchunked)
  · intro d' hd' σ hσ hne
    change db.documents d' = _ at hd'
    rw [hdocuments] at hd'
    exact hkeeps d' σ (h.ready d' hd' σ hσ hne)

theorem Sound.replaceChunks (h : Sound settings extracted w) {ids drawn : List String}
    {chunks : List (Chunk Char)} {db : Database} (hids : Identifies extracted d ids)
    (hreference : chunkDocument σ (sourceBlocks extracted d ids) settings.options = .ok chunks)
    (hdraws : w.db.Draws drawn chunks.length)
    (hdb : w.db.replaceChunks d σ chunks drawn = some db) :
    Sound settings extracted { w with db := db } ∧
      Keeps settings extracted w { w with db := db } ∧
        ChunkedAs settings extracted { w with db := db } d σ := by
  have hnumbered := chunkDocument_numbered (sourceBlocks_ids_nodup hids) hreference
  have hload := loadChunks_replaceChunks hdraws.1 hnumbered hdb
  have hreplaced := replaced_of_replaceChunks hdb
  have hkeeps : Keeps settings extracted w { w with db := db } := by
    rintro d' σ' ⟨ids', chunks', hids', hreference', hstored⟩
    rcases hload d' σ' with ⟨rfl, rfl, hnew⟩ | hsame
    · exact ⟨ids, chunks, hids, hreference, hnew⟩
    · exact ⟨ids', chunks', hids', hreference', hsame.symm ▸ hstored⟩
  refine ⟨⟨?_, ?_, ?_⟩, hkeeps, ?_⟩
  · intro d'
    unfold Filed
    rw [hreplaced.blocks]
    exact h.blocks d'
  · intro d' σ'
    rcases hload d' σ' with ⟨rfl, rfl, hnew⟩ | hsame
    · exact .inr ⟨ids, chunks, hids, hreference, hnew⟩
    · rcases h.chunks d' σ' with hnil | hchunked
      · exact .inl (hsame.trans hnil)
      · exact .inr (hkeeps d' σ' hchunked)
  · intro d' hd' σ' hσ hne
    rw [hreplaced.documents] at hd'
    exact hkeeps d' σ' (h.ready d' hd' σ' hσ hne)
  · exact ⟨ids, chunks, hids, hreference, loadChunks_of_replaceChunks hdraws.1 hnumbered hdb⟩

/-- A step keeps what was asserted, and reaches what it has to. -/
theorem kept_of_step (h : Sound settings extracted w) (hstands : Stands settings extracted w m k)
    (hgiven : m.stage = "contextualize" ∨ m.stage = "embed" →
      Chunked settings extracted w m.documentId)
    (hfaithful : Faithful extracted m c) (hstep : Step settings m w c k k' w') :
    (terms settings extracted).Kept w w' ∧ Stands settings extracted w' m k' := by
  have hsame : (terms settings extracted).Kept w w := kept_of_keeps h (.refl w)
  have hstatus : ∀ {status : DocStatus}, (status = .ready → Chunked settings extracted w
      m.documentId) → (terms settings extracted).Kept w (w.setDocumentStatus m.documentId status) :=
    fun hready => kept_of_keeps (h.setDocumentStatus m.documentId hready) (.refl w)
  have hother : ∀ {stage : String}, m.stage = stage → stage ≠ "chunk" → ¬ m.stage = "chunk" :=
    fun heq hne heq' => hne (heq.symm.trans heq')
  cases hstep with
  | detects hstage family => exact ⟨hstatus nofun, trivial⟩
  | refuses hstage => exact ⟨hstatus nofun, trivial⟩
  | passes hstage =>
    exact ⟨hsame, fun heq => absurd (heq ▸ hstage) (by decide)⟩
  | @parses hstage hrow pages pageIds blocks blockIds hdraws hpages =>
    obtain rfl : blocks = extracted m.documentId := hfaithful
    obtain ⟨hlength, hnodup, -⟩ := hdraws
    rw [List.length_append] at hlength
    obtain ⟨hsound, hkeeps⟩ := h.parse
      ((w.db.deleteBlocks m.documentId).insertPages m.documentId pages pageIds) rfl rfl rfl
      ⟨hnodup.of_append_right, by omega⟩
    exact ⟨kept_of_keeps (hsound.setDocumentStatus m.documentId nofun) hkeeps,
      fun heq => absurd heq (hother hstage (by decide))⟩
  | @parsesFlow hstage hrow blocks blockIds hblocks hdraws =>
    obtain rfl : blocks = extracted m.documentId := hfaithful
    obtain ⟨hsound, hkeeps⟩ := h.parse (w.db.deleteBlocks m.documentId) rfl rfl rfl
      ⟨hdraws.2.1, hdraws.1⟩
    exact ⟨kept_of_keeps hsound hkeeps, fun heq => absurd heq (hother hstage (by decide))⟩
  | loadsBlocks hstage hblocks =>
    refine ⟨hsame, ?_, fun σ hσ hleft => absurd hσ hleft⟩
    rcases h.blocks m.documentId with hnone | ⟨ids, hids, hfiled⟩
    · unfold loadBlocks at hblocks
      rw [hnone] at hblocks
      exact absurd rfl hblocks
    · refine ⟨ids, hids, ?_⟩
      unfold loadBlocks sourceBlocks
      rw [hfiled]
  | skips hstage =>
    refine ⟨hsame, hstands.1, fun σ hσ hleft hne => hstands.2 σ hσ ?_ hne⟩
    exact List.not_mem_cons_of_ne_of_not_mem hne hleft
  | @stores hstage blocks τ left drawn chunks db hτ hchunks hdraws hdb =>
    obtain ⟨⟨ids, hids, rfl⟩, hbehind⟩ := hstands
    obtain ⟨hsound, hkeeps, hstored⟩ := h.replaceChunks hids hchunks hdraws hdb
    refine ⟨kept_of_keeps hsound hkeeps, ⟨ids, hids, rfl⟩, fun σ hσ hleft hne => ?_⟩
    by_cases heq : σ = τ
    · exact heq ▸ hstored
    · exact hkeeps _ σ (hbehind σ hσ (List.not_mem_cons_of_ne_of_not_mem heq hleft) hne)
  | chunked hstage =>
    exact ⟨hsame, fun _ σ hσ hne => hstands.2 σ hσ List.not_mem_nil hne⟩
  | contextualizes hstage hstrategies hchunks =>
    exact ⟨hsame, fun heq => absurd heq (hother hstage (by decide))⟩
  | embeds hstage => exact ⟨hsame, trivial⟩
  | embedsNothing hstage hnil => exact ⟨hsame, trivial⟩
  | loadsChunks hstage hchunks => exact ⟨hsame, trivial⟩
  | noEmbeddings hstage => exact ⟨hsame, trivial⟩
  | clears hstage => exact ⟨kept_of_keeps ⟨h.blocks, h.chunks, h.ready⟩ (.refl w), trivial⟩
  | upserts hstage => exact ⟨kept_of_keeps ⟨h.blocks, h.chunks, h.ready⟩ (.refl w), trivial⟩
  | embedded hstage =>
    exact ⟨hstatus fun _ => hgiven (.inr hstage), fun heq => absurd heq (hother hstage (by decide))⟩

theorem deps_behind_chunk {family : FormatFamily} {stage : Stage}
    (h : stage ∈ stagesFor PIPELINE family) :
    (stage.name = "contextualize" → "chunk" ∈ effectiveDeps PIPELINE family stage) ∧
      (stage.name = "embed" → "contextualize" ∈ effectiveDeps PIPELINE family stage) := by
  revert stage
  cases family <;> decide

variable (settings extracted) in
noncomputable def contract : Contract (faithfulHandlers settings extracted) where
  toTerms := terms settings extracted
  uploaded _ _ _ _ _ _ := trivial
  start world log m _ _ hlog hrests := by
    refine ⟨fun hstage => ?_, trivial⟩
    have hne : m.stage ≠ "detect" := by
      rcases hstage with heq | heq
      · rw [heq]
        decide
      · rw [heq]
        decide
    obtain ⟨stage, hmem, hname, hdeps⟩ := hrests hne
    have hdep : ∃ c ∈ log, c.stage = "chunk" ∨ c.stage = "contextualize" := by
      rcases hstage with heq | heq
      · obtain ⟨c, hc, hchunk⟩ := hdeps _ ((deps_behind_chunk hmem).1 (hname.trans heq))
        exact ⟨c, hc, .inl hchunk⟩
      · obtain ⟨c, hc, hcontext⟩ := hdeps _ ((deps_behind_chunk hmem).2 (hname.trans heq))
        exact ⟨c, hc, .inr hcontext⟩
    obtain ⟨c, hc, hbehind⟩ := hdep
    obtain ⟨hdone, hdocument⟩ := hlog c hc
    exact hdocument ▸ hdone hbehind
  move world m c k k' world' hholds hduring hmove := by
    obtain ⟨hfaithful, hmove⟩ := Option.ite_none_right_eq_some.mp hmove
    obtain ⟨hkept, hstands⟩ := kept_of_step hholds hduring.2 hduring.1 hfaithful
      (step_of_move hmove)
    exact ⟨hkept, (hkept.during m .started ⟨hduring.1, trivial⟩).1, hstands⟩
  finish world m k family _ hduring hresult hstage := by
    cases k with
    | detected found =>
      obtain ⟨hdetect, rfl⟩ : m.stage = "detect" ∧ some found = family := by
        simpa [faithfulHandlers, handlers, result] using hresult
      change m.stage = _ ∨ m.stage = _ at hstage
      rw [hdetect] at hstage
      exact absurd hstage (by decide)
    | returned =>
      obtain ⟨-, rfl⟩ : m.stage ≠ "detect" ∧ none = family := by
        simpa [faithfulHandlers, handlers, result] using hresult
      rcases hstage with hchunk | hcontext
      · exact hduring.2 hchunk
      · exact hduring.1 (.inl hcontext)
    | _ => cases hresult
  follow _ _ _ _ := trivial
  retry _ _ _ := trivial
  condemn world documentId hholds :=
    kept_of_keeps (hholds.setDocumentStatus documentId nofun) (.refl world)

variable {s : System World Execution}

/-- In every state the system reaches, what is stored of a document's chunks is what ingest in one
    go would have stored: nothing yet, or the chunks of the source, whatever was parsed or chunked
    again in between. Those of a document that is ready are there. -/
theorem chunks_are_those_of_the_source
    (h : Reachable Untouched (Consumer.exec (handlers settings)) (ReadsSource extracted) s)
    {names : List String} (hnames : Identifies extracted d names)
    (hstored : s.world.db.loadChunks d σ ≠ [] ∨
      s.world.db.documents d = some .ready ∧ σ ∈ settings.chunkStrategies ∧ σ ≠ "semantic") :
    ∃ chunks f, chunkDocument σ (sourceBlocks extracted d names) settings.options = .ok chunks ∧
      Function.Injective f ∧ (s.world.db.loadChunks d σ).map (·.chunk) = chunks.map (renamed f) := by
  have hinit : ∀ s : System World Execution × (String → List StageMessage),
      Start s ∧ Untouched s.1 → Start s ∧ (contract settings extracted).Holds s.1.world :=
    fun s hs => ⟨hs.1, sound_of_untouched hs.2⟩
  have hlogged : ∃ log, Reachable
      (fun s : System World Execution × (String → List StageMessage) => Start s ∧ Untouched s.1)
      (StageOrder.exec (faithfulHandlers settings extracted)) (fun _ _ => True) (s, log) :=
    exists_recorded (fun s hs => ⟨fun _ => [], ⟨hs.1, rfl⟩, hs⟩) (faithful_of_reachable h)
  obtain ⟨log, hlog⟩ := hlogged
  have hsound : Sound settings extracted s.world := (agreed_of_reachable hinit hlog).2.holds
  have hchunked : ChunkedAs settings extracted s.world d σ := by
    rcases hstored with hne | ⟨hready, hσ, hne⟩
    · exact (hsound.chunks d σ).resolve_left hne
    · exact hsound.ready d hready σ hσ hne
  obtain ⟨ids, chunks, hids, hchunks, hload⟩ := hchunked
  obtain ⟨reference, f, hreference, hf, rfl⟩ := chunks_of_ids hids hnames hchunks
  exact ⟨reference, f, hreference, hf, hload⟩

end

def hello : String → List (SourceBlock Char) := fun _ => [.paragraph "tmp-0" 0 "Hello." 0]

theorem ingested_reads_hello : ∀ e ∈ IndexAgreement.ingested, ∀ u, ReadsSource hello u e := by
  simp [IndexAgreement.ingested, IndexAgreement.parsed, IndexAgreement.indexing,
    IndexAgreement.chunking, onMessage, parsedAs, ReadsSource, Faithful, hello]

theorem an_ingested_paragraph_is_chunked :
    ∃ s, Reachable Untouched (Consumer.exec (handlers oneStrategy)) (ReadsSource hello) s ∧
      s.world.db.documents "document" = some .ready ∧
      ∃ chunks f, chunkDocument "layout" (sourceBlocks hello "document" ["first"])
          oneStrategy.options = .ok chunks ∧ Function.Injective f ∧
        (s.world.db.loadChunks "document" "layout").map (·.chunk) = chunks.map (renamed f) ∧
        chunks.map (·.text) = ["Hello.".toList] := by
  have hend : (run (Consumer.exec (handlers oneStrategy)) uploaded IndexAgreement.ingested).map
      (fun s => s.world.db.documents "document") = some (some .ready) := by
    decide +kernel
  obtain ⟨s, hrun, hready⟩ := Option.map_eq_some_iff.mp hend
  have hreach : Reachable Untouched (Consumer.exec (handlers oneStrategy)) (ReadsSource hello) s :=
    reachable_of_run (.start uploaded_untouched) ingested_reads_hello hrun
  have hfirst : Identifies hello "document" ["first"] := ⟨List.nodup_singleton _, rfl⟩
  obtain ⟨chunks, f, hchunks, hf, hload⟩ := chunks_are_those_of_the_source (σ := "layout") hreach
    hfirst (.inr ⟨hready, List.mem_singleton_self _, by decide⟩)
  have htext : (chunkDocument "layout" (sourceBlocks hello "document" ["first"])
      oneStrategy.options).map (fun chunks => chunks.map (·.text)) = .ok ["Hello.".toList] := rfl
  rw [hchunks] at htext
  exact ⟨s, hreach, hready, chunks, f, hchunks, hf, hload, Except.ok.inj htext⟩

end Ragent.IngestedChunks
