import Ragent.Executions
import Ragent.StageHandlers

set_option autoImplicit false

/-!
# The vector index and the chunk table

`embed` copies the ids of the chunks of each strategy into its collection: it loads the rows, drops
the points of the document, and adds the new ones. Nothing else writes points, and `chunk` gives
every chunk a new id each time it runs. So the two agree as long as nobody renames chunks that are
copied already, and no copy is left half done.
-/
namespace Ragent.IndexAgreement
open Formats Stages Runner GuardedRuns Consumer SourceTypes ChunkDocument PyNumbers DocumentTables
  StageHandlers Executions

def chunkIds (db : Database) (d σ : String) : Finset String :=
  ((db.loadChunks d σ).map (·.id)).toFinset

def loadedIds (σ : String) : Execution → Option (List String)
  | .loaded τ ids _ | .cleared τ ids _ => if τ = σ then some ids else none
  | _ => none

/-- An execution of `embed` has deleted the points of the strategy and not yet added the new ones. -/
def Clears (σ : String) : Execution → Prop
  | .cleared τ _ _ => τ = σ
  | _ => False

def Passed (σ : String) : Execution → Prop
  | .embedding left => σ ∉ left
  | .loaded τ _ left | .cleared τ _ left => τ ≠ σ ∧ σ ∉ left
  | .returned => True
  | _ => False

def Embedding (s : System World Execution) (d : String) (h : Execution) : Prop :=
  ∃ m, Executing s m h ∧ m.stage = "embed" ∧ m.documentId = d

def EmbeddingStill (s : System World Execution) (e : Event Choice) (d : String) (h : Execution) :
    Prop :=
  ∃ m, Survives s m h e ∧ m.stage = "embed" ∧ m.documentId = d

/-- Agreement, as the executions `X` of `embed` for the document keep it. -/
structure Indexed (w : World) (X : Execution → Prop) (d σ : String) : Prop where
  current : ∀ h ids, X h → loadedIds σ h = some ids → ids.toFinset = chunkIds w.db d σ
  bounded : ∀ h, X h → Clears σ h → w.points σ d ⊆ chunkIds w.db d σ
  agrees : (w.db.documents d = some .ready ∨ ∃ h, X h ∧ Passed σ h) →
    w.points σ d = chunkIds w.db d σ ∨ ∃ h, X h ∧ Clears σ h

variable {w w' : World} {X Y : Execution → Prop} {d σ : String}

theorem mem_chunkIds {db : Database} {id : String} :
    id ∈ chunkIds db d σ ↔ ∃ c ∈ db.chunks, c.documentId = d ∧ c.strategy = σ ∧ c.id = id := by
  simp [chunkIds, Database.mem_loadChunks, and_assoc]

theorem loadedIds_of_clears {h : Execution} (hc : Clears σ h) : ∃ ids, loadedIds σ h = some ids := by
  cases h with
  | cleared τ ids left => exact ⟨ids, if_pos hc⟩
  | _ => exact hc.elim

/-- Neither the points nor the chunks of the strategy change, and the document does not become
    ready. -/
structure Elsewhere (w w' : World) (d σ : String) : Prop where
  points : w'.points σ d = w.points σ d
  chunks : chunkIds w'.db d σ = chunkIds w.db d σ
  ready : w'.db.documents d = some .ready → w.db.documents d = some .ready

namespace Indexed

theorem frame (h : Indexed w X d σ) (hw : Elsewhere w w' d σ) : Indexed w' X d σ := by
  obtain ⟨hpoints, hchunks, hready⟩ := hw
  constructor
  · rw [hchunks]
    exact h.current
  · rw [hpoints, hchunks]
    exact h.bounded
  · rw [hpoints, hchunks]
    exact fun hpremise => h.agrees (hpremise.imp_left hready)

theorem shrink (h : Indexed w X d σ) (hsub : ∀ k, Y k → X k)
    (hstop : ∀ k, X k → Clears σ k → ¬ Y k → (∃ k', Y k' ∧ Clears σ k') ∨
      (w.db.documents d ≠ some .ready ∧ ∀ k', Y k' → ¬ Passed σ k')) : Indexed w Y d σ := by
  refine ⟨fun k ids hk => h.current k ids (hsub k hk), fun k hk => h.bounded k (hsub k hk), ?_⟩
  intro hpremise
  rcases h.agrees (hpremise.imp_right fun ⟨k, hk, hp⟩ => ⟨k, hsub k hk, hp⟩) with heq | ⟨k, hk, hc⟩
  · exact Or.inl heq
  · by_cases hYk : Y k
    · exact Or.inr ⟨k, hYk, hc⟩
    · rcases hstop k hk hc hYk with hother | ⟨hready, hpassed⟩
      · exact Or.inr hother
      · rcases hpremise with hr | ⟨k', hk', hp⟩
        · exact absurd hr hready
        · exact absurd hp (hpassed k' hk')

theorem grow (h : Indexed w X d σ) : Indexed w (fun k => X k ∨ k = .started) d σ := by
  constructor
  · rintro k ids (hk | rfl) hids
    · exact h.current k ids hk hids
    · cases hids
  · rintro k (hk | rfl) hc
    · exact h.bounded k hk hc
    · exact hc.elim
  · rintro hpremise
    have hold : w.db.documents d = some .ready ∨ ∃ k, X k ∧ Passed σ k := by
      refine hpremise.imp_right ?_
      rintro ⟨k, hk | rfl, hp⟩
      · exact ⟨k, hk, hp⟩
      · exact hp.elim
    exact (h.agrees hold).imp_right fun ⟨k, hk, hc⟩ => ⟨k, Or.inl hk, hc⟩

variable {R : Execution → Prop} {k k' : Execution}

theorem turn (h : Indexed w (fun x => R x ∨ x = k) d σ)
    (hloaded : ∀ ids, loadedIds σ k' = some ids → ids.toFinset = chunkIds w.db d σ)
    (hclears : Clears σ k' ↔ Clears σ k)
    (hpassed : Passed σ k' → Passed σ k ∨ w.points σ d = chunkIds w.db d σ) :
    Indexed w (fun x => R x ∨ x = k') d σ := by
  have hstill : (∃ x, (R x ∨ x = k) ∧ Clears σ x) → ∃ x, (R x ∨ x = k') ∧ Clears σ x := by
    rintro ⟨x, hx | rfl, hc⟩
    · exact ⟨x, Or.inl hx, hc⟩
    · exact ⟨k', Or.inr rfl, hclears.mpr hc⟩
  constructor
  · rintro x ids (hx | rfl) hids
    · exact h.current x ids (Or.inl hx) hids
    · exact hloaded ids hids
  · rintro x (hx | rfl) hc
    · exact h.bounded x (Or.inl hx) hc
    · exact h.bounded k (Or.inr rfl) (hclears.mp hc)
  · rintro (hready | ⟨x, hx | rfl, hp⟩)
    · exact (h.agrees (Or.inl hready)).imp_right hstill
    · exact (h.agrees (Or.inr ⟨x, Or.inl hx, hp⟩)).imp_right hstill
    · rcases hpassed hp with hk | heq
      · exact (h.agrees (Or.inr ⟨k, Or.inr rfl, hk⟩)).imp_right hstill
      · exact Or.inl heq

theorem clear {ids left : List String} (h : Indexed w (fun x => R x ∨ x = .loaded σ ids left) d σ) :
    Indexed (w.deleteDocument σ d) (fun x => R x ∨ x = .cleared σ ids left) d σ := by
  have hpoints : (w.deleteDocument σ d).points σ d = ∅ := by simp [World.deleteDocument]
  constructor
  · rintro x xs (hx | rfl) hxs
    · exact h.current x xs (Or.inl hx) hxs
    · exact h.current _ xs (Or.inr rfl) hxs
  · intro x _ _
    rw [hpoints]
    exact Finset.empty_subset _
  · exact fun _ => Or.inr ⟨_, Or.inr rfl, rfl⟩

/-- Adding what was loaded makes the points the chunks, whoever else is copying them. -/
theorem upsert {ids left : List String}
    (h : Indexed w (fun x => R x ∨ x = .cleared σ ids left) d σ) :
    Indexed (w.upsertChunks σ d ids) (fun x => R x ∨ x = .embedding left) d σ := by
  have hids : ids.toFinset = chunkIds w.db d σ := h.current _ ids (Or.inr rfl) (if_pos rfl)
  have hpoints : (w.upsertChunks σ d ids).points σ d = chunkIds w.db d σ := by
    have hsub := h.bounded _ (Or.inr rfl) rfl
    simp [World.upsertChunks, hids, Finset.union_eq_right.mpr hsub]
  constructor
  · rintro x xs (hx | rfl) hxs
    · exact h.current x xs (Or.inl hx) hxs
    · cases hxs
  · intro x _ _
    rw [hpoints]
    exact Finset.Subset.refl _
  · exact fun _ => Or.inl hpoints

theorem finish (h : Indexed w (fun x => R x ∨ x = .embedding []) d σ) :
    Indexed (w.setDocumentStatus d .ready) (fun x => R x ∨ x = .returned) d σ := by
  have hdone := h.agrees (Or.inr ⟨_, Or.inr rfl, List.not_mem_nil⟩)
  constructor
  · rintro x ids (hx | rfl) hids
    · exact h.current x ids (Or.inl hx) hids
    · cases hids
  · rintro x (hx | rfl) hc
    · exact h.bounded x (Or.inl hx) hc
    · exact hc.elim
  · intro _
    refine hdone.imp_right ?_
    rintro ⟨x, hx | rfl, hc⟩
    · exact ⟨x, Or.inl hx, hc⟩
    · exact hc.elim

end Indexed

/-- `chunk` renames the chunks of a strategy only while the document is not ready and no execution
    of `embed` has taken the strategy up; `embed` passes a strategy over only if its points are the
    chunks already. -/
def WorkKeepsIndex (s : System World Execution) (m : StageMessage) : Choice → Execution → Prop
  | .drawn _, .chunking _ (σ :: _) => s.world.db.documents m.documentId ≠ some .ready ∧
      ∀ h, Embedding s m.documentId h → loadedIds σ h = none ∧ ¬ Passed σ h
  | .next, .embedding (σ :: _) => s.world.db.loadChunks m.documentId σ = [] →
      s.world.points σ m.documentId = ∅
  | .noEmbeddings, .loaded σ _ _ =>
      s.world.points σ m.documentId = chunkIds s.world.db m.documentId σ
  | _, _ => True

/-- An execution of `embed` dies or raises between its delete and its upsert only if another one is
    between them too, or the document is not ready and none is through with the strategy. -/
def StopsKeepIndex (s : System World Execution) (e : Event Choice) : Prop :=
  ∀ d σ h, Embedding s d h → Clears σ h → ¬ EmbeddingStill s e d h →
    (∃ h', EmbeddingStill s e d h' ∧ Clears σ h') ∨
      (s.world.db.documents d ≠ some .ready ∧ ∀ h', EmbeddingStill s e d h' → ¬ Passed σ h')

def KeepsIndex (s : System World Execution) : Event Choice → Prop
  | .act run i (.work c) => ∀ m w h,
      (s.runs run).tokens[i]? = some ⟨m, .inHand w (.handling h)⟩ → WorkKeepsIndex s m c h
  | e => StopsKeepIndex s e

section
variable {F : Type} [PyFloat F] {settings : Settings F} {s : System World Execution}
  {m : StageMessage} {c : Choice} {k k' : Execution} {R : Execution → Prop}

theorem step_indexed (h : Indexed s.world (fun x => R x ∨ x = k) m.documentId σ)
    (hstage : m.stage = "embed") (hσ : σ ∈ settings.chunkStrategies) (hok : WorkKeepsIndex s m c k)
    (hstep : Step settings m s.world c k k' w') :
    Indexed w' (fun x => R x ∨ x = k') m.documentId σ := by
  cases hstep with
  | detects hother => exact absurd (hother.symm.trans hstage) (by decide)
  | refuses hother => exact absurd (hother.symm.trans hstage) (by decide)
  | passes hother =>
    rw [hstage] at hother
    exact absurd hother (by decide)
  | contextualizes hother => exact absurd (hother.symm.trans hstage) (by decide)
  | parses hother => exact absurd (hother.symm.trans hstage) (by decide)
  | parsesFlow hother => exact absurd (hother.symm.trans hstage) (by decide)
  | loadsBlocks hother | skips hother | stores hother | chunked hother =>
    exact absurd (hother.symm.trans hstage) (by decide)
  | embeds => exact h.turn nofun Iff.rfl fun hp => absurd hσ hp
  | @embedsNothing _ τ left hnil =>
    refine h.turn nofun Iff.rfl fun hp => ?_
    by_cases hτ : τ = σ
    · subst hτ
      exact Or.inr (by rw [hok hnil, chunkIds, hnil]; rfl)
    · exact Or.inl (List.not_mem_cons_of_ne_of_not_mem (Ne.symm hτ) hp)
  | @loadsChunks _ τ left =>
    refine h.turn ?_ Iff.rfl fun hp =>
      Or.inl (List.not_mem_cons_of_ne_of_not_mem (Ne.symm hp.1) hp.2)
    intro ids hids
    by_cases hτ : τ = σ
    · subst hτ
      rw [← Option.some.inj ((if_pos rfl).symm.trans hids)]
      rfl
    · exact absurd hids (by simp [loadedIds, hτ])
  | @noEmbeddings _ τ ids left =>
    refine h.turn nofun Iff.rfl fun hp => ?_
    by_cases hτ : τ = σ
    · subst hτ
      exact Or.inr hok
    · exact Or.inl ⟨hτ, hp⟩
  | @clears _ τ ids left =>
    by_cases hτ : τ = σ
    · subst hτ
      exact h.clear
    · have hframe : Indexed (s.world.deleteDocument τ m.documentId)
          (fun x => R x ∨ x = .loaded τ ids left) m.documentId σ :=
        h.frame ⟨by simp [World.deleteDocument, Function.update_of_ne (Ne.symm hτ)], rfl, id⟩
      exact hframe.turn (by simp [loadedIds, hτ]) (by simp [Clears, hτ]) Or.inl
  | @upserts _ τ ids left =>
    by_cases hτ : τ = σ
    · subst hτ
      exact h.upsert
    · have hframe : Indexed (s.world.upsertChunks τ m.documentId ids)
          (fun x => R x ∨ x = .cleared τ ids left) m.documentId σ :=
        h.frame ⟨by simp [World.upsertChunks, Function.update_of_ne (Ne.symm hτ)], rfl, id⟩
      exact hframe.turn nofun (by simp [Clears, hτ]) fun hp => Or.inl ⟨hτ, hp⟩
  | embedded => exact h.finish

theorem elsewhere_refl (w : World) (d σ : String) : Elsewhere w w d σ := ⟨rfl, rfl, id⟩

theorem elsewhere_setDocumentStatus {d' : String} {status : DocStatus}
    (h : status ≠ .ready ∨ d' ≠ d) : Elsewhere w (w.setDocumentStatus d' status) d σ := by
  refine ⟨rfl, rfl, fun hready => ?_⟩
  by_cases hd : d' = d
  · subst hd
    have hstatus := h.resolve_right fun hne => hne rfl
    simp [World.setDocumentStatus, Database.setDocumentStatus, hstatus] at hready
  · simpa [World.setDocumentStatus, Database.setDocumentStatus, Function.update_of_ne (Ne.symm hd)]
      using hready

theorem chunkIds_replaceChunks {db db' : Database} {d' τ : String} {chunks : List (Chunk Char)}
    {ids : List String} (hdb : db.replaceChunks d' τ chunks ids = some db')
    (hother : ¬(d' = d ∧ τ = σ)) : chunkIds db' d σ = chunkIds db d σ := by
  have hreplaced := Database.replaced_of_replaceChunks hdb
  ext id
  simp only [mem_chunkIds, hreplaced.mem_chunks]
  constructor
  · rintro ⟨c, ⟨hc, -⟩ | hnew, hd, hσ, hid⟩
    · exact ⟨c, hc, hd, hσ, hid⟩
    · exact absurd ⟨hnew.1 ▸ hd, hnew.2.1 ▸ hσ⟩ hother
  · rintro ⟨c, hc, hd, hσ, hid⟩
    exact ⟨c, Or.inl ⟨hc, fun hgone => hother ⟨hgone.1 ▸ hd, hgone.2 ▸ hσ⟩⟩, hd, hσ, hid⟩

def Renames (w w' : World) (m : StageMessage) (c : Choice) (k : Execution) (d σ : String) : Prop :=
  m.documentId = d ∧ (∃ ids, c = .drawn ids) ∧ (∃ blocks left, k = .chunking blocks (σ :: left)) ∧
    w'.points = w.points ∧ w'.db.documents = w.db.documents

theorem elsewhere_points {τ : String} {ids : Finset String} (hd : m.documentId ≠ d) :
    Elsewhere w { w with
      points := Function.update w.points τ (Function.update (w.points τ) m.documentId ids) } d σ := by
  refine ⟨?_, rfl, id⟩
  by_cases hτ : σ = τ
  · subst hτ
    simp [Function.update_of_ne (Ne.symm hd)]
  · simp [Function.update_of_ne hτ]

theorem move_elsewhere (hother : ¬(m.stage = "embed" ∧ m.documentId = d))
    (hmove : move settings m c (k, w) = some (k', w')) :
    Elsewhere w w' d σ ∨ Renames w w' m c k d σ := by
  have hd : m.stage = "embed" → m.documentId ≠ d := fun hstage hd => hother ⟨hstage, hd⟩
  cases step_of_move hmove with
  | detects => exact .inl (elsewhere_setDocumentStatus (.inl (by decide)))
  | refuses => exact .inl (elsewhere_setDocumentStatus (.inl (by decide)))
  | parses =>
    have hstatus : Elsewhere w (w.setDocumentStatus m.documentId .processing) d σ :=
      elsewhere_setDocumentStatus (.inl (by decide))
    exact .inl ⟨rfl, rfl, hstatus.ready⟩
  | parsesFlow => exact .inl ⟨rfl, rfl, id⟩
  | @stores _ blocks τ left ids chunks db _ _ _ hdb =>
    have hdocuments := (Database.replaced_of_replaceChunks hdb).documents
    by_cases hsame : m.documentId = d ∧ τ = σ
    · obtain ⟨hd, rfl⟩ := hsame
      exact .inr ⟨hd, ⟨ids, rfl⟩, ⟨blocks, left, rfl⟩, rfl, hdocuments⟩
    · exact .inl ⟨rfl, chunkIds_replaceChunks hdb hsame, by simp [hdocuments]⟩
  | passes | loadsBlocks | skips | chunked | contextualizes => exact .inl (elsewhere_refl _ _ _)
  | embeds | embedsNothing | loadsChunks | noEmbeddings => exact .inl (elsewhere_refl _ _ _)
  | clears hstage => exact .inl (elsewhere_points (hd hstage))
  | upserts hstage => exact .inl (elsewhere_points (hd hstage))
  | embedded hstage => exact .inl (elsewhere_setDocumentStatus (.inr (hd hstage)))

theorem embedding_at {run : String} {i : ℕ} {a : Act Choice} {worker : WorkerId}
    (hat : (s.runs run).tokens[i]? = some ⟨m, .inHand worker (.handling k)⟩) (x : Execution) :
    Embedding s d x ↔ EmbeddingStill s (.act run i a) d x ∨
      (x = k ∧ m.stage = "embed" ∧ m.documentId = d) := by
  constructor
  · rintro ⟨m', hx, hm'⟩
    rcases (executing_iff_of_at hat m' x).mp hx with hs | ⟨rfl, rfl⟩
    · exact Or.inl ⟨m', hs, hm'⟩
    · exact Or.inr ⟨rfl, hm'⟩
  · rintro (⟨m', hs, hm'⟩ | ⟨rfl, hm⟩)
    · exact ⟨m', executing_of_survives hs, hm'⟩
    · exact ⟨m, ⟨run, worker, List.mem_of_getElem? hat⟩, hm⟩

theorem embedding_exec {s' : System World Execution} {e : Event Choice}
    {new : StageMessage → Execution → Prop}
    (hexec : ∀ m h, Executing s' m h ↔ Survives s m h e ∨ new m h) (x : Execution) :
    Embedding s' d x ↔ EmbeddingStill s e d x ∨ ∃ m, new m x ∧ m.stage = "embed" ∧ m.documentId = d := by
  unfold Embedding EmbeddingStill
  simp only [hexec, or_and_right, exists_or]

theorem embedding_eq_still {s' : System World Execution} {e : Event Choice}
    {new : StageMessage → Execution → Prop}
    (hexec : ∀ m h, Executing s' m h ↔ Survives s m h e ∨ new m h)
    (hnew : ∀ m h, new m h → ¬(m.stage = "embed" ∧ m.documentId = d)) :
    Embedding s' d = EmbeddingStill s e d := by
  funext x
  rw [embedding_exec hexec x, eq_iff_iff]
  apply or_iff_left
  intro h
  obtain ⟨m, hm, hown⟩ := h
  exact hnew m x hm hown

theorem embedding_eq_joined {s' : System World Execution} {e : Event Choice}
    (hexec : ∀ m' h, Executing s' m' h ↔ Survives s m' h e ∨ (m' = m ∧ h = k))
    (hown : m.stage = "embed" ∧ m.documentId = d) :
    Embedding s' d = fun x => EmbeddingStill s e d x ∨ x = k := by
  funext x
  simp [embedding_exec (d := d) hexec x, hown]

theorem Indexed.work {s' : System World Execution} {run : String} {i : ℕ} {worker : WorkerId}
    (h : Indexed s.world (Embedding s d) d σ) (hσ : σ ∈ settings.chunkStrategies)
    (hok : WorkKeepsIndex s m c k)
    (hat : (s.runs run).tokens[i]? = some ⟨m, .inHand worker (.handling k)⟩)
    (hmove : move settings m c (k, s.world) = some (k', s'.world))
    (hexec : ∀ m' x, Executing s' m' x ↔
      Survives s m' x (.act run i (.work c)) ∨ (m' = m ∧ x = k')) :
    Indexed s'.world (Embedding s' d) d σ := by
  have hbefore := embedding_at (d := d) (a := .work c) hat
  by_cases hown : m.stage = "embed" ∧ m.documentId = d
  · have hX : Embedding s d = fun x => EmbeddingStill s (.act run i (.work c)) d x ∨ x = k := by
      funext x
      simp [hbefore x, hown]
    have hY := embedding_eq_joined hexec hown
    obtain ⟨hstage, rfl⟩ := hown
    rw [hX] at h
    rw [hY]
    exact step_indexed h hstage hσ hok (step_of_move hmove)
  · have hX : Embedding s d = EmbeddingStill s (.act run i (.work c)) d := by
      funext x
      rw [hbefore x, eq_iff_iff]
      exact or_iff_left fun hx => hown hx.2
    have hY : Embedding s' d = Embedding s d := by
      rw [hX]
      apply embedding_eq_still hexec
      intro m' x hx
      rwa [hx.1]
    rw [hY]
    rcases move_elsewhere (σ := σ) hown hmove with hw | ⟨rfl, ⟨ids, rfl⟩, ⟨blocks, left, rfl⟩, hpoints, hdocuments⟩
    · exact h.frame hw
    · obtain ⟨hready, htaken⟩ := hok
      constructor
      · intro x xs hx hxs
        rw [(htaken x hx).1] at hxs
        cases hxs
      · intro x hx hc
        obtain ⟨xs, hxs⟩ := loadedIds_of_clears hc
        rw [(htaken x hx).1] at hxs
        cases hxs
      · rintro (hr | ⟨x, hx, hp⟩)
        · exact absurd (hdocuments ▸ hr) hready
        · exact absurd hp (htaken x hx).2

theorem indexed_of_untouched (hinit : Untouched s) (d σ : String) :
    Indexed s.world (Embedding s d) d σ := by
  obtain ⟨hinit, documents, hready, hworld⟩ := hinit
  have hnone : ∀ m h, ¬ Executing s m h := by
    rintro m h ⟨run, w, hmem⟩
    simp [hinit.2] at hmem
  constructor
  · rintro h ids ⟨m, hm, -⟩
    exact absurd hm (hnone m h)
  · rintro h ⟨m, hm, -⟩
    exact absurd hm (hnone m h)
  · rintro (hr | ⟨h, ⟨m, hm, -⟩, -⟩)
    · rw [hworld] at hr
      exact absurd hr (hready d)
    · exact absurd hm (hnone m h)

theorem indexed_of_reachable
    (hreach : Reachable Untouched (exec (handlers settings)) KeepsIndex s) (d : String) {σ : String}
    (hσ : σ ∈ settings.chunkStrategies) : Indexed s.world (Embedding s d) d σ := by
  induction hreach with
  | start hinit => exact indexed_of_untouched hinit d σ
  | @next s s' e _ hok hexec ih =>
    -- what is left of the executions when an event is no move of a handler
    have hstops : StopsKeepIndex s e → Indexed s.world (EmbeddingStill s e d) d σ := by
      intro hstop
      apply ih.shrink
      · rintro x ⟨m, hs, hm⟩
        exact ⟨m, executing_of_survives hs, hm⟩
      · exact fun x hx hc hnot => hstop d σ x hx hc hnot
    rcases executing_exec hexec with ⟨hworld, hact, hsame⟩ |
      ⟨run, i, a, t, new, rfl, ht, hprogress, hnew⟩
    · have hY : Embedding s' d = EmbeddingStill s e d := by
        funext x
        unfold Embedding EmbeddingStill
        simp only [hsame]
      rw [hY, hworld]
      apply hstops
      cases e with
      | act run i a => exact absurd rfl (hact run i a)
      | _ => exact hok
    · have hrest : (∀ c, a ≠ .work c) → Indexed s.world (EmbeddingStill s (.act run i a) d) d σ := by
        intro hwork
        apply hstops
        cases a with
        | work c => exact absurd rfl (hwork c)
        | _ => exact hok
      generalize hworld : s'.world = world' at hprogress
      cases hprogress with
      | @moves c m w h h' world' hat hmove =>
        subst hat
        exact hworld ▸ Indexed.work ih hσ (hok m w h ht) ht (hworld ▸ hmove) hnew
      | starts =>
        by_cases hm : t.message.stage = "embed" ∧ t.message.documentId = d
        · rw [embedding_eq_joined hnew hm]
          have hstart : (handlers settings).start t.message = .started := rfl
          rw [hstart]
          exact (hrest nofun).grow
        · have hY : Embedding s' d = EmbeddingStill s (.act run i .call) d := by
            apply embedding_eq_still hnew
            intro m' x hx
            rwa [hx.1]
          rw [hY]
          exact hrest nofun
      | rests hwork =>
        rw [embedding_eq_still hnew fun _ _ h => h.elim]
        exact hrest hwork
      | condemns hwork documentId =>
        rw [embedding_eq_still hnew fun _ _ h => h.elim]
        exact (hrest hwork).frame (elsewhere_setDocumentStatus (Or.inl (by decide)))

/-- A ready document on which no handler is at work has the points of its chunks. -/
theorem ready_documents_are_indexed
    (hreach : Reachable Untouched (exec (handlers settings)) KeepsIndex s)
    (hready : s.world.db.documents d = some .ready)
    (hquiet : ∀ m h, Executing s m h → m.documentId ≠ d) (hσ : σ ∈ settings.chunkStrategies) :
    ∀ id, id ∈ s.world.points σ d ↔
      ∃ c ∈ s.world.db.chunks, c.documentId = d ∧ c.strategy = σ ∧ c.id = id := by
  intro id
  rw [← mem_chunkIds]
  rcases (indexed_of_reachable hreach d hσ).agrees (Or.inl hready) with heq | ⟨h, ⟨m, hm, -, hd⟩, -⟩
  · rw [heq]
  · exact absurd hd (hquiet m h hm)

end

def OneRun (s : System World Execution) : Prop := ∀ run, run ≠ "run" → (s.runs run).tokens = []

def staysOnRun : Event Choice → Bool
  | .upload _ run _ _ | .act run _ _ => run = "run"
  | _ => true

theorem oneRun_exec {s s' : System World Execution} {e : Event Choice} (h : OneRun s)
    (hstays : staysOnRun e = true) (hexec : exec (handlers oneStrategy) s e = some s') :
    OneRun s' := by
  intro run hrun
  rcases run_cases hexec run with ⟨heq, -⟩ | ⟨_, _, _, rfl, -⟩ | ⟨w, rfl, heq⟩ |
    ⟨i, a, t, eff, rfl, -⟩
  · rw [heq]
    exact h run hrun
  · exact absurd (of_decide_eq_true hstays) hrun
  · rw [heq]
    simp [RunState.release, h run hrun]
  · exact absurd (of_decide_eq_true hstays) hrun

theorem OneRun.executing {s : System World Execution} {m : StageMessage} {k : Execution}
    (h : OneRun s) (hk : Executing s m k) :
    ∃ w, ⟨m, .inHand w (.handling k)⟩ ∈ (s.runs "run").tokens := by
  obtain ⟨run, w, hmem⟩ := hk
  by_cases hrun : run = "run"
  · subst hrun
    exact ⟨w, hmem⟩
  · rw [h run hrun] at hmem
    exact absurd hmem List.not_mem_nil

def parsed : List (Event Choice) :=
  [.upload "document" "run" "v1" "trace", .start 0 everyStage] ++
    onMessage 0 [.deliver 0, .call, .work (.format (some .flow)), .finish, .call, .call, .call,
      .call] ++
    onMessage 0 [.deliver 0, .call, .work (parsedAs "b1"), .finish, .call, .call, .call, .call]

def chunking (w : WorkerId) (id : String) : List (Act Choice) :=
  [.deliver w, .call, .work .next, .work (.drawn [id]), .work .next, .finish]

def indexing (w i : ℕ) : List (Event Choice) :=
  onMessage i [.deliver w, .call, .work .next, .finish, .call, .call, .call, .call] ++
    onMessage i [.deliver w, .call, .work .next, .work .next, .work .next, .work .next, .work .next,
      .finish, .call, .call]

/-- The worker of `chunk` dies before it acknowledges, and `chunk` is delivered again when the
    document is ready. -/
def chunkedTwice : List (Event Choice) :=
  parsed ++ onMessage 0 (chunking 0 "c1" ++ [.call, .call, .call]) ++
    [.crash 0, .start 1 everyStage] ++ indexing 1 1 ++
    onMessage 0 (chunking 1 "c2" ++ [.call, .call])

def seen (s : System World Execution) : Option DocStatus × List String × Bool × ℕ :=
  (s.world.db.documents "document", (s.world.db.loadChunks "document" "layout").map (·.id),
    "c1" ∈ s.world.points "layout" "document", (s.runs "run").tokens.length)

theorem not_executing {s : System World Execution} (h : OneRun s)
    (hnone : (s.runs "run").tokens.length = 0) (m : StageMessage) (k : Execution) :
    ¬ Executing s m k := by
  intro hk
  obtain ⟨w, hmem⟩ := h.executing hk
  rw [List.length_eq_zero_iff.mp hnone] at hmem
  exact List.not_mem_nil hmem

/-- The chunks get new ids, and `embed` is not told. -/
theorem redelivery_outdates_the_index :
    ¬ ∀ s d, Reachable Untouched (exec (handlers oneStrategy)) (fun _ _ => True) s →
      s.world.db.documents d = some .ready → (∀ m h, Executing s m h → m.documentId ≠ d) →
        ∀ σ ∈ oneStrategy.chunkStrategies, ∀ id, id ∈ s.world.points σ d ↔
          ∃ c ∈ s.world.db.chunks, c.documentId = d ∧ c.strategy = σ ∧ c.id = id := by
  have hend : (run (guarded (exec (handlers oneStrategy)) fun _ => staysOnRun) uploaded
      chunkedTwice).map seen = some (some .ready, ["c2"], true, 0) := by
    decide +kernel
  obtain ⟨s, hrun, heq⟩ := Option.map_eq_some_iff.mp hend
  obtain ⟨hready, hchunks, hpoint, hnone⟩ := by simpa only [seen, Prod.mk.injEq] using heq
  have hrun' : Reachable Untouched (exec (handlers oneStrategy)) (fun _ _ => True) s ∧ OneRun s := by
    apply reachable_of_guarded_run _ _ (.start uploaded_untouched) _ hrun
    · exact fun _ _ _ => oneRun_exec
    · exact fun _ _ _ _ => trivial
    · exact fun _ _ => rfl
  obtain ⟨hreach, hone⟩ := hrun'
  intro hall
  have hagree := hall s "document" hreach hready
    (fun m h hm => absurd hm (not_executing hone hnone m h)) "layout" (List.mem_singleton_self _) "c1"
  have hrow := mem_chunkIds.mpr (hagree.mp (of_decide_eq_true hpoint))
  unfold chunkIds at hrow
  rw [hchunks] at hrow
  exact absurd hrow (by decide)

def calm (s : System World Execution) : Event Choice → Bool
  | .act _ _ (.work (.drawn _)) => (s.runs "run").tokens.all fun t =>
      s.world.db.documents t.message.documentId ≠ some .ready ∧ t.message.stage ≠ "embed"
  | .act _ _ (.work .next) => (s.runs "run").tokens.all fun t => match t.place with
      | .inHand _ (.handling (.embedding (σ :: _))) =>
        s.world.db.loadChunks t.message.documentId σ ≠ []
      | _ => true
  | .act _ _ (.work .noEmbeddings) => false
  | .act _ _ (.work _) => true
  | _ => (s.runs "run").tokens.all fun t => match t.place with
      | .inHand _ (.handling (.cleared _ _ _)) => false
      | _ => true

theorem stopsKeepIndex_of_calm {s : System World Execution} {e : Event Choice} (hone : OneRun s)
    (hcalm : ((s.runs "run").tokens.all fun t => match t.place with
      | .inHand _ (.handling (.cleared _ _ _)) => false
      | _ => true) = true) : StopsKeepIndex s e := by
  rintro d σ h ⟨m, hm, -⟩ hc
  obtain ⟨w, hmem⟩ := hone.executing hm
  have hplace := List.all_eq_true.mp hcalm _ hmem
  cases h with
  | cleared τ ids left => cases hplace
  | _ => exact hc.elim

theorem keepsIndex_of_calm {s : System World Execution} {e : Event Choice} (hone : OneRun s)
    (hstays : staysOnRun e = true) (hcalm : calm s e = true) : KeepsIndex s e := by
  cases e with
  | act run i a =>
    cases a with
    | work c =>
      intro m w h hat
      obtain rfl : run = "run" := of_decide_eq_true hstays
      have hmem := List.mem_of_getElem? hat
      cases c with
      | drawn ids =>
        have hall := List.all_eq_true.mp hcalm
        have hown := of_decide_eq_true (hall _ hmem)
        unfold WorkKeepsIndex
        split
        · refine ⟨hown.1, ?_⟩
          rintro h ⟨m', hm', hstage, -⟩
          obtain ⟨w', hmem'⟩ := hone.executing hm'
          exact absurd hstage (of_decide_eq_true (hall _ hmem')).2
        all_goals trivial
      | next =>
        have hown := List.all_eq_true.mp hcalm _ hmem
        unfold WorkKeepsIndex
        split
        · trivial
        · exact fun hnil => absurd hnil (of_decide_eq_true hown)
        all_goals trivial
      | noEmbeddings => cases hcalm
      | _ => trivial
    | _ => exact stopsKeepIndex_of_calm hone hcalm
  | _ => exact stopsKeepIndex_of_calm hone hcalm

def ingested : List (Event Choice) :=
  parsed ++ onMessage 0 (chunking 0 "c1" ++ [.call, .call, .call, .call]) ++ indexing 0 0

theorem an_ingested_document_is_indexed :
    ∃ s, Reachable Untouched (exec (handlers oneStrategy)) KeepsIndex s ∧
      s.world.db.documents "document" = some .ready ∧ "c1" ∈ s.world.points "layout" "document" ∧
      ∀ id, id ∈ s.world.points "layout" "document" ↔
        ∃ c ∈ s.world.db.chunks, c.documentId = "document" ∧ c.strategy = "layout" ∧ c.id = id := by
  have hend : (run (guarded (exec (handlers oneStrategy)) fun s e => staysOnRun e && calm s e)
      uploaded ingested).map seen = some (some .ready, ["c1"], true, 0) := by
    decide +kernel
  obtain ⟨s, hrun, heq⟩ := Option.map_eq_some_iff.mp hend
  obtain ⟨hready, -, hpoint, hnone⟩ := by simpa only [seen, Prod.mk.injEq] using heq
  have hrun' : Reachable Untouched (exec (handlers oneStrategy)) KeepsIndex s ∧ OneRun s := by
    apply reachable_of_guarded_run _ _ (.start uploaded_untouched) _ hrun
    · exact fun s t e h hcheck => oneRun_exec h (Bool.and_eq_true_iff.mp hcheck).1
    · intro s e h hcheck
      obtain ⟨hstays, hcalm⟩ := Bool.and_eq_true_iff.mp hcheck
      exact keepsIndex_of_calm h hstays hcalm
    · exact fun _ _ => rfl
  obtain ⟨hreach, hone⟩ := hrun'
  exact ⟨s, hreach, hready, of_decide_eq_true hpoint,
    ready_documents_are_indexed hreach hready
      (fun m h hm => absurd hm (not_executing hone hnone m h)) (List.mem_singleton_self _)⟩

end Ragent.IndexAgreement
