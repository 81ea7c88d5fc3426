import Ragent.DocumentMarks

set_option autoImplicit false

/-!
# What becomes of a document

Along the runs without crashes the writers of `documents.status` never overlap, so that the last one
tells how the ingest of the document ended.
-/
namespace Ragent.DocumentOutcomes
open Formats Stages StageStores Runner GuardedRuns Consumer LayeredDispatch Dispatch PyNumbers
  DocumentTables StageHandlers DocumentMarks

/-- The documents whose content `detect_format` rejects with the event. -/
def rejects (s : System World Execution) : Event Choice → Finset String
  | .act run i (.work (.format none)) =>
    ((s.runs run).tokens[i]?).elim ∅ fun t => {t.message.documentId}
  | _ => ∅

/-- `create_document` has inserted the row, and nothing was published for it yet. -/
def New (s : System World Execution) (documentId : String) : Prop :=
  (s.world.db.documents documentId).isSome ∧
    ∀ run, ∀ m ∈ (s.runs run).record.published, m.documentId ≠ documentId

/-- No worker dies, no call raises, and a document is uploaded once. -/
def Allowed (s : System World Execution) (e : Event Choice) : Prop :=
  CrashFree e ∧ ∀ documentId run pipelineVersion traceId,
    e = .upload documentId run pipelineVersion traceId → New s documentId

section
variable {F : Type} [PyFloat F] (settings : Settings F)

def exec : System World Execution × Finset String → Event Choice →
    Option (System World Execution × Finset String) :=
  recorded (Consumer.exec (handlers settings)) fun s e rejected => rejected ∪ rejects s e

def Start (s : System World Execution × Finset String) : Prop := Initial s.1 ∧ s.2 = ∅

end

def Of (s : System World Execution) (run d : String) : Prop :=
  ∃ m ∈ (s.runs run).record.published, m.documentId = d

/-- Nothing is queued, delayed or being processed. -/
def AtRest (s : System World Execution) (run : String) : Prop :=
  ∀ t ∈ (s.runs run).tokens, ∃ reason, t.place = .dead reason

def AllSucceeded (s : System World Execution) (run : String) : Prop :=
  ∃ family, (s.runs run).record.detected = some family ∧ ∀ stage ∈ stagesFor PIPELINE family,
    (s.runs run).record.rows.status stage.name = some .succeeded

structure Tells (s : System World Execution) (run d : String) (rejected : Prop) : Prop where
  quarantined : rejected → s.world.db.documents d = some .quarantined
  failed : ¬ rejected → (∃ t ∈ (s.runs run).tokens, ∃ reason, t.place = .dead reason) →
    s.world.db.documents d = some .failed
  ready : AllSucceeded s run → s.world.db.documents d = some .ready

section
variable {F : Type} [PyFloat F] {settings : Settings F} {r : RunState Execution} {b : Board String}
  {world : World} {t t' : Token Execution} {e : Effect World Execution} {d σ : String} {i j : ℕ}

/-- Two tokens with a duty for the same stage are one. -/
theorem same_token {H : Type} {r : RunState H} {t t' : Token H} (h : Dispatched r b)
    (ht : r.tokens[i]? = some t) {x x' : Duty} (hx : (σ, x) ∈ agenda t)
    (ht' : r.tokens[j]? = some t') (hx' : (σ, x') ∈ agenda t') : i = j := by
  have hle : (modeDuties (b σ)).length ≤ 1 := by cases b σ <;> decide
  rw [← h.shows.around ht σ, List.length_append, List.length_append] at hle
  have hpos := List.length_pos_of_mem (mem_duties.mpr hx)
  obtain ⟨hlt, heq⟩ := List.getElem?_eq_some_iff.mp ht'
  by_contra hne
  by_cases hbefore : j < i
  · have hmem : t' ∈ r.tokens.take i := List.mem_take_iff_getElem.mpr ⟨j, by omega, heq⟩
    have hpos' := List.length_pos_of_mem (mem_duties.mpr (List.mem_flatMap.mpr ⟨t', hmem, hx'⟩))
    omega
  · have hmem : t' ∈ r.tokens.drop (i + 1) := by
      apply List.mem_drop_iff_getElem.mpr
      refine ⟨j - (i + 1), by omega, ?_⟩
      rw [← heq]
      congr 1
      omega
    have hpos' := List.length_pos_of_mem (mem_duties.mpr (List.mem_flatMap.mpr ⟨t', hmem, hx'⟩))
    omega

theorem failed_of_buried (h : Dispatched r b) (ht : t ∈ r.tokens) (hburied : Buried t) :
    b t.message.stage = .failed := by
  have hduties := h.shows.duties_eq ht (agenda_of_buried hburied)
  cases hm : b t.message.stage <;> simp [hm, modeDuties] at hduties ⊢

theorem running_of_embedded (h : Dispatched r b) (ht : t ∈ r.tokens) (hembedded : Embedded t) :
    b "embed" = .running := by
  have hduties := h.shows.duties_eq ht (agenda_of_embedded hembedded)
  cases hm : b "embed" <;> simp [hm, modeDuties] at hduties ⊢

theorem exists_sound (h : Dispatched r b) : ∃ family, Sound (route family) b := by
  refine ⟨r.record.detected.getD .pdf, h.sound _ fun found hfound => ?_⟩
  rw [hfound]
  rfl

theorem succeeded_of_row (h : Dispatched r b)
    (hrow : r.record.rows.status "embed" = some .succeeded) (hσ : b σ ≠ .idle) :
    b σ = .succeeded := by
  obtain ⟨family, hsound⟩ := exists_sound h
  rw [h.shows.row, modeRow_eq_succeeded] at hrow
  by_cases hne : σ = "embed"
  · rw [hne, hrow]
  · exact embed_last hsound (by simp [hrow]) hσ hne

theorem row_ne_succeeded (h : Dispatched r b) (hσ : b σ ≠ .idle) (hσ' : b σ ≠ .succeeded) :
    r.record.rows.status "embed" ≠ some .succeeded :=
  fun hrow => hσ' (succeeded_of_row h hrow hσ)

theorem eq_embed_of_token (h : Dispatched r b) (ht : t ∈ r.tokens) (hembedded : Embedded t)
    (hσ : b σ ≠ .idle) (hσ' : b σ ≠ .succeeded) : σ = "embed" := by
  obtain ⟨family, hsound⟩ := exists_sound h
  by_contra hne
  have hrunning := running_of_embedded h ht hembedded
  exact hσ' (embed_last hsound (by simp [hrunning]) hσ hne)

theorem busy_of_agenda (h : Dispatched r b) (ht : r.tokens[i]? = some t) {x : Duty}
    (hx : (t.message.stage, x) ∈ agenda t) : b t.message.stage ≠ .idle := by
  intro hidle
  have hduties := h.mode_eq ht hx
  simp [hidle, modeDuties] at hduties

theorem not_embedded_beside (h : Dispatched r b) (ht : r.tokens[i]? = some t) {x : Duty}
    (hx : (t.message.stage, x) ∈ agenda t) (hσ : b t.message.stage ≠ .succeeded) (hne : j ≠ i)
    (hj : r.tokens[j]? = some t') : ¬ Embedded t' := by
  intro hembedded
  have hstage := eq_embed_of_token h (List.mem_of_getElem? hj) hembedded (busy_of_agenda h ht hx) hσ
  rw [hstage] at hx
  exact hne (same_token h hj (agenda_of_embedded hembedded) ht hx)

theorem embedded_of_replace (h : Dispatched r b) (ht : r.tokens[i]? = some t) {x : Duty}
    (hx : (t.message.stage, x) ∈ agenda t) (hσ : b t.message.stage ≠ .succeeded)
    (hrecord : e.record = r.record)
    (hembed : (r.replace i e).record.rows.status "embed" = some .succeeded ∨
      ∃ t' ∈ (r.replace i e).tokens, Embedded t') :
    ∃ t' ∈ e.own.toList ++ e.sent, Embedded t' := by
  obtain hrow | ⟨t', ht', hembedded⟩ := hembed
  · change e.record.rows.status "embed" = some .succeeded at hrow
    rw [hrecord] at hrow
    exact absurd hrow (row_ne_succeeded h (busy_of_agenda h ht hx) hσ)
  · obtain hnew | ⟨j, hne, hj⟩ := mem_replace.mp ht'
    · exact ⟨t', hnew, hembedded⟩
    · exact absurd hembedded (not_embedded_beside h ht hx hσ hne hj)

theorem buried_turn (h : Dispatched r b) (ht : r.tokens[i]? = some t)
    (hmarks : Marks settings r.record world t e) (hown : t.message.documentId = d)
    (hsome : (world.db.documents d).isSome)
    (hold : (∃ t ∈ r.tokens, Buried t) → world.db.documents d = some .failed)
    (hburied : ∃ t ∈ (r.replace i e).tokens, Buried t) :
    e.world.db.documents d = some .failed := by
  obtain ⟨t', ht', hburied⟩ := hburied
  cases hmarks with
  | quiet hworld hkeeps =>
    rw [hworld]
    apply hold
    obtain hnew | ⟨j, -, hj⟩ := mem_replace.mp ht'
    · exact ⟨t, List.mem_of_getElem? ht, hkeeps t' hnew hburied⟩
    · exact ⟨t', List.mem_of_getElem? hj, hburied⟩
  | @works m w c k k' heq hnew hrecord hstep =>
    subst heq
    obtain hmem | ⟨j, -, hj⟩ := mem_replace.mp ht'
    · rw [hnew, List.mem_singleton] at hmem
      rw [hmem] at hburied
      exact hburied.elim
    have hmode := h.running_of_act ht (List.mem_singleton_self (m.stage, Duty.act))
    have hfailed := failed_of_buried h (List.mem_of_getElem? hj) hburied
    obtain ⟨hsame, -⟩ | ⟨hwriter, -⟩ := step_documents hstep
    · rw [hsame]
      exact hold ⟨t', List.mem_of_getElem? hj, hburied⟩
    · obtain ⟨family, hsound⟩ := exists_sound h
      have hone : t'.message.stage = m.stage := by
        apply writer_alone hsound _ _ _ _ hwriter
        · simp [hfailed]
        · simp [hfailed]
        · simp [hmode]
        · simp [hmode]
      rw [hone, hmode] at hfailed
      cases hfailed
  | condemns heq hnew hrecord hworld =>
    subst heq
    subst hown
    obtain ⟨status, hstatus⟩ := Option.isSome_iff_exists.mp hsome
    rw [hworld]
    simp [World.setDocumentStatus, Database.setDocumentStatus, hstatus]

theorem embedded_turn (h : Dispatched r b) (ht : r.tokens[i]? = some t)
    (hmarks : Marks settings r.record world t e) (hown : t.message.documentId = d)
    (hsome : (world.db.documents d).isSome)
    (hold : (r.record.rows.status "embed" = some .succeeded ∨ ∃ t ∈ r.tokens, Embedded t) →
      world.db.documents d = some .ready)
    (hembed : (r.replace i e).record.rows.status "embed" = some .succeeded ∨
      ∃ t ∈ (r.replace i e).tokens, Embedded t) :
    e.world.db.documents d = some .ready := by
  cases hmarks with
  | quiet hworld hburied hkeeps hrow =>
    rw [hworld]
    apply hold
    obtain hsucceeded | ⟨t', ht', hembedded⟩ := hembed
    · exact (hrow hsucceeded).imp_right fun h => ⟨t, List.mem_of_getElem? ht, h⟩
    · right
      obtain hnew | ⟨j, -, hj⟩ := mem_replace.mp ht'
      · exact ⟨t, List.mem_of_getElem? ht, hkeeps t' hnew hembedded⟩
      · exact ⟨t', List.mem_of_getElem? hj, hembedded⟩
  | @works m w c k k' heq hnew hrecord hstep =>
    subst heq
    have hact := List.mem_singleton_self (m.stage, Duty.act)
    have hmode : b m.stage = .running := h.running_of_act ht hact
    obtain ⟨t', hmem, hstage, hplace⟩ :=
      embedded_of_replace h ht hact (by simp [hmode]) hrecord hembed
    rw [hnew, List.mem_singleton] at hmem
    subst hmem
    have hreturned : k' = .returned := by
      cases k' with
      | returned => rfl
      | _ => exact hplace.elim
    obtain ⟨-, hnot⟩ | ⟨-, status, hready, hwrites⟩ := step_documents hstep
    · exact absurd hreturned (hnot hstage)
    · subst hown
      obtain ⟨old, hstatus⟩ := Option.isSome_iff_exists.mp hsome
      rw [hwrites, hready hstage hreturned]
      simp [hstatus]
  | @condemns m w reason heq hnew hrecord hworld =>
    subst heq
    have hbury := List.mem_singleton_self (m.stage, Duty.bury)
    have hmode : b m.stage = .failed := by
      have hduties := h.mode_eq ht hbury
      cases hm : b m.stage <;> simp [hm, modeDuties] at hduties ⊢
    obtain ⟨t', hmem, hembedded⟩ :=
      embedded_of_replace h ht hbury (by simp [hmode]) hrecord hembed
    rw [hnew, List.mem_singleton] at hmem
    subst hmem
    exact hembedded.2.elim

structure Follows (world : World) (r : RunState Execution) (d : String) : Prop where
  published : ∀ m ∈ r.record.published, m.documentId = d
  tokens : ∀ t ∈ r.tokens, ∀ m ∈ messages t, m.documentId = d
  known : (world.db.documents d).isSome
  buried : (∃ t ∈ r.tokens, Buried t) → world.db.documents d = some .failed
  embedded : (r.record.rows.status "embed" = some .succeeded ∨ ∃ t ∈ r.tokens, Embedded t) →
    world.db.documents d = some .ready

namespace Follows
variable {world' : World} {live : WorkerId → Option (List String)} {a : Act Choice}

theorem frame (h : Follows world r d) (hsame : world'.db.documents d = world.db.documents d) :
    Follows world' r d := by
  constructor
  · exact h.published
  · exact h.tokens
  · rw [hsame]
    exact h.known
  · rw [hsame]
    exact h.buried
  · rw [hsame]
    exact h.embedded

theorem turn (h : Follows world r d) (hb : Dispatched r b) (ht : r.tokens[i]? = some t)
    (hturn : Turn (handlers settings) live r.record world t a e)
    (hcalls : ∀ done, a ≠ .callRaises done) (hstage : t.message.stage ∈ registeredStages) :
    Follows e.world (r.replace i e) d := by
  have hmem := List.mem_of_getElem? ht
  have hown : t.message.documentId = d := h.tokens t hmem _ List.mem_cons_self
  have hmarks := turn_marks hturn hcalls hstage
  obtain ⟨htokens, new, hpublished, hnew⟩ := turn_stays hturn hcalls (h.tokens t hmem)
  constructor
  · intro m hm
    change m ∈ e.record.published at hm
    rw [hpublished] at hm
    obtain hold | hnewm := List.mem_append.mp hm
    · exact h.published m hold
    · exact hnew m hnewm
  · intro t' ht'
    obtain hnewt | ⟨j, -, hj⟩ := mem_replace.mp ht'
    · exact htokens t' hnewt
    · exact h.tokens t' (List.mem_of_getElem? hj)
  · exact hmarks.elsewhere.2 d h.known
  · exact buried_turn hb ht hmarks hown h.known h.buried
  · exact embedded_turn hb ht hmarks hown h.known h.embedded

theorem uploaded (hknown : (world.db.documents d).isSome) (run pipelineVersion traceId : String) :
    Follows world (({} : RunState Execution).upload (uploadMessage d run pipelineVersion traceId)) d := by
  have htokens : ∀ t ∈ (({} : RunState Execution).upload
      (uploadMessage d run pipelineVersion traceId)).tokens,
      t = ⟨uploadMessage d run pipelineVersion traceId, .queued⟩ :=
    fun t ht => List.mem_singleton.mp ht
  constructor
  · exact List.forall_mem_singleton.mpr rfl
  · intro t ht
    rw [htokens t ht]
    exact List.forall_mem_singleton.mpr rfl
  · exact hknown
  · intro ⟨t, ht, hburied⟩
    rw [htokens t ht] at hburied
    exact hburied.elim
  · intro hembed
    obtain hrow | ⟨t, ht, hembedded⟩ := hembed
    · cases hrow
    · rw [htokens t ht] at hembedded
      exact hembedded.2.elim

end Follows

structure Tracked (s : System World Execution) : Prop where
  follows : ∀ run d, Of s run d → Follows s.world (s.runs run) d
  single : ∀ run run' d, Of s run d → Of s run' d → run = run'

namespace Tracked
variable {s s' : System World Execution}

theorem initial (h : Initial s) : Tracked s := by
  have hnone : ∀ run d, ¬ Of s run d := by
    intro run d hof
    obtain ⟨m, hm, -⟩ := hof
    rw [h.2] at hm
    cases hm
  exact ⟨fun run d hof => absurd hof (hnone run d), fun run _ d hof => absurd hof (hnone run d)⟩

theorem upload (h : Tracked s) {run pipelineVersion traceId : String} (hnew : New s d)
    (hworld : s'.world = s.world)
    (hself : s'.runs run =
      ({} : RunState Execution).upload (uploadMessage d run pipelineVersion traceId))
    (hothers : ∀ run' ≠ run, s'.runs run' = s.runs run') : Tracked s' := by
  have hown : Follows s'.world (s'.runs run) d := by
    rw [hworld, hself]
    exact .uploaded hnew.1 run pipelineVersion traceId
  have hcases : ∀ run' d', Of s' run' d' →
      (run' = run ∧ d' = d) ∨ (run' ≠ run ∧ Of s run' d' ∧ d' ≠ d) := by
    intro run' d' hof
    obtain ⟨m, hm, rfl⟩ := hof
    by_cases hrun : run' = run
    · subst hrun
      exact .inl ⟨rfl, hown.published m hm⟩
    · rw [hothers run' hrun] at hm
      exact .inr ⟨hrun, ⟨m, hm, rfl⟩, hnew.2 run' m hm⟩
  constructor
  · intro run' d' hof
    obtain ⟨rfl, rfl⟩ | ⟨hrun, hof', -⟩ := hcases run' d' hof
    · exact hown
    · rw [hworld, hothers run' hrun]
      exact h.follows run' d' hof'
  · intro run₁ run₂ d' hof₁ hof₂
    obtain ⟨rfl, rfl⟩ | ⟨-, hof₁', hne₁⟩ := hcases run₁ d' hof₁
    · obtain ⟨rfl, -⟩ | ⟨-, -, hne⟩ := hcases run₂ d' hof₂
      · rfl
      · exact absurd rfl hne
    · obtain ⟨-, heq⟩ | ⟨-, hof₂', -⟩ := hcases run₂ d' hof₂
      · exact absurd heq hne₁
      · exact h.single run₁ run₂ d' hof₁' hof₂'

theorem turn (h : Tracked s) {run : String} (hb : Dispatched (s.runs run) b)
    (hof : Of s run d) (ht : (s.runs run).tokens[i]? = some t) {a : Act Choice}
    (hturn : Turn (handlers settings) s.live (s.runs run).record s.world t a e)
    (hcalls : ∀ done, a ≠ .callRaises done) (hstage : t.message.stage ∈ registeredStages)
    (hworld : s'.world = e.world) (hself : s'.runs run = (s.runs run).replace i e)
    (hothers : ∀ run' ≠ run, s'.runs run' = s.runs run') : Tracked s' := by
  have hfollows := h.follows run d hof
  have hown : Follows s'.world (s'.runs run) d := by
    rw [hworld, hself]
    exact hfollows.turn hb ht hturn hcalls hstage
  have hmessage : t.message.documentId = d :=
    hfollows.tokens t (List.mem_of_getElem? ht) _ List.mem_cons_self
  have hcases : ∀ run' d', Of s' run' d' → (run' = run ∧ d' = d) ∨ (run' ≠ run ∧ Of s run' d') := by
    intro run' d' hof'
    obtain ⟨m, hm, rfl⟩ := hof'
    by_cases hrun : run' = run
    · subst hrun
      exact .inl ⟨rfl, hown.published m hm⟩
    · rw [hothers run' hrun] at hm
      exact .inr ⟨hrun, m, hm, rfl⟩
  have hold : ∀ run' d', Of s' run' d' → Of s run' d' := by
    intro run' d' hof'
    obtain ⟨rfl, rfl⟩ | ⟨-, hof'⟩ := hcases run' d' hof'
    · exact hof
    · exact hof'
  constructor
  · intro run' d' hof'
    obtain ⟨rfl, rfl⟩ | ⟨hrun, hof'⟩ := hcases run' d' hof'
    · exact hown
    · rw [hworld, hothers run' hrun]
      apply (h.follows run' d' hof').frame
      apply (turn_marks hturn hcalls hstage).elsewhere.1
      rintro rfl
      exact hrun (h.single run' run _ hof' (hmessage ▸ hof))
  · intro run₁ run₂ d' hof₁ hof₂
    exact h.single run₁ run₂ d' (hold run₁ d' hof₁) (hold run₂ d' hof₂)

end Tracked

theorem tracked_of_reachable {s : System World Execution}
    (h : Reachable Initial (Consumer.exec (handlers settings)) Allowed s) : Tracked s := by
  induction h with
  | start hinit => exact .initial hinit
  | @next s s' e hreach hok hexec ih =>
    have hfree : Reachable Initial (Consumer.exec (handlers settings)) (fun _ e => CrashFree e) s :=
      hreach.mono fun _ _ h => h.1
    cases e with
    | start w stages =>
      simp only [Consumer.exec, Option.ite_none_right_eq_some, Option.some.injEq] at hexec
      obtain ⟨-, rfl⟩ := hexec
      exact ⟨ih.follows, ih.single⟩
    | crash w => exact hok.1.elim
    | upload documentId run pipelineVersion traceId =>
      simp only [Consumer.exec, Option.ite_none_right_eq_some, Option.some.injEq] at hexec
      obtain ⟨hnone, rfl⟩ := hexec
      obtain hempty | ⟨hpublished, -⟩ := dispatched_of_reachable hfree run
      · have hself := Function.update_self run
          ((s.runs run).upload (uploadMessage documentId run pipelineVersion traceId)) s.runs
        nth_rewrite 2 [hempty] at hself
        exact Tracked.upload ih (hok.2 _ _ _ _ rfl) rfl hself
          fun run' hrun => Function.update_of_ne hrun ..
      · exact absurd hnone hpublished
    | act run i a =>
      obtain ⟨t, ht, hact⟩ := Option.bind_eq_some_iff.mp hexec
      obtain ⟨eff, heff, rfl⟩ := Option.map_eq_some_iff.mp hact
      have hcalls : ∀ done, a ≠ .callRaises done := by
        rintro done rfl
        exact hok.1
      have hstage := stages_registered hreach run t (List.mem_of_getElem? ht) _ List.mem_cons_self
      obtain hempty | ⟨hpublished, b, hb⟩ := dispatched_of_reachable hfree run
      · rw [hempty] at ht
        cases ht
      · obtain ⟨m, hm⟩ := List.exists_mem_of_ne_nil _ hpublished
        apply ih.turn hb ⟨m, hm, rfl⟩ ht (turn_of_act heff) hcalls hstage rfl
        · exact Function.update_self ..
        · exact fun run' hrun => Function.update_of_ne hrun ..

section
variable {s : System World Execution × Finset String} {run d : String}

theorem reachable_of_exec
    (h : Reachable Start (exec settings) (fun s e => Allowed s.1 e) s) :
    Reachable Initial (Consumer.exec (handlers settings)) Allowed s.1 :=
  reachable_of_recorded (fun _ h => h.1) (fun _ _ h => h) h

theorem embed_of_allSucceeded {s : System World Execution} (h : AllSucceeded s run) :
    (s.runs run).record.rows.status "embed" = some .succeeded := by
  obtain ⟨family, -, hall⟩ := h
  obtain ⟨stage, hstage, hfamily, hname⟩ := mem_stageNamesFor.mp (route_embed family).1
  rw [← hname]
  exact hall stage (mem_stagesFor.mpr ⟨hstage, hfamily⟩)

/-- `fail_stage` has the last word on a document that is given up, `embed` on any other. -/
theorem settled (h : Reachable Start (exec settings) (fun s e => Allowed s.1 e) s)
    (hof : Of s.1 run d) (hrest : AtRest s.1 run) :
    s.1.world.db.documents d = some .ready ∨ s.1.world.db.documents d = some .failed := by
  have hreach := reachable_of_exec h
  have hfollows := (tracked_of_reachable hreach).follows run d hof
  obtain hempty | ⟨-, b, hb⟩ := dispatched_of_reachable (hreach.mono fun _ _ h => h.1) run
  · obtain ⟨m, hm, -⟩ := hof
    rw [hempty] at hm
    cases hm
  · obtain hall | ⟨t, ht, -⟩ := hb.finished hrest
    · exact .inl (hfollows.embedded (.inl (embed_of_allSucceeded hall)))
    · right
      obtain ⟨reason, hplace⟩ := hrest t ht
      exact hfollows.buried ⟨t, ht, by simp [Buried, hplace]⟩

/-- The status tells the outcome of the documents that `detect_format` accepts, and of no other:
    the dead-lettering of the message for `detect` overwrites 'quarantined' by 'failed'. -/
theorem status_tells_iff (h : Reachable Start (exec settings) (fun s e => Allowed s.1 e) s)
    (hof : Of s.1 run d) (hrest : AtRest s.1 run) :
    Tells s.1 run d (d ∈ s.2) ↔ d ∉ s.2 := by
  have hfollows := (tracked_of_reachable (reachable_of_exec h)).follows run d hof
  constructor
  · intro htells hrejected
    have hstatus := htells.quarantined hrejected
    obtain hready | hfailed := settled h hof hrest
    · rw [hready] at hstatus
      cases hstatus
    · rw [hfailed] at hstatus
      cases hstatus
  · intro haccepted
    constructor
    · exact fun hrejected => absurd hrejected haccepted
    · intro _ ⟨t, ht, reason, hplace⟩
      exact hfollows.buried ⟨t, ht, by simp [Buried, hplace]⟩
    · exact fun hall => hfollows.embedded (.inl (embed_of_allSucceeded hall))

end

end

def harmless : Event Choice → Bool
  | .crash _ | .upload _ _ _ _ | .act _ _ (.callRaises _) => false
  | _ => true

theorem allowed_of_harmless {s : System World Execution} {e : Event Choice} (h : harmless e) :
    Allowed s e := by
  constructor
  · cases e with
    | act run i a =>
      cases a with
      | callRaises done => cases h
      | _ => trivial
    | crash w => cases h
    | _ => trivial
  · rintro documentId run pipelineVersion traceId rfl
    cases h

theorem reachable_of_upload {events : List (Event Choice)} {s : System World Execution × Finset String}
    (hevents : events.all harmless)
    (hrun : GuardedRuns.run (exec oneStrategy) (uploaded, ∅)
      (.upload "document" "run" "v1" "trace" :: events) = some s) :
    Reachable Start (exec oneStrategy) (fun s e => Allowed s.1 e) s := by
  obtain ⟨u, hupload, hrest⟩ := Option.bind_eq_some_iff.mp hrun
  have hstart : Reachable Start (exec oneStrategy) (fun s e => Allowed s.1 e) (uploaded, ∅) :=
    .start ⟨uploaded_untouched.1, rfl⟩
  have hnew : New uploaded "document" := ⟨rfl, fun _ _ hm => absurd hm List.not_mem_nil⟩
  have hfirst : Reachable Start (exec oneStrategy) (fun s e => Allowed s.1 e) u := by
    apply hstart.next _ hupload
    constructor
    · trivial
    · intro documentId run pipelineVersion traceId heq
      cases heq
      exact hnew
  apply reachable_of_run hfirst _ hrest
  intro e he v
  exact allowed_of_harmless (List.all_eq_true.mp hevents e he)

/-- The handler raises `exc` behind the choices `works`, and the message goes to the dead-letter
    queue. -/
def dies (works : List Choice) (exc : Exc) : List (Event Choice) :=
  onMessage 0 ([.deliver 0, .call] ++ works.map .work ++ [.fail exc, .call, .call, .call, .call])

def detected : List (Event Choice) :=
  onMessage 0 [.deliver 0, .call, .work (.format (some .flow)), .finish, .call, .call, .call, .call]

def endsWith (status : DocStatus) (rejected : Bool) (s : System World Execution × Finset String) :
    Bool :=
  ((s.1.runs "run").record.published.any fun m => m.documentId = "document") &&
    ((s.1.runs "run").tokens.all fun t => match t.place with
      | .dead _ => true
      | _ => false) &&
    s.1.world.db.documents "document" = some status && ("document" ∈ s.2) = rejected

theorem of_endsWith {status : DocStatus} {rejected : Bool}
    {s : System World Execution × Finset String} (h : endsWith status rejected s = true) :
    Of s.1 "run" "document" ∧ AtRest s.1 "run" ∧
      s.1.world.db.documents "document" = some status ∧ ("document" ∈ s.2 ↔ rejected) := by
  simp only [endsWith, Bool.and_eq_true, decide_eq_true_eq, eq_iff_iff] at h
  obtain ⟨⟨⟨hof, hrest⟩, hstatus⟩, hrejected⟩ := h
  refine ⟨?_, fun t ht => ?_, hstatus, hrejected⟩
  · obtain ⟨m, hm, hd⟩ := List.any_eq_true.mp hof
    exact ⟨m, hm, of_decide_eq_true hd⟩
  · have hplace := List.all_eq_true.mp hrest t ht
    cases hdead : t.place with
    | dead reason => exact ⟨reason, rfl⟩
    | _ => simp [hdead] at hplace

/-- `detect` writes 'quarantined', and `fail_stage` 'failed' over it. -/
theorem a_rejected_document_is_failed :
    ¬ ∀ s run d, Reachable Start (exec oneStrategy) (fun s e => Allowed s.1 e) s → Of s.1 run d →
      AtRest s.1 run → Tells s.1 run d (d ∈ s.2) := by
  have hend : (GuardedRuns.run (exec oneStrategy) (uploaded, ∅)
      (.upload "document" "run" "v1" "trace" :: .start 0 everyStage ::
        dies [.format none] ⟨"UnsupportedFormatError", "", true⟩)).map (endsWith .failed true) =
      some true := by
    decide +kernel
  obtain ⟨s, hrun, heq⟩ := Option.map_eq_some_iff.mp hend
  obtain ⟨hof, hrest, hstatus, hrejected⟩ := of_endsWith heq
  intro hall
  have htells := hall s "run" "document" (reachable_of_upload (by decide) hrun) hof hrest
  have hquarantined := htells.quarantined (hrejected.mpr rfl)
  rw [hstatus] at hquarantined
  cases hquarantined

theorem an_unreadable_document_is_failed :
    ∃ s, Reachable Start (exec oneStrategy) (fun s e => Allowed s.1 e) s ∧
      s.1.world.db.documents "document" = some .failed ∧
      Tells s.1 "run" "document" ("document" ∈ s.2) := by
  have hend : (GuardedRuns.run (exec oneStrategy) (uploaded, ∅)
      (.upload "document" "run" "v1" "trace" :: .start 0 everyStage ::
        detected ++ dies [] ⟨"PermanentError", "", true⟩)).map (endsWith .failed false) =
      some true := by
    decide +kernel
  obtain ⟨s, hrun, heq⟩ := Option.map_eq_some_iff.mp hend
  obtain ⟨hof, hrest, hstatus, hrejected⟩ := of_endsWith heq
  have hreach := reachable_of_upload (by decide) hrun
  refine ⟨s, hreach, hstatus, (status_tells_iff hreach hof hrest).mpr fun h => ?_⟩
  cases hrejected.mp h

end Ragent.DocumentOutcomes
