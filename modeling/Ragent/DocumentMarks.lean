import Ragent.Dispatch
import Ragent.StageHandlers

set_option autoImplicit false

/-!
# Marks on a document

Four places write `documents.status`: `detect`, `parse`, `embed` and the permanent branch of
`fail_stage`. What a turn of a message writes, and what it leaves for the turns behind it.
-/
namespace Ragent.DocumentMarks
open Formats Stages StageStores Runner Consumer LayeredDispatch Dispatch PyNumbers DocumentTables
  StageHandlers

def writers : List String := ["detect", "parse", "embed"]

theorem route_writers (family : FormatFamily) : ∀ σ ∈ (route family).members,
    ∀ τ ∈ (route family).members, τ ∈ writers → (route family).rank σ = (route family).rank τ →
      σ = τ := by
  cases family <;> decide +kernel

theorem route_embed (family : FormatFamily) : "embed" ∈ (route family).members ∧
    ∀ σ ∈ (route family).members, σ ≠ "embed" →
      (route family).rank σ < (route family).rank "embed" := by
  cases family <;> decide +kernel

section
variable {family : FormatFamily} {b : Board String} {σ τ : String}

/-- No other stage is between its start and its success when a writer is. -/
theorem writer_alone (h : Sound (route family) b) (hσ : b σ ≠ .idle) (hσ' : b σ ≠ .succeeded)
    (hτ : b τ ≠ .idle) (hτ' : b τ ≠ .succeeded) (hwriter : τ ∈ writers) : σ = τ := by
  have hσmem := h.mem hσ
  have hτmem := h.mem hτ
  apply route_writers family σ hσmem τ hτmem hwriter
  by_contra hne
  by_cases hlt : (route family).rank σ < (route family).rank τ
  · exact hσ' (h.below_succeeded hσmem hτ hlt)
  · exact hτ' (h.below_succeeded hτmem hσ (by omega))

theorem embed_last (h : Sound (route family) b) (hembed : b "embed" ≠ .idle) (hσ : b σ ≠ .idle)
    (hne : σ ≠ "embed") : b σ = .succeeded := by
  have hmem := h.mem hσ
  exact h.below_succeeded hmem hembed ((route_embed family).2 σ hmem hne)

end

section
variable {F : Type} [PyFloat F] {settings : Settings F} {m : StageMessage} {c : Choice}
  {w w' : World} {k k' : Execution}

theorem step_documents (h : Step settings m w c k k' w') :
    (w'.db.documents = w.db.documents ∧ (m.stage = "embed" → k' ≠ .returned)) ∨
      m.stage ∈ writers ∧ ∃ status, (m.stage = "embed" → k' = .returned → status = .ready) ∧
        w'.db.documents = Function.update w.db.documents m.documentId
          ((w.db.documents m.documentId).map fun _ => status) := by
  cases h with
  | detects hstage family => exact .inr ⟨by simp [hstage, writers], .processing, by simp [hstage], rfl⟩
  | refuses hstage => exact .inr ⟨by simp [hstage, writers], .quarantined, by simp [hstage], rfl⟩
  | parses hstage => exact .inr ⟨by simp [hstage, writers], .processing, by simp [hstage], rfl⟩
  | embedded hstage => exact .inr ⟨by simp [hstage, writers], .ready, by simp, rfl⟩
  | passes hstage =>
    left
    refine ⟨rfl, fun hembed => ?_⟩
    rw [hembed] at hstage
    exact absurd (by decide) hstage
  | stores hstage _ _ _ hdb =>
    left
    exact ⟨(Database.replaced_of_replaceChunks hdb).documents, by simp [hstage]⟩
  | parsesFlow hstage => exact .inl ⟨rfl, by simp [hstage]⟩
  | chunked hstage => exact .inl ⟨rfl, by simp [hstage]⟩
  | contextualizes hstage => exact .inl ⟨rfl, by simp [hstage]⟩
  | _ => exact .inl ⟨rfl, fun _ => nofun⟩

end

def messages (t : Token Execution) : List StageMessage :=
  t.message :: match t.place with
    | .inHand _ (.completing m) => [m]
    | .inHand _ (.reserving follower rest) => follower :: rest
    | .inHand _ (.publishing follower rest) => follower :: rest
    | _ => []

def Buried (t : Token Execution) : Prop :=
  match t.place with
  | .dead _ | .inHand _ (.deadLettering _) => True
  | _ => False

def Embedded (t : Token Execution) : Prop :=
  t.message.stage = "embed" ∧ match t.place with
    | .inHand _ (.handling .returned) | .inHand _ (.completing _) => True
    | _ => False

theorem agenda_of_buried {t : Token Execution} (h : Buried t) :
    (t.message.stage, Duty.bury) ∈ agenda t := by
  obtain ⟨m, place⟩ := t
  cases place with
  | dead reason => exact List.mem_singleton_self _
  | inHand w phase =>
    cases phase with
    | deadLettering reason => exact List.mem_singleton_self _
    | _ => exact h.elim
  | _ => exact h.elim

theorem agenda_of_embedded {t : Token Execution} (h : Embedded t) : ("embed", Duty.act) ∈ agenda t := by
  obtain ⟨m, place⟩ := t
  obtain ⟨hstage, hplace⟩ := h
  cases place with
  | inHand w phase =>
    cases phase with
    | handling k => exact List.mem_singleton.mpr (Prod.ext hstage.symm rfl)
    | completing m' => exact List.mem_singleton.mpr (Prod.ext hstage.symm rfl)
    | _ => exact hplace.elim
  | _ => exact hplace.elim

section
variable {F : Type} [PyFloat F] {settings : Settings F} {record : Record} {world : World}
  {live : WorkerId → Option (List String)} {t : Token Execution} {a : Act Choice}
  {e : Effect World Execution} {d : String}

theorem messages_reserve {m : StageMessage} {w : WorkerId} {followers : List StageMessage} :
    messages ⟨m, .inHand w (reserve followers)⟩ = m :: followers := by
  cases followers <;> rfl

theorem messages_publish {m : StageMessage} {w : WorkerId} {followers : List StageMessage} :
    messages ⟨m, .inHand w (Consumer.publish followers)⟩ = m :: followers := by
  cases followers <;> rfl

/-- What a turn does to the tables of the documents. -/
inductive Marks (settings : Settings F) (record : Record) (world : World) (t : Token Execution)
    (e : Effect World Execution) : Prop
  | quiet (hworld : e.world.db.documents = world.db.documents)
    (hburied : ∀ t' ∈ e.own.toList ++ e.sent, Buried t' → Buried t)
    (hembedded : ∀ t' ∈ e.own.toList ++ e.sent, Embedded t' → Embedded t)
    (hrow : e.record.rows.status "embed" = some .succeeded →
      record.rows.status "embed" = some .succeeded ∨ Embedded t)
  | works {m : StageMessage} {w : WorkerId} {c : Choice} {k k' : Execution}
    (ht : t = ⟨m, .inHand w (.handling k)⟩)
    (hnew : e.own.toList ++ e.sent = [⟨m, .inHand w (.handling k')⟩])
    (hrecord : e.record = record) (hstep : Step settings m world c k k' e.world)
  | condemns {m : StageMessage} {w : WorkerId} {reason : String}
    (ht : t = ⟨m, .inHand w (.condemning reason)⟩)
    (hnew : e.own.toList ++ e.sent = [⟨m, .inHand w (.deadLettering reason)⟩])
    (hrecord : e.record = record)
    (hworld : e.world = world.setDocumentStatus m.documentId .failed)

theorem reserve_unmarked (m : StageMessage) (w : WorkerId) (followers : List StageMessage) :
    ¬ Buried ⟨m, .inHand w (reserve followers)⟩ ∧ ¬ Embedded ⟨m, .inHand w (reserve followers)⟩ := by
  cases followers with
  | nil => exact ⟨id, fun h => h.2⟩
  | cons follower rest => exact ⟨id, fun h => h.2⟩

theorem publish_unmarked (m : StageMessage) (w : WorkerId) (followers : List StageMessage) :
    ¬ Buried ⟨m, .inHand w (Consumer.publish followers)⟩ ∧
      ¬ Embedded ⟨m, .inHand w (Consumer.publish followers)⟩ := by
  cases followers with
  | nil => exact ⟨id, fun h => h.2⟩
  | cons follower rest => exact ⟨id, fun h => h.2⟩

theorem Marks.of_unmarked (hworld : e.world = world)
    (hnew : ∀ t' ∈ e.own.toList ++ e.sent, ¬ Buried t' ∧ ¬ Embedded t')
    (hrow : e.record.rows.status "embed" = some .succeeded →
      record.rows.status "embed" = some .succeeded ∨ Embedded t) :
    Marks settings record world t e :=
  .quiet (by rw [hworld]) (fun t' ht' h => absurd h (hnew t' ht').1)
    (fun t' ht' h => absurd h (hnew t' ht').2) hrow

theorem completing_of_succeeded {m : StageMessage} {w : WorkerId} {phase : Phase Execution}
    (h : callReturns (handlers settings) m w record world phase = some e) {σ : String}
    (hrow : e.record.rows.status σ = some .succeeded) :
    record.rows.status σ = some .succeeded ∨ (m.stage = σ ∧ ∃ m', phase = .completing m') := by
  cases phase with
  | received =>
    cases h
    rw [StageRows.status_beginStage] at hrow
    by_cases hstage : σ = m.stage
    · rw [if_pos hstage] at hrow
      cases hrow
    · rw [if_neg hstage] at hrow
      exact .inl hrow
  | handling k => cases h
  | completing m' =>
    cases h
    rw [StageRows.status_completeStage] at hrow
    by_cases hstage : σ = m.stage
    · exact .inr ⟨hstage.symm, m', rfl⟩
    · rw [if_neg hstage] at hrow
      exact .inl hrow
  | reserving follower rest =>
    cases h
    rw [StageRows.status_markDispatched] at hrow
    cases hstatus : record.rows.status σ with
    | none =>
      rw [hstatus] at hrow
      split_ifs at hrow
      cases hrow
    | some status =>
      rw [hstatus, Option.getD_some, ite_self] at hrow
      exact .inl hrow
  | failing exc =>
    have hkept : ∀ text permanent,
        (record.rows.failStage m.stage text permanent).status σ = some .succeeded →
          record.rows.status σ = some .succeeded := by
      intro text permanent hrow
      rw [StageRows.status_failStage] at hrow
      by_cases hstage : σ = m.stage
      · rw [if_pos hstage] at hrow
        cases permanent <;> cases hrow
      · rwa [if_neg hstage] at hrow
    obtain ⟨_, _, _, -, rfl⟩ | ⟨_, -, rfl⟩ := callReturns_failing h
    · exact .inl (hkept _ _ hrow)
    · exact .inl (hkept _ _ hrow)
  | _ =>
    cases h
    exact .inl hrow

theorem callReturns_marks {m : StageMessage} {w : WorkerId} {phase : Phase Execution}
    (h : callReturns (handlers settings) m w record world phase = some e) :
    Marks settings record world ⟨m, .inHand w phase⟩ e := by
  have hrow : e.record.rows.status "embed" = some .succeeded →
      record.rows.status "embed" = some .succeeded ∨
        Embedded (⟨m, .inHand w phase⟩ : Token Execution) := by
    intro hrow
    obtain hbefore | ⟨hstage, m', rfl⟩ := completing_of_succeeded h hrow
    · exact .inl hbefore
    · exact .inr ⟨hstage, trivial⟩
  cases phase with
  | handling k => cases h
  | received =>
    cases h
    exact .of_unmarked rfl (List.forall_mem_singleton.mpr ⟨id, fun h => h.2⟩) hrow
  | completing m' =>
    cases h
    exact .of_unmarked rfl (List.forall_mem_singleton.mpr (reserve_unmarked _ _ _)) hrow
  | reserving follower rest =>
    cases h
    exact .of_unmarked rfl (List.forall_mem_singleton.mpr ⟨id, fun h => h.2⟩) hrow
  | publishing follower rest =>
    cases h
    refine .of_unmarked rfl ?_ hrow
    simp only [Option.toList_some, List.singleton_append, List.forall_mem_cons]
    exact ⟨publish_unmarked _ _ _, ⟨id, fun h => h.2⟩, by simp⟩
  | failing exc =>
    obtain ⟨_, _, _, -, rfl⟩ | ⟨_, -, rfl⟩ := callReturns_failing h
    · exact .of_unmarked rfl (List.forall_mem_singleton.mpr ⟨id, fun h => h.2⟩) hrow
    · exact .of_unmarked rfl (List.forall_mem_singleton.mpr ⟨id, fun h => h.2⟩) hrow
  | condemning reason =>
    cases h
    exact .condemns rfl rfl rfl rfl
  | acking =>
    cases h
    exact .of_unmarked rfl (by simp) hrow
  | deadLettering reason =>
    cases h
    refine .quiet rfl (fun _ _ _ => trivial) ?_ hrow
    simp only [Option.toList_some, List.singleton_append, List.forall_mem_cons]
    exact ⟨fun h => h.2.elim, fun h => h.2.elim, by simp⟩
  | retrying delayMs =>
    cases h
    refine .of_unmarked rfl ?_ hrow
    simp only [Option.toList_some, List.singleton_append, List.forall_mem_cons]
    exact ⟨⟨id, fun h => h.2⟩, ⟨id, fun h => h.2⟩, by simp⟩

theorem turn_marks (h : Turn (handlers settings) live record world t a e)
    (hcalls : ∀ done, a ≠ .callRaises done) (hstage : t.message.stage ∈ registeredStages) :
    Marks settings record world t e := by
  cases h with
  | deliver =>
    rw [pickUp, if_pos hstage]
    exact .of_unmarked rfl (List.forall_mem_singleton.mpr ⟨id, fun h => h.2⟩) .inl
  | work hmove => exact .works rfl rfl rfl (step_of_move hmove)
  | @finish m w k family hresult =>
    refine .quiet rfl (List.forall_mem_singleton.mpr fun h => h.elim) ?_ .inl
    intro t' ht' hembedded
    obtain rfl := List.mem_singleton.mp ht'
    refine ⟨hembedded.1, ?_⟩
    cases k with
    | returned => trivial
    | detected found =>
      have hdetect : m.stage = "detect" := by
        by_contra hne
        simp [handlers, result, hne] at hresult
      have hembed : m.stage = "embed" := hembedded.1
      exact absurd (hdetect.symm.trans hembed) (by decide)
    | _ => cases hresult
  | fail exc =>
    refine .quiet rfl (List.forall_mem_singleton.mpr fun h => h.elim) ?_ .inl
    exact List.forall_mem_singleton.mpr fun h => h.2.elim
  | expire => exact .of_unmarked rfl (List.forall_mem_singleton.mpr ⟨id, fun h => h.2⟩) .inl
  | call hcall => exact callReturns_marks hcall
  | raises done => exact absurd rfl (hcalls done)

theorem Marks.elsewhere (h : Marks settings record world t e) :
    (∀ x ≠ t.message.documentId, e.world.db.documents x = world.db.documents x) ∧
      ∀ x, (world.db.documents x).isSome → (e.world.db.documents x).isSome := by
  have hupdate : ∀ status : DocStatus, e.world.db.documents =
      Function.update world.db.documents t.message.documentId
        ((world.db.documents t.message.documentId).map fun _ => status) →
      (∀ x ≠ t.message.documentId, e.world.db.documents x = world.db.documents x) ∧
        ∀ x, (world.db.documents x).isSome → (e.world.db.documents x).isSome := by
    intro status heq
    rw [heq]
    refine ⟨fun x hx => Function.update_of_ne hx _ _, fun x hsome => ?_⟩
    by_cases hx : x = t.message.documentId
    · subst hx
      rw [Function.update_self, Option.isSome_map]
      exact hsome
    · rw [Function.update_of_ne hx]
      exact hsome
  cases h with
  | quiet hworld =>
    rw [hworld]
    exact ⟨fun x _ => rfl, fun x hsome => hsome⟩
  | works ht hnew hrecord hstep =>
    subst ht
    obtain ⟨hsame, -⟩ | ⟨-, status, -, hwrites⟩ := step_documents hstep
    · rw [hsame]
      exact ⟨fun x _ => rfl, fun x hsome => hsome⟩
    · exact hupdate status hwrites
  | condemns ht hnew hrecord hworld =>
    subst ht
    exact hupdate .failed (by rw [hworld]; rfl)

theorem nextMessages_documentId {m f : StageMessage} {snapshot : StageSnapshot}
    (h : f ∈ nextMessages PIPELINE m snapshot) : f.documentId = m.documentId := by
  obtain ⟨stage, -, rfl⟩ := mem_nextMessages.mp h
  rfl

theorem messages_pickUp (m : StageMessage) (w : WorkerId) :
    messages ⟨m, .inHand w (pickUp m)⟩ = [m] := by
  unfold pickUp
  split_ifs <;> rfl

def Stays (record : Record) (d : String) (e : Effect World Execution) : Prop :=
  (∀ t ∈ e.own.toList ++ e.sent, ∀ m ∈ messages t, m.documentId = d) ∧
    ∃ new, e.record.published = record.published ++ new ∧ ∀ m ∈ new, m.documentId = d

theorem Stays.of_record (hrecord : e.record.published = record.published)
    (hnew : ∀ t ∈ e.own.toList ++ e.sent, ∀ m ∈ messages t, m.documentId = d) : Stays record d e :=
  ⟨hnew, [], by rw [hrecord, List.append_nil], by simp⟩

theorem callReturns_stays {m : StageMessage} {w : WorkerId} {phase : Phase Execution}
    (h : callReturns (handlers settings) m w record world phase = some e)
    (hall : ∀ m' ∈ messages ⟨m, .inHand w phase⟩, m'.documentId = d) : Stays record d e := by
  have hown : m.documentId = d := hall m List.mem_cons_self
  cases phase with
  | handling k => cases h
  | received =>
    cases h
    exact .of_record rfl (List.forall_mem_singleton.mpr (List.forall_mem_singleton.mpr hown))
  | completing m' =>
    cases h
    refine .of_record rfl (List.forall_mem_singleton.mpr ?_)
    rw [messages_reserve, List.forall_mem_cons]
    refine ⟨hown, fun f hf => ?_⟩
    rw [nextMessages_documentId hf]
    exact hall m' (List.mem_cons_of_mem _ (List.mem_singleton_self _))
  | reserving follower rest =>
    cases h
    exact .of_record rfl (List.forall_mem_singleton.mpr hall)
  | publishing follower rest =>
    cases h
    have hsent : follower.documentId = d := hall _ (List.mem_cons_of_mem _ List.mem_cons_self)
    refine ⟨?_, [follower], rfl, List.forall_mem_singleton.mpr hsent⟩
    simp only [Option.toList_some, List.singleton_append, List.forall_mem_cons, messages_publish]
    refine ⟨⟨hown, fun f hf => ?_⟩, List.forall_mem_singleton.mpr hsent, by simp⟩
    exact hall f (List.mem_cons_of_mem _ (List.mem_cons_of_mem _ hf))
  | failing exc =>
    obtain ⟨_, _, _, -, rfl⟩ | ⟨_, -, rfl⟩ := callReturns_failing h
    · exact .of_record rfl (List.forall_mem_singleton.mpr (List.forall_mem_singleton.mpr hown))
    · exact .of_record rfl (List.forall_mem_singleton.mpr (List.forall_mem_singleton.mpr hown))
  | condemning reason =>
    cases h
    exact .of_record rfl (List.forall_mem_singleton.mpr (List.forall_mem_singleton.mpr hown))
  | acking =>
    cases h
    exact .of_record rfl (by simp)
  | deadLettering reason =>
    cases h
    refine .of_record rfl ?_
    simp only [Option.toList_some, List.singleton_append, List.forall_mem_cons]
    exact ⟨List.forall_mem_singleton.mpr hown, List.forall_mem_singleton.mpr hown, by simp⟩
  | retrying delayMs =>
    cases h
    refine .of_record rfl ?_
    simp only [Option.toList_some, List.singleton_append, List.forall_mem_cons]
    exact ⟨List.forall_mem_singleton.mpr hown, List.forall_mem_singleton.mpr hown, by simp⟩

theorem turn_stays (h : Turn (handlers settings) live record world t a e)
    (hcalls : ∀ done, a ≠ .callRaises done) (hall : ∀ m ∈ messages t, m.documentId = d) :
    Stays record d e := by
  have hown : t.message.documentId = d := hall t.message List.mem_cons_self
  cases h with
  | call hcall => exact callReturns_stays hcall hall
  | raises done => exact absurd rfl (hcalls done)
  | deliver =>
    refine .of_record rfl (List.forall_mem_singleton.mpr ?_)
    rw [messages_pickUp]
    exact List.forall_mem_singleton.mpr hown
  | work hmove =>
    exact .of_record rfl (List.forall_mem_singleton.mpr (List.forall_mem_singleton.mpr hown))
  | @finish m w k family hresult =>
    refine .of_record rfl (List.forall_mem_singleton.mpr ?_)
    refine List.forall_mem_cons.mpr ⟨hown, List.forall_mem_singleton.mpr ?_⟩
    cases family with
    | none => exact hown
    | some found => exact hown
  | fail exc =>
    exact .of_record rfl (List.forall_mem_singleton.mpr (List.forall_mem_singleton.mpr hown))
  | expire =>
    exact .of_record rfl (List.forall_mem_singleton.mpr (List.forall_mem_singleton.mpr hown))

end

end Ragent.DocumentMarks
