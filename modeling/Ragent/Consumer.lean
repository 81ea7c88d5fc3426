import Mathlib.Logic.Function.Basic
import Ragent.GuardedRuns
import Ragent.Runner

set_option autoImplicit false

/-!
# The ingest system

Uploads, workers, the broker and the stage table. A delivery goes through `_on_message` and
`_handle_failure` of `ragent/workers/run.py` one call on the store or the broker at a time, and
other deliveries, a crash or an exception may come between any two of them.

The broker keeps every message until it is acknowledged, hands the messages of a dead worker out
again, and moves a rejected one to the dead-letter queue of its stage.
-/
namespace Ragent.Consumer
open Formats Stages StageStores Runner GuardedRuns

abbrev WorkerId := ℕ

/-- The code behind `get_handler`, over the documents and indexes `W` it works on. `H` says where an
    execution of it stands, and `C` settles what the model leaves open. -/
structure Handlers (W H C : Type) where
  start : StageMessage → H
  /-- One statement or transaction of the handler. -/
  move : StageMessage → C → H × W → Option (H × W)
  /-- The family among the metrics, once the handler returns. -/
  result : StageMessage → H → Option (Option FormatFamily)
  /-- Only `detect_stage` returns a family, and it always does. -/
  family_iff : ∀ {m : StageMessage} {h : H} {family : Option FormatFamily},
    result m h = some family → (family.isSome ↔ m.stage = "detect")
  /-- `UPDATE documents SET status = 'failed'` -/
  failDocument : String → W → W

def registeredStages : List String :=
  ["detect", "convert", "ocr", "tables", "figures", "chunk", "contextualize", "embed", "parse_flow",
    "parse"]

inductive Phase (H : Type)
  /-- `begin_stage` -/
  | received
  | handling (h : H)
  /-- `complete_stage`, for the message with the family the handler found -/
  | completing (message : StageMessage)
  /-- `mark_dispatched` -/
  | reserving (follower : StageMessage) (rest : List StageMessage)
  | publishing (follower : StageMessage) (rest : List StageMessage)
  | acking
  /-- `fail_stage`, up to its upsert -/
  | failing (exc : Exc)
  /-- `fail_stage`, the update of the document -/
  | condemning (reason : String)
  | deadLettering (reason : String)
  | retrying (delayMs : ℕ)

inductive Place (H : Type)
  | queued
  | delayed (ms : ℕ)
  | inHand (worker : WorkerId) (phase : Phase H)
  | dead (reason : Option String)

structure Token (H : Type) where
  message : StageMessage
  place : Place H

/-- What is on record for a run: its rows, and as history the family `detect` found and the messages
    published to the ingest exchange. -/
structure Record where
  rows : StageRows := ∅
  detected : Option FormatFamily := none
  published : List StageMessage := []

structure RunState (H : Type) where
  record : Record := {}
  tokens : List (Token H) := []

structure System (W H : Type) where
  live : WorkerId → Option (List String)
  runs : String → RunState H
  world : W

inductive Act (C : Type)
  | deliver (worker : WorkerId)
  | work (c : C)
  | finish
  | fail (exc : Exc)
  | call
  /-- The next call on the store or the broker raises, before or after it is `done`. -/
  | callRaises (done : Bool)
  | expire

inductive Event (C : Type)
  | upload (documentId runId pipelineVersion traceId : String)
  | start (worker : WorkerId) (stages : List String)
  | crash (worker : WorkerId)
  | act (run : String) (i : ℕ) (a : Act C)

structure Effect (W H : Type) where
  own : Option (Token H)
  sent : List (Token H) := []
  record : Record
  world : W

section
variable {W H C : Type}

def pickUp (m : StageMessage) : Phase H :=
  if m.stage ∈ registeredStages then .received
  else .deadLettering ("no handler registered for stage '" ++ m.stage ++ "'")

def reserve : List StageMessage → Phase H
  | [] => .acking
  | follower :: rest => .reserving follower rest

def publish : List StageMessage → Phase H
  | [] => .acking
  | follower :: rest => .publishing follower rest

def callReturns (handlers : Handlers W H C) (m : StageMessage) (w : WorkerId) (record : Record)
    (world : W) : Phase H → Option (Effect W H)
  | .received => some
    { own := some ⟨m, .inHand w (.handling (handlers.start m))⟩
      record := { record with rows := record.rows.beginStage m.stage m.attempt }
      world := world }
  | .handling _ => none
  | .completing m' =>
    let rows := record.rows.completeStage m.stage
    some
      { own := some ⟨m, .inHand w (reserve (nextMessages PIPELINE m' rows.snapshot))⟩
        record :=
          { record with
            rows := rows
            detected := if m.stage = "detect" then some m'.family else record.detected }
        world := world }
  | .reserving follower rest => some
    { own := some ⟨m, .inHand w (.publishing follower rest)⟩
      record :=
        { record with rows := record.rows.markDispatched ((follower :: rest).map (·.stage)) }
      world := world }
  | .publishing follower rest => some
    { own := some ⟨m, .inHand w (publish rest)⟩
      sent := [⟨follower, .queued⟩]
      record := { record with published := record.published ++ [follower] }
      world := world }
  | .acking => some { own := none, record := record, world := world }
  | .failing exc => match planFailure PIPELINE RETRY_DELAYS_MS m exc with
    | .retry delayMs _ _ => some
      { own := some ⟨m, .inHand w (.retrying delayMs)⟩
        record := { record with rows := record.rows.failStage m.stage exc.describe false }
        world := world }
    | .deadLetter reason => some
      { own := some ⟨m, .inHand w (.condemning reason)⟩
        record := { record with rows := record.rows.failStage m.stage reason true }
        world := world }
  | .condemning reason => some
    { own := some ⟨m, .inHand w (.deadLettering reason)⟩
      record := record
      world := handlers.failDocument m.documentId world }
  | .deadLettering reason => some
    { own := some ⟨m, .inHand w .acking⟩
      sent := [⟨m, .dead (some reason)⟩]
      record := record
      world := world }
  | .retrying delayMs => some
    { own := some ⟨m, .inHand w .acking⟩
      sent := [⟨m.retried, .delayed delayMs⟩]
      record := record
      world := world }

/-- An exception leaves `raw.process`, which rejects the message. -/
def reject (e : Effect W H) : Effect W H :=
  { e with own := e.own.map fun t => ⟨t.message, .dead none⟩ }

def act (handlers : Handlers W H C) (live : WorkerId → Option (List String)) (t : Token H)
    (record : Record) (world : W) : Act C → Option (Effect W H)
  | .deliver w => match t.place, live w with
    | .queued, some stages =>
      if t.message.stage ∈ stages then
        some { own := some ⟨t.message, .inHand w (pickUp t.message)⟩, record := record, world := world }
      else none
    | _, _ => none
  | .work c => match t.place with
    | .inHand w (.handling h) => (handlers.move t.message c (h, world)).map fun moved =>
      { own := some ⟨t.message, .inHand w (.handling moved.1)⟩, record := record, world := moved.2 }
    | _ => none
  | .finish => match t.place with
    | .inHand w (.handling h) => (handlers.result t.message h).map fun family =>
      { own := some ⟨t.message,
          .inHand w (.completing (family.elim t.message t.message.withFamily))⟩
        record := record
        world := world }
    | _ => none
  | .fail exc => match t.place with
    | .inHand w (.handling _) =>
      some { own := some ⟨t.message, .inHand w (.failing exc)⟩, record := record, world := world }
    | _ => none
  | .call => match t.place with
    | .inHand w phase => callReturns handlers t.message w record world phase
    | _ => none
  | .callRaises done => match t.place with
    | .inHand w phase => (callReturns handlers t.message w record world phase).map fun e =>
      reject (if done then e else { own := some t, record := record, world := world })
    | _ => none
  | .expire => match t.place with
    | .delayed _ => some { own := some ⟨t.message, .queued⟩, record := record, world := world }
    | _ => none

def Token.release (w : WorkerId) (t : Token H) : Token H :=
  match t.place with
  | .inHand w' _ => if w' = w then ⟨t.message, .queued⟩ else t
  | _ => t

def RunState.release (w : WorkerId) (r : RunState H) : RunState H :=
  { r with tokens := r.tokens.map (·.release w) }

def RunState.replace (r : RunState H) (i : ℕ) (e : Effect W H) : RunState H where
  record := e.record
  tokens := r.tokens.take i ++ (e.own.toList ++ e.sent) ++ r.tokens.drop (i + 1)

def uploadMessage (documentId runId pipelineVersion traceId : String) : StageMessage where
  documentId := documentId
  runId := runId
  stage := "detect"
  family := .pdf
  pipelineVersion := pipelineVersion
  traceId := traceId

def RunState.upload (r : RunState H) (m : StageMessage) : RunState H where
  record := { r.record with published := r.record.published ++ [m] }
  tokens := r.tokens ++ [⟨m, .queued⟩]

def exec (handlers : Handlers W H C) (s : System W H) : Event C → Option (System W H)
  | .upload documentId runId pipelineVersion traceId =>
    let m := uploadMessage documentId runId pipelineVersion traceId
    if (s.runs runId).record.published = [] then
      some { s with runs := Function.update s.runs runId ((s.runs runId).upload m) }
    else none
  | .start w stages =>
    -- `serve` declares the topology and consumes; it re-queues nothing
    if s.live w = none then some { s with live := Function.update s.live w (some stages) } else none
  | .crash w =>
    if s.live w = none then none
    else some
      { s with
        live := Function.update s.live w none
        runs := fun run => (s.runs run).release w }
  | .act run i a => (s.runs run).tokens[i]?.bind fun t =>
    (act handlers s.live t (s.runs run).record s.world a).map fun e =>
      { s with
        runs := Function.update s.runs run ((s.runs run).replace i e)
        world := e.world }

def Initial (s : System W H) : Prop := s.live = (fun _ => none) ∧ s.runs = fun _ => {}

variable {handlers : Handlers W H C}

theorem mem_replace {r : RunState H} {i : ℕ} {e : Effect W H} {t : Token H} :
    t ∈ (r.replace i e).tokens ↔
      t ∈ e.own.toList ++ e.sent ∨ ∃ j, j ≠ i ∧ r.tokens[j]? = some t := by
  unfold RunState.replace
  rw [List.mem_append, List.mem_append, List.mem_take_iff_getElem, List.mem_drop_iff_getElem]
  constructor
  · rintro ((⟨j, hj, heq⟩ | h) | ⟨j, hj, heq⟩)
    · exact Or.inr ⟨j, by omega, List.getElem?_eq_some_iff.mpr ⟨by omega, heq⟩⟩
    · exact Or.inl h
    · exact Or.inr ⟨i + 1 + j, by omega, List.getElem?_eq_some_iff.mpr ⟨by omega, heq⟩⟩
  · rintro (h | ⟨j, hne, hj⟩)
    · exact Or.inl (Or.inr h)
    · obtain ⟨hlt, heq⟩ := List.getElem?_eq_some_iff.mp hj
      rcases Nat.lt_or_gt_of_ne hne with hbefore | hafter
      · exact Or.inl (Or.inl ⟨j, by omega, heq⟩)
      · refine Or.inr ⟨j - (i + 1), by omega, ?_⟩
        rw [← heq]
        congr 1
        omega

inductive Turn (handlers : Handlers W H C) (live : WorkerId → Option (List String))
    (record : Record) (world : W) : Token H → Act C → Effect W H → Prop
  | deliver {m : StageMessage} {w : WorkerId} {stages : List String} (hlive : live w = some stages)
      (hstage : m.stage ∈ stages) :
      Turn handlers live record world ⟨m, .queued⟩ (.deliver w)
        { own := some ⟨m, .inHand w (pickUp m)⟩, record := record, world := world }
  | work {m : StageMessage} {w : WorkerId} {c : C} {h h' : H} {world' : W}
      (hmove : handlers.move m c (h, world) = some (h', world')) :
      Turn handlers live record world ⟨m, .inHand w (.handling h)⟩ (.work c)
        { own := some ⟨m, .inHand w (.handling h')⟩, record := record, world := world' }
  | finish {m : StageMessage} {w : WorkerId} {h : H} {family : Option FormatFamily}
      (hresult : handlers.result m h = some family) :
      Turn handlers live record world ⟨m, .inHand w (.handling h)⟩ .finish
        { own := some ⟨m, .inHand w (.completing (family.elim m m.withFamily))⟩
          record := record
          world := world }
  | fail {m : StageMessage} {w : WorkerId} {h : H} (exc : Exc) :
      Turn handlers live record world ⟨m, .inHand w (.handling h)⟩ (.fail exc)
        { own := some ⟨m, .inHand w (.failing exc)⟩, record := record, world := world }
  | call {m : StageMessage} {w : WorkerId} {phase : Phase H} {e : Effect W H}
      (hcall : callReturns handlers m w record world phase = some e) :
      Turn handlers live record world ⟨m, .inHand w phase⟩ .call e
  | raises {m : StageMessage} {w : WorkerId} {phase : Phase H} {e : Effect W H} (done : Bool)
      (hcall : callReturns handlers m w record world phase = some e) :
      Turn handlers live record world ⟨m, .inHand w phase⟩ (.callRaises done)
        (reject (if done then e
          else { own := some ⟨m, .inHand w phase⟩, record := record, world := world }))
  | expire {m : StageMessage} {ms : ℕ} :
      Turn handlers live record world ⟨m, .delayed ms⟩ .expire
        { own := some ⟨m, .queued⟩, record := record, world := world }

theorem turn_of_act {live : WorkerId → Option (List String)} {t : Token H} {record : Record}
    {world : W} {a : Act C} {e : Effect W H} (h : act handlers live t record world a = some e) :
    Turn handlers live record world t a e := by
  obtain ⟨m, place⟩ := t
  cases a with
  | deliver w =>
    cases place with
    | queued =>
      cases hlive : live w with
      | none => simp [act, hlive] at h
      | some stages =>
        simp only [act, hlive, Option.ite_none_right_eq_some, Option.some.injEq] at h
        exact h.2 ▸ .deliver hlive h.1
    | delayed ms => cases h
    | inHand w phase => cases h
    | dead reason => cases h
  | work c =>
    cases place with
    | inHand w phase =>
      cases phase with
      | handling h' =>
        obtain ⟨moved, hmove, rfl⟩ := Option.map_eq_some_iff.mp h
        exact .work hmove
      | _ => cases h
    | _ => cases h
  | finish =>
    cases place with
    | inHand w phase =>
      cases phase with
      | handling h' =>
        obtain ⟨family, hresult, rfl⟩ := Option.map_eq_some_iff.mp h
        exact .finish hresult
      | _ => cases h
    | _ => cases h
  | fail exc =>
    cases place with
    | inHand w phase =>
      cases phase with
      | handling h' =>
        cases h
        exact .fail exc
      | _ => cases h
    | _ => cases h
  | call =>
    cases place with
    | inHand w phase => exact .call h
    | _ => cases h
  | callRaises done =>
    cases place with
    | inHand w phase =>
      obtain ⟨e', he', rfl⟩ := Option.map_eq_some_iff.mp h
      exact .raises done he'
    | _ => cases h
  | expire =>
    cases place with
    | delayed ms =>
      cases h
      exact .expire
    | _ => cases h

theorem run_cases {s s' : System W H} {e : Event C} (h : exec handlers s e = some s')
    (run : String) :
    (s'.runs run = s.runs run ∧ ∀ w, e ≠ .crash w) ∨
      (∃ documentId pipelineVersion traceId,
        e = .upload documentId run pipelineVersion traceId ∧ (s.runs run).record.published = [] ∧
        s'.runs run =
          (s.runs run).upload (uploadMessage documentId run pipelineVersion traceId)) ∨
      (∃ w, e = .crash w ∧ s'.runs run = (s.runs run).release w) ∨
      ∃ i a t eff, e = .act run i a ∧ (s.runs run).tokens[i]? = some t ∧
        Turn handlers s.live (s.runs run).record s.world t a eff ∧
        s'.runs run = (s.runs run).replace i eff := by
  cases e with
  | upload documentId runId pipelineVersion traceId =>
    simp only [exec, Option.ite_none_right_eq_some, Option.some.injEq] at h
    obtain ⟨hnew, rfl⟩ := h
    by_cases hrun : run = runId
    · subst hrun
      exact Or.inr (Or.inl ⟨_, _, _, rfl, hnew, Function.update_self _ _ _⟩)
    · exact Or.inl ⟨Function.update_of_ne hrun _ _, nofun⟩
  | start w stages =>
    simp only [exec, Option.ite_none_right_eq_some, Option.some.injEq] at h
    obtain ⟨-, rfl⟩ := h
    exact Or.inl ⟨rfl, nofun⟩
  | crash w =>
    simp only [exec, Option.ite_none_left_eq_some, Option.some.injEq] at h
    obtain ⟨-, rfl⟩ := h
    exact Or.inr (Or.inr (Or.inl ⟨w, rfl, rfl⟩))
  | act run' i a =>
    obtain ⟨t, ht, hact⟩ := Option.bind_eq_some_iff.mp h
    obtain ⟨eff, heff, rfl⟩ := Option.map_eq_some_iff.mp hact
    by_cases hrun : run = run'
    · subst hrun
      exact Or.inr (Or.inr (Or.inr
        ⟨i, a, t, eff, rfl, ht, turn_of_act heff, Function.update_self _ _ _⟩))
    · exact Or.inl ⟨Function.update_of_ne hrun _ _, nofun⟩

theorem tokens_invariant {ok : System W H → Event C → Prop} {P : Token H → Prop}
    (hupload : ∀ documentId runId pipelineVersion traceId,
      P ⟨uploadMessage documentId runId pipelineVersion traceId, .queued⟩)
    (hturn : ∀ live record world t a e, P t → Turn handlers live record world t a e →
      ∀ t' ∈ e.own.toList ++ e.sent, P t')
    (hrelease : ∀ w t, P t → P (t.release w)) {s : System W H}
    (h : Reachable Initial (exec handlers) ok s) (run : String) :
    ∀ t ∈ (s.runs run).tokens, P t := by
  refine Reachable.invariant (I := fun s => ∀ t ∈ (s.runs run).tokens, P t) ?_ ?_ h
  · rintro s ⟨-, hruns⟩ t ht
    simp [hruns] at ht
  intro s s' e ih _ hexec t ht
  rcases run_cases hexec run with ⟨heq, -⟩ | ⟨_, _, _, -, -, heq⟩ | ⟨w, -, heq⟩ |
    ⟨i, a, t', eff, -, ht', hturn', heq⟩
  · exact ih t (heq ▸ ht)
  · rw [heq] at ht
    rcases List.mem_append.mp ht with ht | ht
    · exact ih t ht
    · rw [List.mem_singleton.mp ht]
      exact hupload _ _ _ _
  · rw [heq] at ht
    obtain ⟨t', ht', rfl⟩ := List.mem_map.mp ht
    exact hrelease w t' (ih t' ht')
  · rw [heq] at ht
    rcases mem_replace.mp ht with ht | ⟨j, -, hj⟩
    · exact hturn _ _ _ t' a eff (ih t' (List.mem_of_getElem? ht')) hturn' t ht
    · exact ih t (List.mem_of_getElem? hj)

def Token.stages (t : Token H) : List String :=
  t.message.stage :: match t.place with
    | .inHand _ (.reserving follower rest) => (follower :: rest).map (·.stage)
    | .inHand _ (.publishing follower rest) => (follower :: rest).map (·.stage)
    | _ => []

theorem nextMessages_registered {m : StageMessage} {snapshot : StageSnapshot} :
    ∀ f ∈ nextMessages PIPELINE m snapshot, f.stage ∈ registeredStages := by
  intro f hf
  obtain ⟨stage, hstage, rfl⟩ := mem_nextMessages.mp hf
  have hmem := (mem_readyStages.mp hstage).1.1
  have hall : ∀ stage ∈ PIPELINE, stage.name ∈ registeredStages := by decide
  exact hall stage hmem

theorem reserve_stages (m : StageMessage) (w : WorkerId) (followers : List StageMessage) :
    (⟨m, .inHand w (reserve followers)⟩ : Token H).stages = m.stage :: followers.map (·.stage) := by
  cases followers <;> rfl

theorem publish_stages (m : StageMessage) (w : WorkerId) (followers : List StageMessage) :
    (⟨m, .inHand w (publish followers)⟩ : Token H).stages = m.stage :: followers.map (·.stage) := by
  cases followers <;> rfl

theorem pickUp_stages (m : StageMessage) (w : WorkerId) :
    (⟨m, .inHand w (pickUp m)⟩ : Token H).stages = [m.stage] := by
  unfold pickUp
  split_ifs <;> rfl

theorem callReturns_failing {m : StageMessage} {w : WorkerId} {record : Record} {world : W}
    {exc : Exc} {e : Effect W H} (h : callReturns handlers m w record world (.failing exc) = some e) :
    (∃ delayMs exchange attempt,
      planFailure PIPELINE RETRY_DELAYS_MS m exc = .retry delayMs exchange attempt ∧
        e = { own := some ⟨m, .inHand w (.retrying delayMs)⟩
              record := { record with rows := record.rows.failStage m.stage exc.describe false }
              world := world }) ∨
      ∃ reason, planFailure PIPELINE RETRY_DELAYS_MS m exc = .deadLetter reason ∧
        e = { own := some ⟨m, .inHand w (.condemning reason)⟩
              record := { record with rows := record.rows.failStage m.stage reason true }
              world := world } := by
  unfold callReturns at h
  cases hplan : planFailure PIPELINE RETRY_DELAYS_MS m exc with
  | retry delayMs exchange attempt =>
    simp only [hplan, Option.some.injEq] at h
    exact .inl ⟨delayMs, exchange, attempt, rfl, h.symm⟩
  | deadLetter reason =>
    simp only [hplan, Option.some.injEq] at h
    exact .inr ⟨reason, rfl, h.symm⟩

theorem callReturns_stages {m : StageMessage} {w : WorkerId} {record : Record} {world : W}
    {phase : Phase H} {e : Effect W H} (h : callReturns handlers m w record world phase = some e)
    (hall : ∀ σ ∈ (⟨m, .inHand w phase⟩ : Token H).stages, σ ∈ registeredStages) :
    ∀ t ∈ e.own.toList ++ e.sent, ∀ σ ∈ t.stages, σ ∈ registeredStages := by
  have hown : m.stage ∈ registeredStages := hall m.stage List.mem_cons_self
  cases phase with
  | handling h' => cases h
  | completing m' =>
    cases h
    simp only [Option.toList_some, List.append_nil, List.forall_mem_singleton, reserve_stages,
      List.forall_mem_cons, List.forall_mem_map]
    exact ⟨hown, nextMessages_registered⟩
  | reserving follower rest =>
    cases h
    simp only [Option.toList_some, List.append_nil, List.forall_mem_singleton]
    exact hall
  | publishing follower rest =>
    cases h
    have hsent : follower.stage ∈ registeredStages :=
      hall _ (List.mem_cons_of_mem _ List.mem_cons_self)
    simp only [Option.toList_some, List.singleton_append, List.forall_mem_cons, publish_stages]
    refine ⟨⟨hown, fun σ hσ => ?_⟩, fun σ hσ => List.mem_singleton.mp hσ ▸ hsent, by simp⟩
    exact hall σ (List.mem_cons_of_mem _ (List.mem_cons_of_mem _ hσ))
  | failing exc =>
    obtain ⟨_, _, _, -, rfl⟩ | ⟨_, -, rfl⟩ := callReturns_failing h
    · simpa [Token.stages] using hown
    · simpa [Token.stages] using hown
  | received => cases h; simpa [Token.stages] using hown
  | acking => cases h; simp
  | condemning reason => cases h; simpa [Token.stages] using hown
  | deadLettering reason => cases h; simpa [Token.stages] using hown
  | retrying delayMs => cases h; simpa [Token.stages, StageMessage.retried] using hown

theorem stages_registered {ok : System W H → Event C → Prop} {s : System W H}
    (h : Reachable Initial (exec handlers) ok s) (run : String) :
    ∀ t ∈ (s.runs run).tokens, ∀ σ ∈ t.stages, σ ∈ registeredStages := by
  refine tokens_invariant ?_ ?_ ?_ h run
  · intro documentId runId pipelineVersion traceId σ hσ
    rw [List.mem_singleton.mp hσ]
    exact show "detect" ∈ registeredStages by decide
  · intro live record world t a e ih hturn
    have hown : t.message.stage ∈ registeredStages := ih _ List.mem_cons_self
    cases hturn with
    | deliver => simpa [pickUp_stages] using hown
    | work hmove => simpa [Token.stages] using hown
    | finish hresult => simpa [Token.stages] using hown
    | fail exc => simpa [Token.stages] using hown
    | call hcall => exact callReturns_stages hcall ih
    | @raises m w phase e done hcall =>
      cases done with
      | false => simpa [reject, Token.stages] using hown
      | true =>
        have hsent := callReturns_stages hcall ih
        intro t ht σ hσ
        rcases List.mem_append.mp ht with ht | ht
        · obtain ⟨t', ht', rfl⟩ := Option.map_eq_some_iff.mp (Option.mem_toList.mp ht)
          rw [List.mem_singleton.mp hσ]
          exact hsent t' (List.mem_append_left _ (Option.mem_toList.mpr ht')) _ List.mem_cons_self
        · exact hsent t (List.mem_append_right _ ht) σ hσ
    | expire => simpa [Token.stages] using hown
  · intro w t ih σ hσ
    unfold Token.release at hσ
    split at hσ
    · split_ifs at hσ
      · rw [List.mem_singleton.mp hσ]
        exact ih _ List.mem_cons_self
      · exact ih σ hσ
    · exact ih σ hσ

theorem callReturns_inHand {m : StageMessage} {w : WorkerId} {record : Record} {world : W}
    {phase : Phase H} {e : Effect W H} (h : callReturns handlers m w record world phase = some e) :
    ∀ t ∈ e.own.toList ++ e.sent, ∀ w' phase', t.place = .inHand w' phase' → w' = w := by
  cases phase with
  | handling h' => cases h
  | failing exc =>
    obtain ⟨_, _, _, -, rfl⟩ | ⟨_, -, rfl⟩ := callReturns_failing h
    · simp
    · simp
  | _ =>
    cases h
    simp +contextual

theorem turn_inHand {live : WorkerId → Option (List String)} {record : Record} {world : W}
    {t : Token H} {a : Act C} {e : Effect W H} (h : Turn handlers live record world t a e) :
    ∀ t' ∈ e.own.toList ++ e.sent, ∀ w phase, t'.place = .inHand w phase →
      (live w).isSome ∨ ∃ phase', t.place = .inHand w phase' := by
  cases h with
  | deliver hlive => simp +contextual [hlive]
  | work => simp +contextual
  | finish => simp +contextual
  | fail => simp +contextual
  | expire => simp
  | call hcall =>
    intro t' ht' w phase hplace
    rw [callReturns_inHand hcall t' ht' w phase hplace]
    exact Or.inr ⟨_, rfl⟩
  | @raises m w phase e' done hcall =>
    intro t' ht' w' phase' hplace
    rcases List.mem_append.mp ht' with hown | hsent
    · obtain ⟨t, -, rfl⟩ := Option.map_eq_some_iff.mp (Option.mem_toList.mp hown)
      cases hplace
    · cases done with
      | false => exact absurd hsent List.not_mem_nil
      | true =>
        rw [callReturns_inHand hcall t' (List.mem_append_right _ hsent) w' phase' hplace]
        exact Or.inr ⟨_, rfl⟩

theorem inHand_of_release {t : Token H} {w w' : WorkerId} {phase : Phase H}
    (h : (t.release w).place = .inHand w' phase) : t.place = .inHand w' phase ∧ w ≠ w' := by
  obtain ⟨m, place⟩ := t
  cases place with
  | inHand w'' phase' =>
    unfold Token.release at h
    simp only at h
    split_ifs at h with hw
    cases h
    exact ⟨rfl, fun heq => hw heq.symm⟩
  | _ => cases h

theorem live_cases {s s' : System W H} {e : Event C} (h : exec handlers s e = some s') :
    (∃ w, e = .crash w ∧ s'.live = Function.update s.live w none) ∨
      ∀ w, (s.live w).isSome → (s'.live w).isSome := by
  cases e with
  | crash w =>
    simp only [exec, Option.ite_none_left_eq_some, Option.some.injEq] at h
    obtain ⟨-, rfl⟩ := h
    exact Or.inl ⟨w, rfl, rfl⟩
  | start w stages =>
    simp only [exec, Option.ite_none_right_eq_some, Option.some.injEq] at h
    obtain ⟨-, rfl⟩ := h
    refine Or.inr fun w' hw' => ?_
    by_cases hw : w' = w
    · subst hw
      simp
    · simpa [Function.update_of_ne hw] using hw'
  | upload documentId runId pipelineVersion traceId =>
    simp only [exec, Option.ite_none_right_eq_some, Option.some.injEq] at h
    obtain ⟨-, rfl⟩ := h
    exact Or.inr fun _ hw => hw
  | act run i a =>
    obtain ⟨t, -, hact⟩ := Option.bind_eq_some_iff.mp h
    obtain ⟨eff, -, rfl⟩ := Option.map_eq_some_iff.mp hact
    exact Or.inr fun _ hw => hw

theorem live_of_inHand {ok : System W H → Event C → Prop} {s : System W H}
    (h : Reachable Initial (exec handlers) ok s) (run : String) :
    ∀ t ∈ (s.runs run).tokens, ∀ w phase, t.place = .inHand w phase → (s.live w).isSome := by
  induction h with
  | start hinit =>
    intro t ht
    simp [hinit.2] at ht
  | @next s s' e hreach hok hexec ih =>
    have hlive : ∀ t ∈ (s'.runs run).tokens, ∀ w phase, t.place = .inHand w phase →
        (∀ w', e = .crash w' → w' ≠ w) ∧ (s.live w).isSome := by
      rcases run_cases hexec run with ⟨heq, hne⟩ | ⟨_, _, _, rfl, -, heq⟩ | ⟨w, rfl, heq⟩ |
        ⟨i, a, t, eff, rfl, ht, hturn, heq⟩
      · intro t ht w phase hplace
        exact ⟨fun w' he => absurd he (hne w'), ih t (heq ▸ ht) w phase hplace⟩
      · intro t ht w phase hplace
        rw [heq] at ht
        rcases List.mem_append.mp ht with ht | ht
        · exact ⟨nofun, ih t ht w phase hplace⟩
        · rw [List.mem_singleton.mp ht] at hplace
          cases hplace
      · intro t ht w' phase hplace
        rw [heq] at ht
        obtain ⟨t', ht', rfl⟩ := List.mem_map.mp ht
        obtain ⟨hplace', hne⟩ := inHand_of_release hplace
        refine ⟨?_, ih t' ht' w' phase hplace'⟩
        rintro _ ⟨⟩
        exact hne
      · intro t' ht' w phase hplace
        rw [heq] at ht'
        refine ⟨nofun, ?_⟩
        rcases mem_replace.mp ht' with hnew | ⟨j, -, hj⟩
        · rcases turn_inHand hturn t' hnew w phase hplace with hw | ⟨phase', hplace'⟩
          · exact hw
          · exact ih t (List.mem_of_getElem? ht) w phase' hplace'
        · exact ih t' (List.mem_of_getElem? hj) w phase hplace
    intro t ht w phase hplace
    obtain ⟨hother, hw⟩ := hlive t ht w phase hplace
    rcases live_cases hexec with ⟨w', he, heq⟩ | hmono
    · rw [heq, Function.update_of_ne (hother w' he).symm]
      exact hw
    · exact hmono w hw

end

def prompt (family : FormatFamily) : Handlers Unit Unit Unit where
  start _ := ()
  move _ _ _ := none
  result m _ := some (if m.stage = "detect" then some family else none)
  family_iff h := by
    rw [← Option.some.inj h]
    split_ifs with hstage <;> simp [hstage]
  failDocument _ world := world

def fresh : System Unit Unit := ⟨fun _ => none, fun _ => {}, ()⟩

def everyStage : List String := PIPELINE.map (·.name)

end Ragent.Consumer
