import Ragent.Consumer

set_option autoImplicit false

/-!
# The order of the stages

`ready_stages` holds a stage back until its dependencies are in the snapshot. The log of a run has
the messages whose completion was recorded, and what a message rests on is read off it: rows may be
opened again by a redelivery, the log never loses an entry.
-/
namespace Ragent.StageOrder
open Formats Stages StageStores Runner GuardedRuns Consumer

section
variable {W H C : Type}

/-- The completion that an act puts on record, under the family the handler found. -/
def completionOf (t : Token H) : Act C → List StageMessage
  | .call => match t.place with
    | .inHand _ (.completing m) => [m]
    | _ => []
  | .callRaises true => match t.place with
    | .inHand _ (.completing m) => [m]
    | _ => []
  | _ => []

def noteCompletion (s : System W H) (e : Event C) (log : String → List StageMessage) :
    String → List StageMessage :=
  match e with
  | .act run i a => Function.update log run
      (log run ++ ((s.runs run).tokens[i]?).elim [] fun t => completionOf t a)
  | _ => log

def exec (handlers : Handlers W H C) :
    System W H × (String → List StageMessage) → Event C →
      Option (System W H × (String → List StageMessage)) :=
  recorded (Consumer.exec handlers) noteCompletion

def Start (s : System W H × (String → List StageMessage)) : Prop := Initial s.1 ∧ s.2 = fun _ => []

def messages (t : Token H) : List StageMessage :=
  t.message :: match t.place with
    | .inHand _ (.completing m) => [m]
    | .inHand _ (.reserving follower rest) => follower :: rest
    | .inHand _ (.publishing follower rest) => follower :: rest
    | _ => []

/-- The stage applies to the family of the message, and the log has what it depends on there. -/
def RestsOn (log : List StageMessage) (m : StageMessage) : Prop :=
  m.stage ≠ "detect" → ∃ stage ∈ stagesFor PIPELINE m.family, stage.name = m.stage ∧
    ∀ dep ∈ effectiveDeps PIPELINE m.family stage, ∃ c ∈ log, c.stage = dep

def OfUpload (record : Record) (m : StageMessage) : Prop :=
  ∃ first, record.published.head? = some first ∧ m.documentId = first.documentId ∧
    m.runId = first.runId

structure Placed (record : Record) (log : List StageMessage) (t : Token H) : Prop where
  rests : ∀ m ∈ messages t, RestsOn log m
  origin : ∀ m ∈ messages t, OfUpload record m
  returned : ∀ w m, t.place = .inHand w (.completing m) → m.stage = t.message.stage

structure Logged (record : Record) (log : List StageMessage) : Prop where
  completed : ∀ σ ∈ record.rows.snapshot.completed, ∃ c ∈ log, c.stage = σ
  rests : ∀ k c, log[k]? = some c → RestsOn (log.take k) c
  origin : ∀ c ∈ log, OfUpload record c

variable {handlers : Handlers W H C} {record record' : Record} {log log' : List StageMessage}
  {m : StageMessage} {w : WorkerId} {world : W} {phase : Phase H} {t : Token H} {e : Effect W H}

theorem RestsOn.mono (h : RestsOn log m) (hpre : log <+: log') : RestsOn log' m := by
  intro hstage
  rcases h hstage with ⟨stage, hmem, hname, hdeps⟩
  refine ⟨stage, hmem, hname, fun dep hdep => ?_⟩
  rcases hdeps dep hdep with ⟨c, hc, heq⟩
  exact ⟨c, hpre.subset hc, heq⟩

theorem OfUpload.mono (h : OfUpload record m) (hpre : record.published <+: record'.published) :
    OfUpload record' m := by
  rcases h with ⟨first, hhead, hids⟩
  rcases hpre with ⟨more, hmore⟩
  refine ⟨first, ?_, hids⟩
  rw [← hmore, List.head?_append, hhead]
  rfl

theorem Placed.mono (h : Placed record log t) (hlog : log <+: log')
    (hpre : record.published <+: record'.published) : Placed record' log' t where
  rests m hm := (h.rests m hm).mono hlog
  origin m hm := (h.origin m hm).mono hpre
  returned := h.returned

theorem Placed.of_single {place : Place H} (hrests : RestsOn log m) (horigin : OfUpload record m)
    (hmessages : messages ⟨m, place⟩ = [m])
    (hplace : ∀ w m', place ≠ .inHand w (.completing m')) : Placed record log ⟨m, place⟩ where
  rests := by
    rw [hmessages]
    exact List.forall_mem_singleton.mpr hrests
  origin := by
    rw [hmessages]
    exact List.forall_mem_singleton.mpr horigin
  returned w m' h := absurd h (hplace w m')

theorem Placed.own_rests (h : Placed record log t) : RestsOn log t.message :=
  h.rests _ List.mem_cons_self

theorem Placed.own_origin (h : Placed record log t) : OfUpload record t.message :=
  h.origin _ List.mem_cons_self

theorem Logged.snoc (h : Logged record log) (hrests : RestsOn log m) (horigin : OfUpload record m)
    (hpublished : record'.published = record.published)
    (hcompleted : ∀ σ ∈ record'.rows.snapshot.completed,
      σ = m.stage ∨ σ ∈ record.rows.snapshot.completed) : Logged record' (log ++ [m]) := by
  have hpre : record.published <+: record'.published := by rw [hpublished]
  constructor
  · intro σ hσ
    rcases hcompleted σ hσ with rfl | hold
    · exact ⟨m, by simp, rfl⟩
    · rcases h.completed σ hold with ⟨c, hc, heq⟩
      exact ⟨c, List.mem_append_left _ hc, heq⟩
  · intro k c hc
    rcases Nat.lt_or_ge k log.length with hk | hk
    · rw [List.getElem?_append_left hk] at hc
      rw [List.take_append_of_le_length hk.le]
      exact h.rests k c hc
    · rw [List.getElem?_append_right hk] at hc
      have hzero : k - log.length = 0 := by
        by_contra hne
        rw [List.getElem?_eq_none (by simp; omega)] at hc
        cases hc
      rw [hzero] at hc
      cases hc
      have heq : k = log.length := by omega
      rw [heq, List.take_left]
      exact hrests
  · intro c hc
    rcases List.mem_append.mp hc with hold | hnew
    · exact (h.origin c hold).mono hpre
    · rw [List.mem_singleton.mp hnew]
      exact horigin.mono hpre

theorem Logged.frame (h : Logged record log) (hpre : record.published <+: record'.published)
    (hcompleted : record'.rows.snapshot.completed ⊆ record.rows.snapshot.completed) :
    Logged record' log where
  completed σ hσ := h.completed σ (hcompleted hσ)
  rests := h.rests
  origin c hc := (h.origin c hc).mono hpre

theorem completed_completeStage (rows : StageRows) (stage : String) :
    ∀ σ ∈ (rows.completeStage stage).snapshot.completed,
      σ = stage ∨ σ ∈ rows.snapshot.completed := by
  intro σ hσ
  rw [StageRows.mem_completed, StageRows.status_completeStage] at hσ
  by_cases heq : σ = stage
  · exact Or.inl heq
  · rw [if_neg heq] at hσ
    exact Or.inr (StageRows.mem_completed.mpr hσ)

theorem completed_subset_of_status {rows rows' : StageRows}
    (h : ∀ σ, rows'.status σ = some .succeeded → rows.status σ = some .succeeded) :
    rows'.snapshot.completed ⊆ rows.snapshot.completed := by
  intro σ hσ
  exact StageRows.mem_completed.mpr (h σ (StageRows.mem_completed.mp hσ))

theorem completed_beginStage (rows : StageRows) (stage : String) (attempt : ℕ) :
    (rows.beginStage stage attempt).snapshot.completed ⊆ rows.snapshot.completed := by
  apply completed_subset_of_status
  intro σ hσ
  rw [StageRows.status_beginStage] at hσ
  by_cases heq : σ = stage
  · rw [if_pos heq] at hσ
    cases hσ
  · rwa [if_neg heq] at hσ

theorem completed_failStage (rows : StageRows) (stage error : String) (permanent : Bool) :
    (rows.failStage stage error permanent).snapshot.completed ⊆ rows.snapshot.completed := by
  apply completed_subset_of_status
  intro σ hσ
  rw [StageRows.status_failStage] at hσ
  by_cases heq : σ = stage
  · rw [if_pos heq] at hσ
    cases permanent <;> cases hσ
  · rwa [if_neg heq] at hσ

theorem completed_markDispatched (rows : StageRows) (stages : List String) :
    (rows.markDispatched stages).snapshot.completed ⊆ rows.snapshot.completed := by
  apply completed_subset_of_status
  intro σ hσ
  rw [StageRows.status_markDispatched] at hσ
  by_cases hmem : σ ∈ stages
  · rw [if_pos hmem] at hσ
    cases hstatus : rows.status σ with
    | none =>
      rw [hstatus] at hσ
      cases hσ
    | some status =>
      rw [hstatus] at hσ
      exact hσ
  · rwa [if_neg hmem] at hσ

/-- What becomes ready rests on the completions behind the snapshot. -/
theorem restsOn_nextMessages {snapshot : StageSnapshot} {f : StageMessage}
    (hsnapshot : ∀ σ ∈ snapshot.completed, ∃ c ∈ log, c.stage = σ)
    (hf : f ∈ nextMessages PIPELINE m snapshot) : RestsOn log f := by
  intro _
  rcases mem_nextMessages.mp hf with ⟨stage, hstage, rfl⟩
  rcases mem_readyStages.mp hstage with ⟨hmem, -, hdeps⟩
  exact ⟨stage, mem_stagesFor.mpr hmem, rfl, fun dep hdep => hsnapshot dep (hdeps hdep)⟩

theorem ofUpload_nextMessages {snapshot : StageSnapshot} {f : StageMessage}
    (h : OfUpload record m) (hf : f ∈ nextMessages PIPELINE m snapshot) : OfUpload record f := by
  rcases mem_nextMessages.mp hf with ⟨stage, -, rfl⟩
  exact h

theorem messages_reserve (m : StageMessage) (w : WorkerId) (followers : List StageMessage) :
    messages (⟨m, .inHand w (reserve followers)⟩ : Token H) = m :: followers := by
  cases followers <;> rfl

theorem messages_publish (m : StageMessage) (w : WorkerId) (followers : List StageMessage) :
    messages (⟨m, .inHand w (publish followers)⟩ : Token H) = m :: followers := by
  cases followers <;> rfl

theorem Placed.of_followers {followers : List StageMessage} {phase : Phase H}
    (hmessages : messages ⟨m, .inHand w phase⟩ = m :: followers)
    (hphase : ∀ m', phase ≠ .completing m') (hrests : RestsOn log m) (horigin : OfUpload record m)
    (hfollowers : ∀ f ∈ followers, RestsOn log f ∧ OfUpload record f) :
    Placed record log ⟨m, .inHand w phase⟩ where
  rests := by
    rw [hmessages, List.forall_mem_cons]
    exact ⟨hrests, fun f hf => (hfollowers f hf).1⟩
  origin := by
    rw [hmessages, List.forall_mem_cons]
    exact ⟨horigin, fun f hf => (hfollowers f hf).2⟩
  returned w' m' h := by
    cases h
    exact absurd rfl (hphase m')

structure Left (record : Record) (log log' : List StageMessage) (e : Effect W H) : Prop where
  logged : Logged e.record log'
  published : record.published <+: e.record.published
  tokens : ∀ t ∈ e.own.toList ++ e.sent, Placed e.record log' t

theorem left_of_call (hcall : callReturns handlers m w record world phase = some e)
    (hlogged : Logged record log) (hplaced : Placed record log ⟨m, .inHand w phase⟩) :
    Left record log (log ++ completionOf ⟨m, .inHand w phase⟩ (.call : Act C)) e := by
  have hrests : RestsOn log m := hplaced.own_rests
  have horigin : OfUpload record m := hplaced.own_origin
  have hsame : record.published <+: record.published := List.prefix_refl _
  cases phase with
  | received =>
    cases hcall
    simp only [completionOf, List.append_nil]
    refine ⟨hlogged.frame hsame (completed_beginStage _ _ _), hsame, ?_⟩
    exact List.forall_mem_singleton.mpr (.of_single hrests horigin rfl (by simp))
  | handling h' => cases hcall
  | completing m' =>
    cases hcall
    have hstage : m'.stage = m.stage := hplaced.returned w m' rfl
    have hrests' : RestsOn log m' := hplaced.rests m' (by simp [messages])
    have horigin' : OfUpload record m' := hplaced.origin m' (by simp [messages])
    have hnew : Logged
        { rows := record.rows.completeStage m.stage
          detected := if m.stage = "detect" then some m'.family else record.detected
          published := record.published } (log ++ [m']) := by
      refine hlogged.snoc hrests' horigin' (by rfl) ?_
      rw [hstage]
      exact completed_completeStage _ _
    refine ⟨hnew, hsame, List.forall_mem_singleton.mpr ?_⟩
    apply Placed.of_followers (messages_reserve m w _)
    · intro m''
      cases nextMessages PIPELINE m' (record.rows.completeStage m.stage).snapshot <;> simp [reserve]
    · exact hrests.mono (List.prefix_append _ _)
    · exact horigin
    · intro f hf
      exact ⟨restsOn_nextMessages hnew.completed hf, ofUpload_nextMessages horigin' hf⟩
  | reserving follower rest =>
    cases hcall
    simp only [completionOf, List.append_nil]
    refine ⟨hlogged.frame hsame (completed_markDispatched _ _), hsame, ?_⟩
    exact List.forall_mem_singleton.mpr ⟨hplaced.rests, hplaced.origin, by simp⟩
  | publishing follower rest =>
    cases hcall
    simp only [completionOf, List.append_nil]
    have hmore : record.published <+: record.published ++ [follower] := List.prefix_append _ _
    have hfollowers : ∀ f ∈ follower :: rest,
        RestsOn log f ∧ OfUpload { record with published := record.published ++ [follower] } f := by
      intro f hf
      have hmem : f ∈ messages (⟨m, .inHand w (.publishing follower rest)⟩ : Token H) :=
        List.mem_cons_of_mem _ hf
      exact ⟨hplaced.rests f hmem, (hplaced.origin f hmem).mono hmore⟩
    refine ⟨hlogged.frame hmore (Finset.Subset.refl _), hmore, ?_⟩
    simp only [Option.toList_some, List.singleton_append, List.forall_mem_cons]
    refine ⟨?_, ?_, by simp⟩
    · apply Placed.of_followers (messages_publish m w rest)
      · intro m'
        cases rest <;> simp [Consumer.publish]
      · exact hrests
      · exact horigin.mono hmore
      · exact fun f hf => hfollowers f (List.mem_cons_of_mem _ hf)
    · obtain ⟨hfollower, huploaded⟩ := hfollowers follower List.mem_cons_self
      exact .of_single hfollower huploaded rfl (by simp)
  | acking =>
    cases hcall
    simp only [completionOf, List.append_nil]
    exact ⟨hlogged, hsame, by simp⟩
  | failing exc =>
    simp only [completionOf, List.append_nil]
    obtain ⟨_, _, _, -, rfl⟩ | ⟨_, -, rfl⟩ := callReturns_failing hcall
    · refine ⟨hlogged.frame hsame (completed_failStage _ _ _ _), hsame, ?_⟩
      exact List.forall_mem_singleton.mpr (.of_single hrests horigin rfl (by simp))
    · refine ⟨hlogged.frame hsame (completed_failStage _ _ _ _), hsame, ?_⟩
      exact List.forall_mem_singleton.mpr (.of_single hrests horigin rfl (by simp))
  | condemning reason =>
    cases hcall
    simp only [completionOf, List.append_nil]
    refine ⟨hlogged, hsame, ?_⟩
    exact List.forall_mem_singleton.mpr (.of_single hrests horigin rfl (by simp))
  | deadLettering reason =>
    cases hcall
    simp only [completionOf, List.append_nil]
    refine ⟨hlogged, hsame, ?_⟩
    simp only [Option.toList_some, List.singleton_append, List.forall_mem_cons]
    exact ⟨.of_single hrests horigin rfl (by simp), .of_single hrests horigin rfl (by simp), by simp⟩
  | retrying delayMs =>
    cases hcall
    simp only [completionOf, List.append_nil]
    refine ⟨hlogged, hsame, ?_⟩
    simp only [Option.toList_some, List.singleton_append, List.forall_mem_cons]
    exact ⟨.of_single hrests horigin rfl (by simp), .of_single hrests horigin rfl (by simp), by simp⟩

theorem left_of_turn {live : WorkerId → Option (List String)} {a : Act C}
    (h : Turn handlers live record world t a e) (hlogged : Logged record log)
    (hplaced : Placed record log t) : Left record log (log ++ completionOf t a) e := by
  have hsame : record.published <+: record.published := List.prefix_refl _
  have hquiet : ∀ (m : StageMessage) (place : Place H) (world' : W), Placed record log ⟨m, place⟩ →
      Left record log (log ++ []) { own := some ⟨m, place⟩, record := record, world := world' } := by
    intro m place world' ht'
    rw [List.append_nil]
    exact ⟨hlogged, hsame, List.forall_mem_singleton.mpr ht'⟩
  have hrests : RestsOn log t.message := hplaced.own_rests
  have horigin : OfUpload record t.message := hplaced.own_origin
  cases h with
  | @deliver m w =>
    apply hquiet
    unfold pickUp
    split_ifs <;> exact .of_single hrests horigin rfl (by simp)
  | work => exact hquiet _ _ _ (.of_single hrests horigin rfl (by simp))
  | fail => exact hquiet _ _ _ (.of_single hrests horigin rfl (by simp))
  | expire => exact hquiet _ _ _ (.of_single hrests horigin rfl (by simp))
  | @finish m w k family hresult =>
    apply hquiet
    have hreturned : (family.elim m m.withFamily).stage = m.stage := by cases family <;> rfl
    constructor
    · simp only [messages, List.forall_mem_cons, List.not_mem_nil, false_imp_iff, implies_true,
        and_true]
      refine ⟨hrests, fun hstage => ?_⟩
      rw [hreturned] at hstage
      -- only `detect` finds a family
      cases family with
      | none => exact hrests hstage
      | some found => exact absurd ((handlers.family_iff hresult).mp rfl) hstage
    · simp only [messages, List.forall_mem_cons, List.not_mem_nil, false_imp_iff, implies_true,
        and_true]
      refine ⟨horigin, ?_⟩
      cases family <;> exact horigin
    · intro w' m' hplace
      cases hplace
      exact hreturned
  | call hcall => exact left_of_call hcall hlogged hplaced
  | @raises m w phase e' done hcall =>
    cases done with
    | false => exact hquiet _ _ _ (.of_single hrests horigin rfl (by simp))
    | true =>
      have hleft := left_of_call (C := C) hcall hlogged hplaced
      refine ⟨hleft.logged, hleft.published, fun t' ht' => ?_⟩
      rcases List.mem_append.mp ht' with hown | hsent
      · obtain ⟨t'', ht'', rfl⟩ := Option.map_eq_some_iff.mp (Option.mem_toList.mp hown)
        have hold := hleft.tokens t'' (List.mem_append_left _ (Option.mem_toList.mpr ht''))
        exact .of_single hold.own_rests hold.own_origin rfl (by simp)
      · exact hleft.tokens t' (List.mem_append_right _ hsent)

structure InOrder (r : RunState H) (log : List StageMessage) : Prop where
  logged : Logged r.record log
  tokens : ∀ t ∈ r.tokens, Placed r.record log t

theorem InOrder.release {r : RunState H} (h : InOrder r log) (w : WorkerId) :
    InOrder (r.release w) log := by
  refine ⟨h.logged, fun t ht => ?_⟩
  obtain ⟨t', ht', rfl⟩ := List.mem_map.mp ht
  have hold := h.tokens t' ht'
  unfold Token.release
  split
  · split_ifs
    · exact .of_single hold.own_rests hold.own_origin rfl (by simp)
    · exact hold
  · exact hold

theorem InOrder.upload {r : RunState H} (h : InOrder r log) (hnew : r.record.published = [])
    (documentId run pipelineVersion traceId : String) :
    InOrder (r.upload (uploadMessage documentId run pipelineVersion traceId)) log := by
  have hmore : r.record.published <+:
      r.record.published ++ [uploadMessage documentId run pipelineVersion traceId] :=
    List.prefix_append _ _
  refine ⟨h.logged.frame hmore (Finset.Subset.refl _), fun t ht => ?_⟩
  rcases List.mem_append.mp ht with hold | hfresh
  · exact (h.tokens t hold).mono (List.prefix_refl _) hmore
  · rw [List.mem_singleton.mp hfresh]
    refine .of_single (fun hstage => absurd rfl hstage) ⟨_, ?_, rfl, rfl⟩ rfl (by simp)
    change (r.record.published ++ _).head? = _
    rw [hnew]
    rfl

theorem noteCompletion_other {s : System W H} {e : Event C} {log : String → List StageMessage}
    {run : String} (h : ∀ i a, e ≠ .act run i a) : noteCompletion s e log run = log run := by
  cases e with
  | act run' i a =>
    have hne : run ≠ run' := by
      rintro rfl
      exact h i a rfl
    exact Function.update_of_ne hne _ _
  | _ => rfl

theorem noteCompletion_act {s : System W H} {log : String → List StageMessage} {run : String} {i : ℕ}
    {a : Act C} (ht : (s.runs run).tokens[i]? = some t) :
    noteCompletion s (.act run i a) log run = log run ++ completionOf t a := by
  change Function.update log run (log run ++ ((s.runs run).tokens[i]?).elim [] _) run = _
  rw [Function.update_self, ht]
  rfl

theorem inOrder_of_reachable {s : System W H × (String → List StageMessage)}
    (h : Reachable Start (exec handlers) (fun _ _ => True) s) (run : String) :
    InOrder (s.1.runs run) (s.2 run) := by
  induction h with
  | @start s hstart =>
    rw [hstart.1.2, hstart.2]
    exact ⟨⟨by simp [StageRows.mem_completed, StageRows.status_empty], by simp, by simp⟩, by simp⟩
  | @next s t e _ _ hexec ih =>
    obtain ⟨s', hs', rfl⟩ := Option.map_eq_some_iff.mp hexec
    change InOrder (s'.runs run) (noteCompletion s.1 e s.2 run)
    by_cases hown : ∃ i a, e = .act run i a
    · obtain ⟨i, a, rfl⟩ := hown
      obtain ⟨t, ht, hact⟩ := Option.bind_eq_some_iff.mp hs'
      obtain ⟨eff, heff, rfl⟩ := Option.map_eq_some_iff.mp hact
      have hleft := left_of_turn (turn_of_act heff) ih.logged
        (ih.tokens t (List.mem_of_getElem? ht))
      rw [noteCompletion_act ht]
      change InOrder (Function.update s.1.runs run _ run) _
      rw [Function.update_self]
      refine ⟨hleft.logged, fun t' ht' => ?_⟩
      rcases mem_replace.mp ht' with hfresh | ⟨j, -, hj⟩
      · exact hleft.tokens t' hfresh
      · exact (ih.tokens t' (List.mem_of_getElem? hj)).mono (List.prefix_append _ _) hleft.published
    · rw [noteCompletion_other fun i a heq => hown ⟨i, a, heq⟩]
      rcases run_cases hs' run with ⟨heq, -⟩ | ⟨documentId, pipelineVersion, traceId, -, hnew, heq⟩ |
        ⟨w, -, heq⟩ | ⟨i, a, -, -, hact, -⟩
      · rw [heq]
        exact ih
      · rw [heq]
        exact ih.upload hnew _ _ _ _
      · rw [heq]
        exact ih.release w
      · exact absurd ⟨i, a, hact⟩ hown

/-- Whatever crashes, is redelivered or raises: a message for a stage exists only behind the recorded
    completions of the stage's dependencies, and the completions of a run are in such an order
    themselves. All of them are about the document that was uploaded. -/
theorem dependencies_complete_first {s : System W H × (String → List StageMessage)}
    (h : Reachable Start (exec handlers) (fun _ _ => True) s) (run : String) :
    (∀ t ∈ (s.1.runs run).tokens, ∀ m ∈ messages t,
        RestsOn (s.2 run) m ∧ OfUpload (s.1.runs run).record m) ∧
      ∀ k c, (s.2 run)[k]? = some c →
        RestsOn ((s.2 run).take k) c ∧ OfUpload (s.1.runs run).record c := by
  have hinOrder := inOrder_of_reachable h run
  constructor
  · intro t ht m hm
    have hplaced := hinOrder.tokens t ht
    exact ⟨hplaced.rests m hm, hplaced.origin m hm⟩
  · intro k c hc
    exact ⟨hinOrder.logged.rests k c hc, hinOrder.logged.origin c (List.mem_of_getElem? hc)⟩

end

/-- The worker that has recorded the completion of `detect` dies, and another one takes over. -/
def takenOver : List (Event Unit) :=
  [.upload "document" "run" "v1" "trace", .start 0 everyStage, .act "run" 0 (.deliver 0),
    .act "run" 0 .call, .act "run" 0 .finish, .act "run" 0 .call, .crash 0, .start 1 everyStage,
    .act "run" 0 (.deliver 1), .act "run" 0 .call, .act "run" 0 .finish, .act "run" 0 .call,
    .act "run" 0 .call, .act "run" 0 .call]

theorem a_follower_of_a_redelivery_rests_on_it :
    ∃ s, Reachable Start (exec (prompt .flow)) (fun _ _ => True) s ∧
      (s.2 "run").map (·.stage) = ["detect", "detect"] ∧
      ∃ t ∈ (s.1.runs "run").tokens, t.message.stage = "parse_flow" ∧
        RestsOn (s.2 "run") t.message := by
  have hend : (run (exec (prompt .flow)) (fresh, fun _ => []) takenOver).map (fun s =>
      ((s.2 "run").map (·.stage), (s.1.runs "run").tokens.map (·.message.stage))) =
        some (["detect", "detect"], ["detect", "parse_flow"]) := by
    decide +kernel
  obtain ⟨s, hrun, heq⟩ := Option.map_eq_some_iff.mp hend
  obtain ⟨hlog, htokens⟩ := Prod.mk.inj heq
  have hreach : Reachable Start (exec (prompt .flow)) (fun _ _ => True) s :=
    reachable_of_run (.start ⟨⟨rfl, rfl⟩, rfl⟩) (fun _ _ _ => trivial) hrun
  have hmem : "parse_flow" ∈ (s.1.runs "run").tokens.map (·.message.stage) := by
    rw [htokens]
    simp
  obtain ⟨t, ht, hstage⟩ := List.mem_map.mp hmem
  have hrests := (dependencies_complete_first hreach "run").1 t ht t.message List.mem_cons_self
  exact ⟨s, hreach, hlog, t, ht, hstage, hrests.1⟩

end Ragent.StageOrder
