import Ragent.Deliveries

set_option autoImplicit false

/-!
# The dead-letter queues and the stage table

What each way out of `_on_message` leaves in the queues and in the tables, and when the two agree.
-/
namespace Ragent.DeadLetters
open Amqp BrokerTopology Deliveries DocumentTables Formats Messages PyJson Runner Stages StageStores

section
variable {F : Type}

theorem describe_ne_nil (exc : Exc) : exc.describe.toList ≠ [] := by
  intro h
  have hlength := congrArg List.length h
  simp [Exc.describe] at hlength

/-- A stage of the pipeline is given up with what was raised at the end of the reason. -/
theorem planFailure_cases {pipeline : List Stage} {delays : List ℕ} {message : Runner.StageMessage}
    {stage : Stage} (hstage : stageByName pipeline message.stage = some stage)
    (hdelays : delays ≠ []) (exc : Exc) :
    (∃ delayMs ∈ delays, ∃ attempt, planFailure pipeline delays message exc =
      .retry delayMs (retryExchangeName delayMs) attempt) ∨
    ∃ reason, planFailure pipeline delays message exc = .deadLetter reason ∧
      exc.describe.toList <:+ reason.toList := by
  by_cases hexc : exc.permanent = true
  · right
    refine ⟨exc.describe, ?_, List.suffix_refl _⟩
    simp only [planFailure, hstage, hexc, if_true]
  · by_cases hattempts : stage.maxAttempts ≤ message.attempt
    · right
      have hdelay : retryDelayMs delays stage message.attempt = none := if_pos hattempts
      refine ⟨_, by simp only [planFailure, hstage, hexc, hdelay]; rfl, ?_⟩
      rw [String.toList_append]
      exact List.suffix_append _ _
    · left
      have hdelay : retryDelayMs delays stage message.attempt =
          some (Retries.delayAt delays message.attempt) := if_neg hattempts
      refine ⟨_, Retries.delayAt_mem hdelays message.attempt, message.attempt + 1, ?_⟩
      simp only [planFailure, hstage, hexc, hdelay]
      rfl

theorem lookup_failStage (rows : StageRows) (stage error : String) :
    ∃ row, (rows.failStage stage error true).lookup stage = some row ∧ row.status = .failed ∧
      row.error = some (String.ofList (error.toList.take 4000)) := by
  unfold StageRows.failStage
  rw [StageRows.lookup_upsert, if_pos rfl]
  cases rows.lookup stage with
  | none => exact ⟨_, rfl, rfl, rfl⟩
  | some row => exact ⟨_, rfl, rfl, rfl⟩

theorem failed_of_failStage {t t' : Tables} {m : Messages.StageMessage F} {d reason : String}
    (hreason : reason.toList ≠ [])
    (hrows : t'.rows m.runId = (t.rows m.runId).failStage m.stage reason true)
    (hrun : t'.documentOf m.runId = some d) (hdocument : t'.documents d = some .failed) :
    Failed t' m := by
  obtain ⟨row, hrow, hstatus, herror⟩ := lookup_failStage (t.rows m.runId) m.stage reason
  constructor
  · refine ⟨row, _, hrows ▸ hrow, hstatus, herror, ?_⟩
    intro hempty
    have hlength := congrArg (fun s : String => s.toList.length) hempty
    have hpos := List.length_pos_of_ne_nil hreason
    simp at hlength
    exact hreason (by rw [hlength]; rfl)
  · exact ⟨d, .failed, hrun, hdocument, .inl rfl⟩

theorem not_failed_of_status {t : Tables} {m : Messages.StageMessage F} {status : StageStatus}
    (h : (t.rows m.runId).status m.stage = some status) (hne : status ≠ .failed) : ¬ Failed t m := by
  intro hfailed
  obtain ⟨⟨row, error, hrow, hstatus, -, -⟩, -⟩ := hfailed
  simp only [StageRows.status, hrow, Option.map_some, Option.some.injEq] at h
  exact hne (h ▸ hstatus)

section
variable {pipeline : List Stage} {delays : List ℕ} {reprOf : Exc → String} {broker : Broker}
  {py : Platform F} {unicodeError : Bytes → String} {hex : String} {registry : Registry F pipeline}
  {m : Messages.StageMessage F} {h : 1 ≤ m.attempt.val} {stage : Stage} {raw : Bytes}
  {t : Tables} {p : Progress F} {d : String}

theorem decode_of_ok (hm : fromBytes py unicodeError hex raw = .ok m) :
    decode py unicodeError hex raw = .ok ⟨m, attempt_of_fromBytes hm⟩ := by
  unfold decode
  split
  · rename_i m' hm'
    obtain rfl := Except.ok.inj (hm'.symm.trans hm)
    rfl
  · rename_i e he
    rw [hm] at he
    cases he

theorem decode_of_error {e : PyError} (he : fromBytes py unicodeError hex raw = .error e) :
    decode py unicodeError hex raw = .error e := by
  unfold decode
  split
  · rename_i m hm
    rw [he] at hm
    cases hm
  · rename_i e' he'
    rw [Except.error.inj (he'.symm.trans he)]

section
variable (hdeclared : Declared (buildTopology pipeline delays) broker)
  (hpipeline : WellNamed pipeline)

include hdeclared hpipeline

theorem delivered_of_rejected (hstage : stage ∈ pipeline) (hsettled : p.settled = some .rejected) :
    p.delivered broker stage raw =
      ⟨p.tables, p.sent ++ [⟨stage.dlq, stage.routingKey, .original raw⟩]⟩ := by
  unfold Progress.delivered
  rw [if_pos hsettled]
  simp only [Broker.deadLetter, hdeclared.argumentsOf_work hstage,
    hdeclared.publish_dlx hpipeline hstage, Option.getD_some]

omit hdeclared hpipeline in
theorem delivered_of_acked (hsettled : p.settled = some .acked) :
    p.delivered broker stage raw = ⟨p.tables, p.sent⟩ := by
  unfold Progress.delivered
  rw [hsettled, if_neg (by decide), List.append_nil]

omit hdeclared in
theorem publish_of_route {own : Stage} (hown : own ∈ pipeline) (hname : m.stage = own.name)
    {exchange queue : String} (hroute : ∀ delivery : Retries.Delivery F,
      broker.publish exchange own.routingKey delivery = some [⟨queue, own.routingKey, delivery⟩])
    (headers : List (String × Json F)) (p : Progress F) :
    (publish pipeline broker exchange m headers).run p =
      .ok () { p with
        sent := p.sent ++ [⟨queue, own.routingKey,
          .sent ⟨m, ("x-trace-id", .str m.traceId) :: headers⟩⟩] } := by
  have hfound := Retries.stageByName_message hpipeline hown hname
  simp only [EStateM.run, publish, Retries.publish, hfound, Option.bind_some, hroute, List.map_cons,
    List.map_nil]

theorem deadLetter_of_mem (hmem : m.stage ∈ pipeline.map (·.name)) (reason : String) :
    ∃ dlq ∈ pipeline.map (·.dlq), ∃ key delivery,
      (deadLetter pipeline broker m reason).run p =
        .ok () { p with sent := p.sent ++ [⟨dlq, key, .sent delivery⟩] } ∧
      ("x-death-reason", .str (Retries.clipped reason)) ∈ delivery.headers := by
  obtain ⟨own, hown, hname⟩ := List.mem_map.mp hmem
  refine ⟨own.dlq, List.mem_map_of_mem hown, own.routingKey,
    ⟨m, [("x-trace-id", .str m.traceId), ("x-death-reason", .str (Retries.clipped reason))]⟩, ?_,
    List.mem_cons_of_mem _ List.mem_cons_self⟩
  exact publish_of_route hpipeline hown hname.symm
    (fun delivery => hdeclared.publish_dlx hpipeline hown delivery) _ p

omit hdeclared hpipeline in
theorem deadLetter_of_not_mem (hmem : m.stage ∉ pipeline.map (·.name)) (reason : String) :
    (deadLetter pipeline broker m reason).run p = .error () p := by
  have hnone : stageByName pipeline m.stage = none := by
    apply List.find?_eq_none.mpr
    intro other hother hname
    exact hmem (List.mem_map.mpr ⟨other, hother, of_decide_eq_true hname⟩)
  simp only [EStateM.run, deadLetter, publish, Retries.publish, hnone, Option.bind_none]

theorem retry_of_mem (hmem : m.stage ∈ pipeline.map (·.name)) {delayMs : ℕ} (hdelay : delayMs ∈ delays)
    (headers : List (String × Json F)) :
    ∃ copy, (publish pipeline broker (retryExchangeName delayMs) m headers).run p =
        .ok () { p with sent := p.sent ++ [copy] } ∧
      copy.queue ∉ pipeline.map (·.dlq) := by
  obtain ⟨own, hown, hname⟩ := List.mem_map.mp hmem
  refine ⟨⟨retryExchangeName delayMs, own.routingKey,
    .sent ⟨m, ("x-trace-id", .str m.traceId) :: headers⟩⟩, ?_, ?_⟩
  · exact publish_of_route hpipeline hown hname.symm
      (fun delivery => hdeclared.publish_retry hdelay _ delivery) headers p
  · intro hdlq
    obtain ⟨other, -, heq⟩ := List.mem_map.mp hdlq
    exact dlq_ne_retry heq

theorem follower_of_mem (hmem : m.stage ∈ pipeline.map (·.name)) :
    ∃ copy, (∀ p, (publish pipeline broker INGEST_EXCHANGE m []).run p =
        .ok () { p with sent := p.sent ++ [copy] }) ∧
      copy.queue ∉ pipeline.map (·.dlq) := by
  obtain ⟨own, hown, hname⟩ := List.mem_map.mp hmem
  refine ⟨⟨own.queue, own.routingKey, .sent ⟨m, [("x-trace-id", .str m.traceId)]⟩⟩, ?_, ?_⟩
  · exact publish_of_route hpipeline hown hname.symm
      (fun delivery => hdeclared.publish_ingest hpipeline hown delivery) []
  · intro hdlq
    obtain ⟨other, -, heq⟩ := List.mem_map.mp hdlq
    exact queue_ne_dlq (Retries.dot_notMem hpipeline hown) heq.symm

theorem publish_followers {followers : List (Messages.StageMessage F)}
    (hfollowers : ∀ f ∈ followers, f.stage ∈ pipeline.map (·.name)) :
    ∃ copies, (∀ p, (forM followers fun f => publish pipeline broker INGEST_EXCHANGE f []).run p =
        .ok () { p with sent := p.sent ++ copies }) ∧
      ∀ copy ∈ copies, copy.queue ∉ pipeline.map (·.dlq) := by
  induction followers with
  | nil => exact ⟨[], fun p => by rw [List.append_nil]; rfl, by simp⟩
  | cons f followers ih =>
    obtain ⟨copy, hfirst, hqueue⟩ :=
      follower_of_mem hdeclared hpipeline (hfollowers f List.mem_cons_self)
    obtain ⟨copies, hrest, hqueues⟩ := ih fun f' hf' => hfollowers f' (List.mem_cons_of_mem _ hf')
    refine ⟨copy :: copies, fun p => ?_, List.forall_mem_cons.mpr ⟨hqueue, hqueues⟩⟩
    rw [List.forM_cons, bind_of_ok (hfirst p), hrest]
    simp only [List.append_assoc, List.singleton_append]

omit hdeclared hpipeline in
theorem nextMessages_known (m : Messages.StageMessage F) (snapshot : StageSnapshot) :
    ∀ f ∈ nextMessages pipeline m snapshot, f.stage ∈ pipeline.map (·.name) := by
  intro f hf
  obtain ⟨stage, hstage, rfl⟩ := List.mem_map.mp hf
  exact List.mem_map_of_mem (mem_readyStages.mp hstage).1.1

theorem handOff_of_known (hrun : p.tables.documentOf m.runId = some d)
    {followers : List (Messages.StageMessage F)}
    (hfollowers : ∀ f ∈ followers, f.stage ∈ pipeline.map (·.name)) :
    ∃ t copies, (handOff pipeline broker m followers).run p =
        .ok () { p with tables := t, sent := p.sent ++ copies } ∧
      t.rows m.runId = (p.tables.rows m.runId).markDispatched (followers.map (·.stage)) ∧
      ∀ copy ∈ copies, copy.queue ∉ pipeline.map (·.dlq) := by
  unfold handOff
  by_cases hnil : followers = []
  · subst hnil
    rw [if_pos rfl]
    refine ⟨p.tables, [], ?_, rfl, by simp⟩
    rw [List.append_nil]
    rfl
  · rw [if_neg hnil]
    obtain ⟨t, ht, hrows, -, -⟩ :=
      Tables.execute_of_known hrun (·.markDispatched (followers.map (·.stage)))
    obtain ⟨copies, hpublish, hqueues⟩ := publish_followers hdeclared hpipeline hfollowers
    refine ⟨t, copies, ?_, hrows, hqueues⟩
    rw [bind_of_ok (call_of_some ht), hpublish]

theorem complete_of_known (hrun : p.tables.documentOf m.runId = some d) :
    ∃ t copies, (complete pipeline broker m).run p =
        .ok () ⟨t, p.sent ++ copies, some .acked⟩ ∧
      (t.rows m.runId).status m.stage = some .succeeded ∧
      ∀ copy ∈ copies, copy.queue ∉ pipeline.map (·.dlq) := by
  obtain ⟨t, ht, hrows, hdocumentOf, -⟩ :=
    Tables.execute_of_known hrun (·.completeStage m.stage)
  have hrun' : t.documentOf m.runId = some d := by rw [hdocumentOf, hrun]
  obtain ⟨t', copies, hhandOff, hrows', hqueues⟩ :=
    handOff_of_known (p := { p with tables := t }) hdeclared hpipeline hrun'
      (nextMessages_known m (t.rows m.runId).snapshot)
  refine ⟨t', copies, ?_, ?_, hqueues⟩
  · unfold complete
    rw [bind_of_ok (call_of_some ht), bind_of_ok run_get, bind_of_ok hhandOff]
    rfl
  · have hdone : (t.rows m.runId).status m.stage = some .succeeded := by
      rw [hrows, StageRows.status_completeStage, if_pos rfl]
    rw [hrows', StageRows.status_markDispatched, hdone]
    exact ite_self _

variable (reprOf h) in
/-- A failure waits for its retry, or the queue, the row and the document tell of it. -/
theorem handleFailure_of_known (hdelays : delays ≠ [])
    (hmem : m.stage ∈ pipeline.map (·.name)) (hrun : p.tables.documentOf m.runId = some d)
    (exc : Exc) :
    ∃ t copy, (handleFailure pipeline delays reprOf broker m h exc).run p =
        .ok () ⟨t, p.sent ++ [copy], some .acked⟩ ∧
      ((copy.queue ∉ pipeline.map (·.dlq) ∧ ¬ Failed t m) ∨
        (copy.queue ∈ pipeline.map (·.dlq) ∧ Failed t m ∧
          ∃ delivery text, copy.body = .sent delivery ∧ exc.describe.toList <:+ text.toList ∧
            ("x-death-reason", .str (Retries.clipped text)) ∈ delivery.headers)) := by
  obtain ⟨own, hown, hname⟩ := List.mem_map.mp hmem
  have hfound : stageByName pipeline (m.envelope h).stage = some own :=
    Retries.stageByName_message hpipeline hown hname.symm
  unfold handleFailure
  obtain ⟨delayMs, hdelay, attempt, hplan⟩ | ⟨reason, hplan, hends⟩ :=
    planFailure_cases hfound hdelays exc
  · obtain ⟨t, ht, hrows, -, -⟩ :=
      Tables.failStage_of_known hrun m.stage exc.describe false
    obtain ⟨copy, hretry, hqueue⟩ := retry_of_mem (m := m.retried) (p := { p with tables := t })
      hdeclared hpipeline hmem hdelay
      [("x-retry-attempt", .int attempt), ("x-retry-reason", .str (Retries.clipped (reprOf exc)))]
    refine ⟨t, copy, ?_, .inl ⟨hqueue, ?_⟩⟩
    · simp only [hplan]
      rw [bind_of_ok (call_of_some ht), bind_of_ok hretry]
      rfl
    · have hpending : (t.rows m.runId).status m.stage = some .pending := by
        rw [hrows, StageRows.status_failStage, if_pos rfl]
        rfl
      exact not_failed_of_status hpending (by decide)
  · obtain ⟨t, ht, hrows, hdocumentOf, hdocument⟩ :=
      Tables.failStage_of_known hrun m.stage reason true
    obtain ⟨dlq, hdlq, key, delivery, hdead, hheaders⟩ :=
      deadLetter_of_mem (p := { p with tables := t }) hdeclared hpipeline hmem reason
    refine ⟨t, ⟨dlq, key, .sent delivery⟩, ?_, .inr ⟨hdlq, ?_, delivery, reason, rfl, hends, hheaders⟩⟩
    · simp only [hplan]
      rw [bind_of_ok (call_of_some ht), bind_of_ok hdead]
      rfl
    · have hreason : reason.toList ≠ [] := by
        intro hnil
        rw [hnil] at hends
        exact describe_ne_nil exc (List.suffix_nil.mp hends)
      exact failed_of_failStage hreason hrows (hdocumentOf ▸ hrun) (hdocument rfl)

end

theorem adopt_eq {metrics : Option (Dict F)} {m' : Messages.StageMessage F}
    (h : adopt py m metrics = some m') : m'.runId = m.runId ∧ m'.stage = m.stage := by
  unfold adopt at h
  cases hget : metrics.bind (·.get "family") with
  | none =>
    simp only [hget, Option.some.injEq] at h
    rw [h]
    exact ⟨rfl, rfl⟩
  | some v =>
    simp only [hget] at h
    by_cases htruthy : v.truthy py.isZero = true
    · rw [if_pos htruthy] at h
      obtain ⟨family, -, rfl⟩ := Option.map_eq_some_iff.mp h
      exact ⟨rfl, rfl⟩
    · rw [if_neg htruthy] at h
      obtain rfl := Option.some.inj h
      exact ⟨rfl, rfl⟩

section
variable {before : Tables}

variable (delays reprOf broker) in
theorem onMessage_of_registered (hm : fromBytes py unicodeError hex raw = .ok m)
    {handler : Messages.StageMessage F → Outcome F}
    (hhandler : registry.getHandler m.stage = some handler)
    (hrun : before.documentOf m.runId = some d) :
    ∃ t h, (onMessage pipeline delays reprOf broker py unicodeError hex registry raw).run
        { tables := before } =
        (conclude pipeline delays reprOf broker py m h (handler m).ending).run { tables := t } ∧
      t.documentOf m.runId = some d ∧ (t.rows m.runId).status m.stage = some .running := by
  obtain ⟨t, ht, hrows, hdocumentOf, -⟩ :=
    Tables.execute_of_known hrun (·.beginStage m.stage m.attempt.val.toNat)
  obtain ⟨hrows', hdocumentOf'⟩ := Tables.setDocumentStatuses (handler m).statuses t
  refine ⟨(handler m).statuses.foldl (fun t s => t.setDocumentStatus s.1 s.2) t,
    attempt_of_fromBytes hm, ?_, ?_, ?_⟩
  · unfold onMessage
    simp only [decode_of_ok hm, hhandler]
    rw [bind_of_ok (call_of_some ht)]
    rfl
  · rw [hdocumentOf', hdocumentOf, hrun]
  · rw [hrows', hrows, StageRows.status_beginStage, if_pos rfl]

theorem deliver_of_acked {t : Tables} {copies : List (Stored (Parcel F))}
    (h : (onMessage pipeline delays reprOf broker py unicodeError hex registry raw).run
      { tables := before } = .ok () ⟨t, copies, some .acked⟩) :
    deliver pipeline delays reprOf broker py unicodeError hex registry stage raw before =
      ⟨t, copies⟩ := by
  have h' : onMessage pipeline delays reprOf broker py unicodeError hex registry raw
      { tables := before } = .ok () ⟨t, copies, some .acked⟩ := h
  unfold deliver process
  rw [h']
  exact delivered_of_acked rfl

section
variable (hdeclared : Declared (buildTopology pipeline delays) broker)
  (hpipeline : WellNamed pipeline) (hstage : stage ∈ pipeline)

include hdeclared hpipeline hstage

theorem deliver_of_error {t : Tables}
    (h : (onMessage pipeline delays reprOf broker py unicodeError hex registry raw).run
      { tables := before } = .error () { tables := t }) :
    deliver pipeline delays reprOf broker py unicodeError hex registry stage raw before =
      ⟨t, [⟨stage.dlq, stage.routingKey, .original raw⟩]⟩ := by
  have h' : onMessage pipeline delays reprOf broker py unicodeError hex registry raw
      { tables := before } = .error () { tables := t } := h
  unfold deliver process
  rw [h']
  exact delivered_of_rejected hdeclared hpipeline hstage rfl

theorem deliver_of_undecodable {e : PyError} (he : fromBytes py unicodeError hex raw = .error e) :
    deliver pipeline delays reprOf broker py unicodeError hex registry stage raw before =
      ⟨before, [⟨stage.dlq, stage.routingKey, .original raw⟩]⟩ := by
  cases e with
  | malformedMessageError reason =>
    have h : onMessage pipeline delays reprOf broker py unicodeError hex registry raw
        { tables := before } = .ok () { tables := before, settled := some .rejected } := by
      unfold onMessage
      rw [decode_of_error he]
      rfl
    unfold deliver process
    rw [h]
    exact delivered_of_rejected hdeclared hpipeline hstage rfl
  | uncaught typeName =>
    apply deliver_of_error hdeclared hpipeline hstage
    unfold onMessage
    rw [decode_of_error he]
    rfl

variable (reprOf before) in
theorem deliver_of_unregistered (hm : fromBytes py unicodeError hex raw = .ok m)
    (hnone : registry.getHandler m.stage = none) :
    (m.stage ∈ pipeline.map (·.name) ∧ ∃ dlq ∈ pipeline.map (·.dlq), ∃ key delivery,
      deliver pipeline delays reprOf broker py unicodeError hex registry stage raw before =
        ⟨before, [⟨dlq, key, .sent delivery⟩]⟩ ∧
      ("x-death-reason", .str (Retries.clipped (unregistered py m.stage))) ∈ delivery.headers) ∨
    m.stage ∉ pipeline.map (·.name) ∧
      deliver pipeline delays reprOf broker py unicodeError hex registry stage raw before =
        ⟨before, [⟨stage.dlq, stage.routingKey, .original raw⟩]⟩ := by
  by_cases hmem : m.stage ∈ pipeline.map (·.name)
  · left
    obtain ⟨dlq, hdlq, key, delivery, hdead, hheaders⟩ :=
      deadLetter_of_mem (p := { tables := before }) hdeclared hpipeline hmem
        (unregistered py m.stage)
    refine ⟨hmem, dlq, hdlq, key, delivery, ?_, hheaders⟩
    apply deliver_of_acked
    unfold onMessage
    simp only [decode_of_ok hm, hnone]
    rw [bind_of_ok hdead]
    rfl
  · right
    refine ⟨hmem, deliver_of_error hdeclared hpipeline hstage ?_⟩
    unfold onMessage
    simp only [decode_of_ok hm, hnone]
    exact bind_of_error (deadLetter_of_not_mem hmem _)

variable (reprOf before stage) in
omit hstage in
theorem deliver_of_settles (hdelays : delays ≠ []) (hm : fromBytes py unicodeError hex raw = .ok m)
    {handler : Messages.StageMessage F → Outcome F}
    (hhandler : registry.getHandler m.stage = some handler)
    (hrun : before.documentOf m.runId = some d) (hsettles : Settles py m (handler m).ending) :
    ∃ t copies,
      deliver pipeline delays reprOf broker py unicodeError hex registry stage raw before =
        ⟨t, copies⟩ ∧
      ((¬ DeadLettered pipeline ⟨t, copies⟩ ∧ ¬ Failed t m) ∨
        (Failed t m ∧ ∃ copy, copies = [copy] ∧ copy.queue ∈ pipeline.map (·.dlq) ∧
          CarriesReason pipeline py registry m copy)) := by
  obtain ⟨t, h, hrest, hrun', -⟩ := onMessage_of_registered delays reprOf broker hm hhandler hrun
  have hmem : m.stage ∈ pipeline.map (·.name) := registry.known m.stage (by simp [hhandler])
  cases hending : (handler m).ending with
  | raises exc =>
    obtain ⟨t', copy, hfailure, hcases⟩ := handleFailure_of_known reprOf h (p := { tables := t })
      hdeclared hpipeline hdelays hmem hrun' exc
    refine ⟨t', [copy], deliver_of_acked ?_, ?_⟩
    · rw [hrest, hending]
      exact hfailure
    obtain ⟨hqueue, hfailed⟩ | ⟨hqueue, hfailed, delivery, text, hbody, hends, hheaders⟩ := hcases
    · left
      refine ⟨?_, hfailed⟩
      intro hdead
      obtain ⟨copy', hcopy, hdlq⟩ := hdead
      obtain rfl := List.mem_singleton.mp hcopy
      exact hqueue hdlq
    · right
      exact ⟨hfailed, copy, rfl, hqueue, delivery, text, hbody,
        .raised hhandler hending hends, hheaders⟩
  | interrupted => exact absurd hending hsettles.1
  | returns metrics =>
    obtain ⟨m', hm'⟩ := Option.ne_none_iff_exists'.mp (hsettles.2 metrics hending)
    obtain ⟨hrunId, hstage'⟩ := adopt_eq hm'
    rw [← hrunId] at hrun'
    obtain ⟨t', copies, hcomplete, hsucceeded, hqueues⟩ :=
      complete_of_known (p := { tables := t }) hdeclared hpipeline hrun'
    rw [hrunId, hstage'] at hsucceeded
    refine ⟨t', copies, deliver_of_acked ?_, .inl ⟨?_, ?_⟩⟩
    · rw [hrest, hending]
      simp only [conclude, hm']
      exact hcomplete
    · intro hdead
      obtain ⟨copy, hcopy, hdlq⟩ := hdead
      exact hqueues copy hcopy hdlq
    · exact not_failed_of_status hsucceeded (by decide)

variable (reprOf) in
theorem deliver_of_not_settles (hm : fromBytes py unicodeError hex raw = .ok m)
    {handler : Messages.StageMessage F → Outcome F}
    (hhandler : registry.getHandler m.stage = some handler)
    (hrun : before.documentOf m.runId = some d) (hsettles : ¬ Settles py m (handler m).ending) :
    ∃ t, deliver pipeline delays reprOf broker py unicodeError hex registry stage raw before =
        ⟨t, [⟨stage.dlq, stage.routingKey, .original raw⟩]⟩ ∧
      (t.rows m.runId).status m.stage = some .running := by
  obtain ⟨t, h, hrest, -, hstatus⟩ := onMessage_of_registered delays reprOf broker hm hhandler hrun
  refine ⟨t, deliver_of_error hdeclared hpipeline hstage ?_, hstatus⟩
  rw [hrest]
  cases hending : (handler m).ending with
  | raises exc => exact absurd ⟨by simp [hending], by simp [hending]⟩ hsettles
  | interrupted => rfl
  | returns metrics =>
    have hnone : adopt py m metrics = none := by
      by_contra hsome
      apply hsettles
      rw [hending]
      refine ⟨nofun, fun metrics' heq => ?_⟩
      obtain rfl := Ending.returns.inj heq
      exact hsome
    simp only [conclude, hnone]
    rfl

omit hpipeline hdeclared in
theorem deadLettered_original (t : Tables) :
    DeadLettered pipeline (⟨t, [⟨stage.dlq, stage.routingKey, .original raw⟩]⟩ : Delivered F) :=
  ⟨_, List.mem_singleton_self _, List.mem_map_of_mem hstage⟩

omit hpipeline hdeclared hstage in
theorem agree_iff_of_ok (hm : fromBytes py unicodeError hex raw = .ok m) {after : Delivered F} :
    Agree pipeline py unicodeError hex registry raw before after ↔
      (DeadLettered pipeline after ↔ Failed after.tables m) ∧
        ∀ copy ∈ after.copies, copy.queue ∈ pipeline.map (·.dlq) →
          CarriesReason pipeline py registry m copy := by
  constructor
  · intro hagree
    exact ⟨hagree.dead_iff m hm, hagree.reason m hm⟩
  · intro ⟨hdead, hreason⟩
    constructor
    · intro m' hm'
      obtain rfl := Except.ok.inj (hm'.symm.trans hm)
      exact hdead
    · intro m' hm'
      obtain rfl := Except.ok.inj (hm'.symm.trans hm)
      exact hreason
    · intro e he
      cases he.symm.trans hm

variable (reprOf) in
theorem agree_iff_of_unregistered (hm : fromBytes py unicodeError hex raw = .ok m)
    (hnone : registry.getHandler m.stage = none) :
    Agree pipeline py unicodeError hex registry raw before
        (deliver pipeline delays reprOf broker py unicodeError hex registry stage raw before) ↔
      m.stage ∈ pipeline.map (·.name) ∧ Failed before m := by
  rw [agree_iff_of_ok hm]
  obtain ⟨hmem, dlq, hdlq, key, delivery, hdeliver, hheaders⟩ | ⟨hmem, hdeliver⟩ :=
    deliver_of_unregistered reprOf before hdeclared hpipeline hstage hm hnone
  · rw [hdeliver]
    have hdead : DeadLettered pipeline (⟨before, [⟨dlq, key, .sent delivery⟩]⟩ : Delivered F) :=
      ⟨_, List.mem_singleton_self _, hdlq⟩
    constructor
    · intro h
      exact ⟨hmem, h.1.mp hdead⟩
    · intro h
      refine ⟨⟨fun _ => h.2, fun _ => hdead⟩, fun copy hcopy _ => ?_⟩
      obtain rfl := List.mem_singleton.mp hcopy
      exact ⟨delivery, _, rfl, .unregistered hnone, hheaders⟩
  · rw [hdeliver]
    constructor
    · intro h
      obtain ⟨delivery, text, hbody, -⟩ :=
        h.2 _ (List.mem_singleton_self _) (List.mem_map_of_mem hstage)
      cases hbody
    · intro h
      exact absurd h.1 hmem

variable (reprOf) in
theorem agree_iff_of_registered (hdelays : delays ≠ [])
    (hm : fromBytes py unicodeError hex raw = .ok m)
    {handler : Messages.StageMessage F → Outcome F}
    (hhandler : registry.getHandler m.stage = some handler)
    (hrun : before.documentOf m.runId = some d) :
    Agree pipeline py unicodeError hex registry raw before
        (deliver pipeline delays reprOf broker py unicodeError hex registry stage raw before) ↔
      Settles py m (handler m).ending := by
  rw [agree_iff_of_ok hm]
  constructor
  · intro h
    by_contra hsettles
    obtain ⟨t, hdeliver, hstatus⟩ := deliver_of_not_settles reprOf hdeclared hpipeline hstage hm
      hhandler hrun hsettles
    rw [hdeliver] at h
    have hfailed := h.1.mp (deadLettered_original hstage t)
    exact not_failed_of_status hstatus (by decide) hfailed
  · intro hsettles
    obtain ⟨t, copies, hdeliver, ⟨hdead, hfailed⟩ | ⟨hfailed, copy, rfl, hqueue, hreason⟩⟩ :=
      deliver_of_settles reprOf stage before hdeclared hpipeline hdelays hm hhandler hrun
        hsettles
    · rw [hdeliver]
      constructor
      · exact ⟨fun h => absurd h hdead, fun h => absurd h hfailed⟩
      · intro copy hcopy hdlq
        exact absurd ⟨copy, hcopy, hdlq⟩ hdead
    · rw [hdeliver]
      constructor
      · exact ⟨fun _ => hfailed, fun _ => ⟨copy, List.mem_singleton_self _, hqueue⟩⟩
      · intro copy' hcopy _
        obtain rfl := List.mem_singleton.mp hcopy
        exact hreason

/-- Queues and tables agree after a delivery exactly if its handler ends well, or nobody handles it
    and its stage is one of the pipeline that has failed before. -/
theorem deliveries_agree_iff (hdelays : delays ≠ [])
    (hstore : StoreAccepts pipeline py unicodeError hex registry raw before) :
    Agree pipeline py unicodeError hex registry raw before
        (deliver pipeline delays reprOf broker py unicodeError hex registry stage raw before) ↔
      Accounted pipeline py unicodeError hex registry raw before := by
  cases hread : fromBytes py unicodeError hex raw with
  | error e =>
    rw [deliver_of_undecodable hdeclared hpipeline hstage hread]
    constructor
    · intro _ m hm
      cases hm.symm.trans hread
    · intro _
      constructor
      · intro m hm
        cases hm.symm.trans hread
      · intro m hm
        cases hm.symm.trans hread
      · intro e' _
        exact ⟨deadLettered_original hstage before, rfl⟩
  | ok m =>
    have haccounted : Accounted pipeline py unicodeError hex registry raw before ↔
        (∀ handler, registry.getHandler m.stage = some handler → Settles py m (handler m).ending) ∧
        (registry.getHandler m.stage = none →
          m.stage ∈ pipeline.map (·.name) ∧ Failed before m) := by
      constructor
      · intro h
        exact h m hread
      · intro h m' hm'
        obtain rfl := Except.ok.inj (hm'.symm.trans hread)
        exact h
    rw [haccounted]
    cases hhandler : registry.getHandler m.stage with
    | none =>
      rw [agree_iff_of_unregistered reprOf hdeclared hpipeline hstage hread hhandler]
      exact ⟨fun h => ⟨nofun, fun _ => h⟩, fun h => h.2 rfl⟩
    | some handler =>
      obtain ⟨d, hrun⟩ := Option.isSome_iff_exists.mp (hstore m hread (by simp [hhandler]))
      rw [agree_iff_of_registered reprOf hdeclared hpipeline hstage hdelays hread hhandler hrun]
      constructor
      · intro h
        refine ⟨fun handler' heq => ?_, nofun⟩
        obtain rfl := Option.some.inj heq
        exact h
      · intro h
        exact h.1 handler rfl

end
end

end
end

def everyHandler (ending : Ending Empty) : Registry Empty PIPELINE where
  getHandler name := if name ∈ PIPELINE.map (·.name) then some fun _ => { ending := ending } else none
  known name h := by
    by_contra hmem
    rw [if_neg hmem] at h
    cases h

theorem everyHandler_of_mem (ending : Ending Empty) {name : String}
    (h : name ∈ PIPELINE.map (·.name)) :
    (everyHandler ending).getHandler name = some fun _ => { ending := ending } := if_pos h

def firstRun : Tables where
  rows _ := ∅
  documentOf run := if run = "r1" then some "d1" else none
  documents d := if d = "d1" then some .processing else none
  rows_empty _ _ := rfl
  documents_isSome run d h := by
    simp only [Option.ite_none_right_eq_some, Option.some.injEq] at h
    rw [← h.2]
    rfl

/-- `parse` runs out of time. -/
theorem timeout_agrees :
    ∃ broker, declare {} (buildTopology PIPELINE RETRY_DELAYS_MS) = some broker ∧
      Agree PIPELINE firstParsePlatform (fun _ => "") "" (everyHandler (.raises ⟨"TimeoutError", "", false⟩))
        (firstParse.toBytes firstParsePlatform) firstRun
        (deliver PIPELINE RETRY_DELAYS_MS (·.typeName) broker firstParsePlatform (fun _ => "") ""
          (everyHandler (.raises ⟨"TimeoutError", "", false⟩)) Retries.parseStage
          (firstParse.toBytes firstParsePlatform) firstRun) := by
  have hread : fromBytes firstParsePlatform (fun _ => "") "" (firstParse.toBytes firstParsePlatform) =
      .ok firstParse :=
    fromBytes_toBytes firstParse_strLaws (by decide) (by decide) loads_firstParse
  obtain ⟨broker, hbroker, hdeclared⟩ :=
    declare_buildTopology pipeline_wellNamed Retries.retry_delays_backoff.nodup
  refine ⟨broker, hbroker, ?_⟩
  apply (deliveries_agree_iff hdeclared pipeline_wellNamed (by decide) (by decide) ?_).mpr
  · intro m hm
    obtain rfl := Except.ok.inj (hm.symm.trans hread)
    constructor
    · intro handler hhandler
      rw [everyHandler_of_mem _ (by decide)] at hhandler
      obtain rfl := Option.some.inj hhandler
      exact ⟨nofun, nofun⟩
    · intro hnone
      exact absurd hnone (by decide)
  · intro m hm _
    obtain rfl := Except.ok.inj (hm.symm.trans hread)
    rfl

def strayParse : Messages.StageMessage Empty := { firstParse with stage := "prase" }

@[irreducible] def strayText : List Char :=
  ("\x7b\"attempt\":1,\"document_id\":\"d1\",\"family\":\"pdf\",\"meta\":\x7b\x7d," ++
    "\"pipeline_version\":\"v1\",\"run_id\":\"r1\",\"stage\":\"prase\"," ++
    "\"tenant_id\":\"default\",\"trace_id\":\"t1\"\x7d").toList

def strayPlatform : Platform Empty :=
  { firstParsePlatform with
    loads := fun text =>
      if text = strayText then .ok strayParse.fields.json
      else .error (.decodeError "Expecting value: line 1 column 1 (char 0)")
    dumps := fun _ => strayText }

theorem fromBytes_strayParse :
    fromBytes strayPlatform (fun _ => "") "" (strayParse.toBytes strayPlatform) = .ok strayParse := by
  have hlaws : StrLaws strayPlatform :=
    ⟨firstParse_strLaws.str_str, firstParse_strLaws.str_truthy⟩
  exact fromBytes_toBytes hlaws (by decide) (by decide) (if_pos rfl)

/-- The misspelt stage has no routing key: the message is rejected, with no reason and no row. -/
theorem stray_message_disagrees :
    ∃ broker, declare {} (buildTopology PIPELINE RETRY_DELAYS_MS) = some broker ∧
      ¬ Agree PIPELINE strayPlatform (fun _ => "") "" (everyHandler (.returns none))
        (strayParse.toBytes strayPlatform) firstRun
        (deliver PIPELINE RETRY_DELAYS_MS (·.typeName) broker strayPlatform (fun _ => "") ""
          (everyHandler (.returns none)) Retries.parseStage (strayParse.toBytes strayPlatform)
          firstRun) := by
  obtain ⟨broker, hbroker, hdeclared⟩ :=
    declare_buildTopology pipeline_wellNamed Retries.retry_delays_backoff.nodup
  refine ⟨broker, hbroker, ?_⟩
  rw [agree_iff_of_unregistered _ hdeclared pipeline_wellNamed (by decide) fromBytes_strayParse
    (by decide)]
  intro h
  exact absurd h.1 (by decide)

end Ragent.DeadLetters
