import Ragent.Amqp
import Ragent.Runner

set_option autoImplicit false

/-!
# The topology of the broker

`ragent/pipeline/topology.py`, and what a broker on which it is declared does with a message.
-/
namespace Ragent.BrokerTopology
open Amqp Keyed Runner Stages

def INGEST_EXCHANGE : String := "ragent.ingest"

def DLX_EXCHANGE : String := "ragent.dlx"

structure ExchangeSpec where
  name : String
  type : ExchangeType := .topic
  durable : Bool := true
  deriving DecidableEq

structure QueueSpec where
  name : String
  exchange : String
  routingKey : String
  durable : Bool := true
  prefetch : ℕ := 4
  arguments : Arguments := {}
  /-- Retry and dead-letter queues are storage, not work. -/
  consumed : Bool := true
  deriving DecidableEq

structure Topology where
  exchanges : List ExchangeSpec
  queues : List QueueSpec
  deriving DecidableEq

def workQueue (stage : Stage) : QueueSpec where
  name := stage.queue
  exchange := INGEST_EXCHANGE
  routingKey := stage.routingKey
  prefetch := stage.prefetch
  arguments := { deadLetterExchange := some DLX_EXCHANGE }

def deadLetterQueue (stage : Stage) : QueueSpec where
  name := stage.dlq
  exchange := DLX_EXCHANGE
  routingKey := stage.routingKey
  consumed := false

def retryExchange (delayMs : ℕ) : ExchangeSpec where
  name := retryExchangeName delayMs
  type := .fanout

def retryQueue (delayMs : ℕ) : QueueSpec where
  name := retryExchangeName delayMs
  exchange := retryExchangeName delayMs
  routingKey := ""
  consumed := false
  arguments := { messageTtl := some delayMs, deadLetterExchange := some INGEST_EXCHANGE }

def buildTopology (pipeline : List Stage) (retryDelays : List ℕ) : Topology where
  exchanges := [{ name := INGEST_EXCHANGE }, { name := DLX_EXCHANGE }] ++
    retryDelays.map retryExchange
  queues := pipeline.flatMap (fun stage => [workQueue stage, deadLetterQueue stage]) ++
    retryDelays.map retryQueue

namespace ExchangeSpec

def exchange (spec : ExchangeSpec) : Exchange := ⟨spec.name, spec.type, spec.durable⟩

end ExchangeSpec

namespace QueueSpec

def queue (spec : QueueSpec) : Queue := ⟨spec.name, spec.durable, spec.arguments⟩

def binding (spec : QueueSpec) : Binding := ⟨spec.name, spec.exchange, spec.routingKey⟩

end QueueSpec

/-- An exchange or a queue that is there with other properties, and an exchange that is not there,
    raise. -/
def declare (broker : Broker) (topology : Topology) : Option Broker :=
  ((topology.exchanges.map (·.exchange)).foldlM Broker.declareExchange broker).bind fun broker =>
    (topology.queues.map fun spec => (spec.queue, spec.binding)).foldlM
      (fun broker item => (broker.declareQueue item.1).bind (·.bind item.2)) broker

def units : List (String × ℕ) := [("h", 3600000), ("m", 60000), ("s", 1000), ("ms", 1)]

theorem tierLabel_eq (delayMs : ℕ) :
    ∃ n, ∃ u ∈ units, tierLabel delayMs = n.repr ++ u.1 ∧ delayMs = n * u.2 := by
  have hexact : ∀ {k : ℕ}, delayMs % k = 0 → delayMs = delayMs / k * k :=
    fun h => (Nat.div_mul_cancel (Nat.dvd_of_mod_eq_zero h)).symm
  unfold tierLabel
  split_ifs with hhours hminutes hseconds
  · exact ⟨_, ("h", 3600000), by decide, rfl, hexact hhours⟩
  · exact ⟨_, ("m", 60000), by decide, rfl, hexact hminutes⟩
  · exact ⟨_, ("s", 1000), by decide, rfl, hexact hseconds⟩
  · exact ⟨_, ("ms", 1), by decide, rfl, (Nat.mul_one delayMs).symm⟩

theorem digits_of_repr_append (n : ℕ) {u : String × ℕ} (hu : u ∈ units) :
    (n.repr ++ u.1).toList.takeWhile Char.isDigit = n.repr.toList := by
  have hdigits : ∀ c ∈ n.repr.toList, c.isDigit = true := by
    intro c hc
    rw [Nat.toList_repr] at hc
    exact Nat.isDigit_of_mem_toDigits (by omega) (by omega) hc
  have hunit : ∀ v ∈ units, v.1.toList.takeWhile Char.isDigit = [] := by decide
  rw [String.toList_append, List.takeWhile_append_of_pos hdigits, hunit u hu, List.append_nil]

theorem unit_ext : ∀ u ∈ units, ∀ v ∈ units, u.1 = v.1 → u = v := by decide

theorem tierLabel_injective : Function.Injective tierLabel := by
  intro a b h
  obtain ⟨n, u, hu, hn, rfl⟩ := tierLabel_eq a
  obtain ⟨k, v, hv, hk, rfl⟩ := tierLabel_eq b
  rw [hn, hk] at h
  have hcount : n.repr = k.repr := by
    apply String.toList_inj.mp
    rw [← digits_of_repr_append n hu, h, digits_of_repr_append k hv]
  rw [hcount] at h
  rw [repr_injective hcount, unit_ext u hu v hv ((String.append_right_inj _).mp h)]

theorem retryExchangeName_injective : Function.Injective retryExchangeName := by
  intro a b h
  exact tierLabel_injective ((String.append_right_inj _).mp h)

theorem retryExchangeName_getLast (delayMs : ℕ) :
    (retryExchangeName delayMs).toList.getLast? ≠ some 'q' := by
  obtain ⟨n, u, hu, hlabel, -⟩ := tierLabel_eq delayMs
  have hlast : ∀ v ∈ units, v.1.toList ≠ [] ∧ v.1.toList.getLast? ≠ some 'q' := by decide
  rw [retryExchangeName, hlabel, ← String.append_assoc, String.toList_append,
    List.getLast?_append_of_ne_nil _ (hlast u hu).1]
  exact (hlast u hu).2

theorem ingest_ne_dlx : INGEST_EXCHANGE ≠ DLX_EXCHANGE := by decide

theorem retryExchangeName_ne (delayMs : ℕ) :
    retryExchangeName delayMs ≠ INGEST_EXCHANGE ∧ retryExchangeName delayMs ≠ DLX_EXCHANGE := by
  have hstart : (retryExchangeName delayMs).toList.take 8 = "ragent.r".toList := by
    rw [retryExchangeName, String.toList_append]
    rfl
  constructor
  · intro h
    rw [h] at hstart
    exact absurd hstart (by decide)
  · intro h
    rw [h] at hstart
    exact absurd hstart (by decide)

structure WellNamed (pipeline : List Stage) : Prop where
  nodup : (pipeline.map (·.name)).Nodup
  nonempty : ∀ stage ∈ pipeline, stage.name ≠ ""
  plain : ∀ stage ∈ pipeline,
    '.' ∉ stage.name.toList ∧ '*' ∉ stage.name.toList ∧ '#' ∉ stage.name.toList

theorem pipeline_wellNamed : WellNamed PIPELINE where
  nodup := pipeline_names_nodup
  nonempty := by decide
  plain := by decide

section
variable {pipeline : List Stage} {delays : List ℕ} {stage other : Stage} {delayMs : ℕ}

theorem queue_inj (h : stage.queue = other.queue) : stage.name = other.name :=
  (String.append_right_inj _).mp h

theorem routingKey_inj (h : stage.routingKey = other.routingKey) : stage.name = other.name :=
  (String.append_right_inj _).mp h

theorem dlq_inj (h : stage.dlq = other.dlq) : stage.name = other.name :=
  queue_inj ((String.append_left_inj _).mp h)

theorem queue_ne_of_dot {name : String} (hplain : '.' ∉ stage.name.toList)
    (hname : '.' ∈ name.toList) : stage.queue ≠ "ragent." ++ name := by
  intro h
  rw [(String.append_right_inj _).mp h] at hplain
  exact hplain hname

theorem queue_ne_dlq (hplain : '.' ∉ stage.name.toList) : stage.queue ≠ other.dlq := by
  have hdot : '.' ∈ (other.name ++ ".dlq").toList := by simp
  have hne := queue_ne_of_dot hplain hdot
  rwa [← String.append_assoc] at hne

theorem queue_ne_retry (hplain : '.' ∉ stage.name.toList) :
    stage.queue ≠ retryExchangeName delayMs := by
  have hdot : '.' ∈ ("retry." ++ tierLabel delayMs).toList := by simp
  have hne := queue_ne_of_dot hplain hdot
  rwa [← String.append_assoc] at hne

theorem dlq_ne_retry : stage.dlq ≠ retryExchangeName delayMs := by
  intro h
  have hlast := retryExchangeName_getLast delayMs
  rw [← h, Stage.dlq, String.toList_append,
    List.getLast?_append_of_ne_nil _ (by decide : ".dlq".toList ≠ [])] at hlast
  exact hlast rfl

theorem exchange_names_nodup (hdelays : delays.Nodup) :
    ((buildTopology pipeline delays).exchanges.map (·.name)).Nodup := by
  have hretry : (delays.map retryExchangeName).Nodup := hdelays.map retryExchangeName_injective
  have hfresh : ∀ x ∈ delays.map retryExchangeName, x ≠ INGEST_EXCHANGE ∧ x ≠ DLX_EXCHANGE := by
    intro x hx
    obtain ⟨delayMs, -, rfl⟩ := List.mem_map.mp hx
    exact retryExchangeName_ne delayMs
  have hnames : (buildTopology pipeline delays).exchanges.map (·.name) =
      INGEST_EXCHANGE :: DLX_EXCHANGE :: delays.map retryExchangeName := by
    simp [buildTopology, retryExchange, Function.comp_def]
  rw [hnames, List.nodup_cons, List.nodup_cons]
  refine ⟨?_, fun hmem => (hfresh _ hmem).2 rfl, hretry⟩
  intro hmem
  obtain heq | hmem := List.mem_cons.mp hmem
  · exact absurd heq ingest_ne_dlx
  · exact (hfresh _ hmem).1 rfl

theorem mem_queues {spec : QueueSpec} : spec ∈ (buildTopology pipeline delays).queues ↔
    (∃ stage ∈ pipeline, spec = workQueue stage ∨ spec = deadLetterQueue stage) ∨
      ∃ delayMs ∈ delays, spec = retryQueue delayMs := by
  simp only [buildTopology, List.mem_append, List.mem_flatMap, List.mem_cons, List.not_mem_nil,
    or_false, List.mem_map, eq_comm]

theorem queue_names_nodup (hpipeline : WellNamed pipeline) (hdelays : delays.Nodup) :
    ((buildTopology pipeline delays).queues.map (·.name)).Nodup := by
  have hnames : (buildTopology pipeline delays).queues.map (·.name) =
      pipeline.flatMap (fun stage => [stage.queue, stage.dlq]) ++ delays.map retryExchangeName := by
    simp [buildTopology, retryQueue, workQueue, deadLetterQueue, Function.comp_def,
      List.map_flatMap]
  have hdot : ∀ stage ∈ pipeline, '.' ∉ stage.name.toList :=
    fun stage hstage => (hpipeline.plain stage hstage).1
  rw [hnames, List.nodup_append']
  refine ⟨?_, hdelays.map retryExchangeName_injective, ?_⟩
  · rw [List.nodup_flatMap]
    constructor
    · intro stage hstage
      simpa using queue_ne_dlq (hdot stage hstage)
    · apply (List.pairwise_map.mp hpipeline.nodup).imp_of_mem
      intro stage other hstage hother hne name hname hname'
      simp only [List.mem_cons, List.not_mem_nil, or_false] at hname hname'
      obtain rfl | rfl := hname
      · obtain h | h := hname'
        · exact hne (queue_inj h)
        · exact queue_ne_dlq (hdot stage hstage) h
      · obtain h | h := hname'
        · exact queue_ne_dlq (hdot other hother) h.symm
        · exact hne (dlq_inj h)
  · intro name hname hretry
    obtain ⟨stage, hstage, hname⟩ := List.mem_flatMap.mp hname
    obtain ⟨delayMs, -, rfl⟩ := List.mem_map.mp hretry
    simp only [List.mem_cons, List.not_mem_nil, or_false] at hname
    obtain h | h := hname
    · exact queue_ne_retry (hdot stage hstage) h.symm
    · exact dlq_ne_retry h.symm

structure Declared (topology : Topology) (b : Broker) : Prop where
  exchanges : b.exchanges = topology.exchanges.map (·.exchange)
  queues : b.queues = topology.queues.map (·.queue)
  bindings : b.bindings = topology.queues.map (·.binding)

theorem declare_buildTopology (hpipeline : WellNamed pipeline) (hdelays : delays.Nodup) :
    ∃ b, declare {} (buildTopology pipeline delays) = some b ∧
      Declared (buildTopology pipeline delays) b := by
  have hexchanges : ((({} : Broker).exchanges ++
      (buildTopology pipeline delays).exchanges.map (·.exchange)).map (·.name)).Nodup := by
    have hnames : ((buildTopology pipeline delays).exchanges.map (·.name)).Nodup :=
      exchange_names_nodup hdelays
    simpa [ExchangeSpec.exchange, Function.comp_def] using hnames
  obtain ⟨b₁, hb₁, hexchanges₁, hqueues₁, hbindings₁⟩ := Broker.declareExchanges hexchanges
  have hqueues : ((b₁.queues ++ ((buildTopology pipeline delays).queues.map fun spec =>
      (spec.queue, spec.binding)).map (·.1)).map (·.name)).Nodup := by
    rw [hqueues₁]
    simpa [QueueSpec.queue, Function.comp_def] using queue_names_nodup hpipeline hdelays
  have hthere : ∀ item ∈ (buildTopology pipeline delays).queues.map fun spec =>
      (spec.queue, spec.binding), item.2.exchange ∈ b₁.exchanges.map (·.name) := by
    intro item hitem
    obtain ⟨spec, hspec, rfl⟩ := List.mem_map.mp hitem
    rw [hexchanges₁]
    obtain ⟨stage, -, rfl | rfl⟩ | ⟨delayMs, hdelay, rfl⟩ := mem_queues.mp hspec
    · simp [buildTopology, QueueSpec.binding, workQueue, ExchangeSpec.exchange]
    · simp [buildTopology, QueueSpec.binding, deadLetterQueue, ExchangeSpec.exchange]
    · simp only [buildTopology, QueueSpec.binding, retryQueue, List.map_append, List.mem_append]
      exact .inr (.inr (List.mem_map.mpr ⟨_, List.mem_map_of_mem (List.mem_map_of_mem hdelay), rfl⟩))
  have hown : ∀ item ∈ (buildTopology pipeline delays).queues.map fun spec =>
      (spec.queue, spec.binding), item.2.queue = item.1.name := by
    intro item hitem
    obtain ⟨spec, -, rfl⟩ := List.mem_map.mp hitem
    rfl
  obtain ⟨b₂, hb₂, hexchanges₂, hqueues₂, hbindings₂⟩ :=
    Broker.declareQueues hqueues hown hthere
  refine ⟨b₂, ?_, ?_⟩
  · rw [declare, hb₁]
    exact hb₂
  constructor
  · rw [hexchanges₂, hexchanges₁]
    rfl
  · rw [hqueues₂, hqueues₁, List.map_map]
    rfl
  · rw [hbindings₂, hbindings₁, List.map_map]
    rfl

theorem notMem_routingKey {c : Char} (hstart : c ∉ "ingest.".toList)
    (hname : c ∉ stage.name.toList) : c ∉ stage.routingKey.toList := by
  intro hmem
  rw [Stage.routingKey, String.toList_append] at hmem
  exact (List.mem_append.mp hmem).elim hstart hname

theorem accepts_routingKey (hpipeline : WellNamed pipeline) (hother : other ∈ pipeline)
    {queue exchange : String} :
    (⟨queue, exchange, other.routingKey⟩ : Binding).accepts .topic stage.routingKey = true ↔
      other.name = stage.name := by
  obtain ⟨-, hstar, hhash⟩ := hpipeline.plain other hother
  rw [Binding.accepts, topicMatches_iff_of_literal (notMem_routingKey (by decide) hstar)
    (notMem_routingKey (by decide) hhash)]
  constructor
  · exact routingKey_inj
  · intro h
    rw [Stage.routingKey, h, Stage.routingKey]

namespace Declared
variable {b : Broker} {M : Type}

theorem publish_of_only {topology : Topology} (h : Declared topology b) {e : ExchangeSpec}
    (he : e ∈ topology.exchanges) {spec : QueueSpec} (hspec : spec ∈ topology.queues) {key : String}
    (hexchange : spec.exchange = e.name) (haccepts : spec.binding.accepts e.type key = true)
    (honly : ∀ other ∈ topology.queues, other.exchange = e.name →
      other.binding.accepts e.type key = true → other.name = spec.name) (body : M) :
    b.publish e.name key body = some [⟨spec.name, key, body⟩] := by
  have he' : e.exchange ∈ b.exchanges := by
    rw [h.exchanges]
    exact List.mem_map_of_mem he
  have hspec' : spec.binding ∈ b.bindings := by
    rw [h.bindings]
    exact List.mem_map_of_mem hspec
  apply Broker.publish_of_only he' hspec' hexchange haccepts
  intro x hx hexchange' haccepts'
  rw [h.bindings] at hx
  obtain ⟨other, hother, rfl⟩ := List.mem_map.mp hx
  exact honly other hother hexchange' haccepts'

theorem argumentsOf {topology : Topology} (h : Declared topology b) {spec : QueueSpec}
    (hspec : spec ∈ topology.queues) : b.argumentsOf spec.name = spec.arguments := by
  have hqueue : spec.queue ∈ b.queues := by
    rw [h.queues]
    exact List.mem_map_of_mem hspec
  exact Broker.argumentsOf_of_mem hqueue

variable (h : Declared (buildTopology pipeline delays) b)

include h in
theorem publish_ingest (hpipeline : WellNamed pipeline) (hstage : stage ∈ pipeline) (body : M) :
    b.publish INGEST_EXCHANGE stage.routingKey body =
      some [⟨stage.queue, stage.routingKey, body⟩] := by
  have he : ({ name := INGEST_EXCHANGE } : ExchangeSpec) ∈ (buildTopology pipeline delays).exchanges :=
    List.mem_cons_self
  have hspec : workQueue stage ∈ (buildTopology pipeline delays).queues :=
    mem_queues.mpr (.inl ⟨stage, hstage, .inl rfl⟩)
  apply h.publish_of_only he hspec rfl
  · exact (accepts_routingKey hpipeline hstage).mpr rfl
  · intro spec hspec hexchange haccepts
    obtain ⟨other, hother, rfl | rfl⟩ | ⟨delayMs, -, rfl⟩ := mem_queues.mp hspec
    · have hname := (accepts_routingKey hpipeline hother).mp haccepts
      exact congrArg ("ragent." ++ ·) hname
    · exact absurd hexchange.symm ingest_ne_dlx
    · exact absurd hexchange (retryExchangeName_ne delayMs).1

include h in
theorem publish_dlx (hpipeline : WellNamed pipeline) (hstage : stage ∈ pipeline) (body : M) :
    b.publish DLX_EXCHANGE stage.routingKey body =
      some [⟨stage.dlq, stage.routingKey, body⟩] := by
  have he : ({ name := DLX_EXCHANGE } : ExchangeSpec) ∈ (buildTopology pipeline delays).exchanges :=
    List.mem_cons_of_mem _ List.mem_cons_self
  have hspec : deadLetterQueue stage ∈ (buildTopology pipeline delays).queues :=
    mem_queues.mpr (.inl ⟨stage, hstage, .inr rfl⟩)
  apply h.publish_of_only he hspec rfl
  · exact (accepts_routingKey hpipeline hstage).mpr rfl
  · intro spec hspec hexchange haccepts
    obtain ⟨other, hother, rfl | rfl⟩ | ⟨delayMs, -, rfl⟩ := mem_queues.mp hspec
    · exact absurd hexchange ingest_ne_dlx
    · have hname := (accepts_routingKey hpipeline hother).mp haccepts
      exact congrArg (fun name => "ragent." ++ name ++ ".dlq") hname
    · exact absurd hexchange (retryExchangeName_ne delayMs).2

include h in
theorem publish_retry (hdelay : delayMs ∈ delays) (key : String) (body : M) :
    b.publish (retryExchangeName delayMs) key body =
      some [⟨retryExchangeName delayMs, key, body⟩] := by
  have he : retryExchange delayMs ∈ (buildTopology pipeline delays).exchanges :=
    List.mem_append_right _ (List.mem_map_of_mem hdelay)
  have hspec : retryQueue delayMs ∈ (buildTopology pipeline delays).queues :=
    mem_queues.mpr (.inr ⟨delayMs, hdelay, rfl⟩)
  apply h.publish_of_only he hspec rfl
  · rfl
  · intro spec hspec hexchange _
    obtain ⟨other, -, rfl | rfl⟩ | ⟨other, -, rfl⟩ := mem_queues.mp hspec
    · exact absurd hexchange.symm (retryExchangeName_ne delayMs).1
    · exact absurd hexchange.symm (retryExchangeName_ne delayMs).2
    · exact hexchange

include h in
theorem argumentsOf_retry (hdelay : delayMs ∈ delays) :
    b.argumentsOf (retryExchangeName delayMs) =
      { messageTtl := some delayMs, deadLetterExchange := some INGEST_EXCHANGE } :=
  h.argumentsOf (mem_queues.mpr (.inr ⟨delayMs, hdelay, rfl⟩))

include h in
theorem argumentsOf_work (hstage : stage ∈ pipeline) :
    b.argumentsOf stage.queue = { deadLetterExchange := some DLX_EXCHANGE } :=
  h.argumentsOf (mem_queues.mpr (.inl ⟨stage, hstage, .inl rfl⟩))

include h in
theorem argumentsOf_dlq (hstage : stage ∈ pipeline) : b.argumentsOf stage.dlq = {} :=
  h.argumentsOf (mem_queues.mpr (.inl ⟨stage, hstage, .inr rfl⟩))

include h in
theorem deadLetter_retry (hpipeline : WellNamed pipeline) (hstage : stage ∈ pipeline)
    (hdelay : delayMs ∈ delays) (body : M) :
    b.deadLetter ⟨retryExchangeName delayMs, stage.routingKey, body⟩ =
      [⟨stage.queue, stage.routingKey, body⟩] := by
  simp only [Broker.deadLetter, h.argumentsOf_retry hdelay,
    h.publish_ingest hpipeline hstage, Option.getD_some]

end Declared
end
end Ragent.BrokerTopology
