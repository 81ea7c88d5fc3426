import Mathlib.Data.List.Dedup
import Ragent.Keyed

set_option autoImplicit false

/-!
# Brokers

The part of the AMQP model that moves messages by name: exchanges, queues and bindings, what a
publisher's message is copied to, and where a queue sends the messages it gives up.
-/
namespace Ragent.Amqp
open Keyed

inductive ExchangeType
  | direct
  | fanout
  | topic
  deriving DecidableEq

structure Exchange where
  name : String
  type : ExchangeType
  durable : Bool
  deriving DecidableEq

/-- `x-message-ttl` and `x-dead-letter-exchange`. Without an `x-dead-letter-routing-key` a message
    keeps its own key. -/
structure Arguments where
  messageTtl : Option ℕ := none
  deadLetterExchange : Option String := none
  deriving DecidableEq

structure Queue where
  name : String
  durable : Bool
  arguments : Arguments
  deriving DecidableEq

structure Binding where
  queue : String
  exchange : String
  key : String
  deriving DecidableEq

def words (key : String) : List (List Char) :=
  if key = "" then [] else key.toList.splitOn '.'

/-- `*` stands for one word and `#` for any number of them. -/
def wordsMatch : List (List Char) → List (List Char) → Bool
  | [], ws => ws.isEmpty
  | p :: ps, ws =>
    if p = ['#'] then ws.tails.any (wordsMatch ps)
    else match ws with
      | [] => false
      | w :: rest => (p = ['*'] ∨ p = w) && wordsMatch ps rest

def topicMatches (pattern key : String) : Bool := wordsMatch (words pattern) (words key)

example : topicMatches "ingest.*" "ingest.parse" = true := by decide
example : topicMatches "ingest.#" "ingest" = true := by decide

theorem wordsMatch_iff_of_literal {ps ws : List (List Char)}
    (h : ∀ p ∈ ps, p ≠ ['*'] ∧ p ≠ ['#']) : wordsMatch ps ws = true ↔ ps = ws := by
  induction ps generalizing ws with
  | nil =>
    rw [wordsMatch, List.isEmpty_iff]
    exact eq_comm
  | cons p ps ih =>
    obtain ⟨hstar, hhash⟩ := h p List.mem_cons_self
    have hrest : ∀ q ∈ ps, q ≠ ['*'] ∧ q ≠ ['#'] := fun q hq => h q (List.mem_cons_of_mem p hq)
    cases ws with
    | nil => simp [wordsMatch, hhash]
    | cons w rest => simp [wordsMatch, hstar, hhash, ih hrest]

theorem mem_of_mem_splitOn {sep c : Char} {w cs : List Char} (hw : w ∈ cs.splitOn sep)
    (hc : c ∈ w) : c ∈ cs := by
  have hflat : c ∈ ((cs.splitOn sep).intersperse [sep]).flatten := by
    apply List.mem_flatten.mpr
    refine ⟨w, ?_, hc⟩
    generalize cs.splitOn sep = ws at hw
    induction ws with
    | nil => cases hw
    | cons v ws ih =>
      cases ws with
      | nil => exact hw
      | cons u ws =>
        rw [List.intersperse_cons_cons]
        obtain rfl | hw := List.mem_cons.mp hw
        · exact List.mem_cons_self
        · exact List.mem_cons_of_mem _ (List.mem_cons_of_mem _ (ih hw))
  rwa [← List.intercalate, List.intercalate_splitOn] at hflat

theorem words_injective : Function.Injective words := by
  intro a b h
  unfold words at h
  split_ifs at h with ha hb hb
  · rw [ha, hb]
  · exact absurd h.symm (List.splitOn_ne_nil _ _)
  · exact absurd h (List.splitOn_ne_nil _ _)
  · have hchars := congrArg (List.intercalate ['.']) h
    rw [List.intercalate_splitOn, List.intercalate_splitOn] at hchars
    exact String.toList_inj.mp hchars

theorem topicMatches_iff_of_literal {pattern key : String} (hstar : '*' ∉ pattern.toList)
    (hhash : '#' ∉ pattern.toList) : topicMatches pattern key = true ↔ pattern = key := by
  have hliteral : ∀ p ∈ words pattern, p ≠ ['*'] ∧ p ≠ ['#'] := by
    intro p hp
    unfold words at hp
    by_cases hempty : pattern = ""
    · rw [if_pos hempty] at hp
      cases hp
    · rw [if_neg hempty] at hp
      constructor
      · intro hp'
        apply hstar
        apply mem_of_mem_splitOn hp
        rw [hp']
        exact List.mem_singleton_self _
      · intro hp'
        apply hhash
        apply mem_of_mem_splitOn hp
        rw [hp']
        exact List.mem_singleton_self _
  rw [topicMatches, wordsMatch_iff_of_literal hliteral]
  exact words_injective.eq_iff

/-- No two exchanges and no two queues share a name, and a binding is between what is there. -/
structure Broker where
  exchanges : List Exchange := []
  queues : List Queue := []
  bindings : List Binding := []
  exchanges_nodup : (exchanges.map (·.name)).Nodup := by exact List.nodup_nil
  queues_nodup : (queues.map (·.name)).Nodup := by exact List.nodup_nil
  bound : ∀ x ∈ bindings, x.exchange ∈ exchanges.map (·.name) ∧ x.queue ∈ queues.map (·.name) := by
    exact fun _ h => absurd h List.not_mem_nil

namespace Broker

/-- What is there already may be declared again as it is. -/
def declareExchange (b : Broker) (e : Exchange) : Option Broker :=
  if h : e.name ∈ b.exchanges.map (·.name) then if e ∈ b.exchanges then some b else none
  else some { b with
    exchanges := b.exchanges ++ [e]
    exchanges_nodup := nodup_concat b.exchanges_nodup h
    bound := fun x hx => (b.bound x hx).imp_left fun hmem => keys_subset_concat _ _ _ hmem }

def declareQueue (b : Broker) (q : Queue) : Option Broker :=
  if h : q.name ∈ b.queues.map (·.name) then if q ∈ b.queues then some b else none
  else some { b with
    queues := b.queues ++ [q]
    queues_nodup := nodup_concat b.queues_nodup h
    bound := fun x hx => (b.bound x hx).imp_right fun hmem => keys_subset_concat _ _ _ hmem }

def bind (b : Broker) (x : Binding) : Option Broker :=
  if h : x.exchange ∈ b.exchanges.map (·.name) ∧ x.queue ∈ b.queues.map (·.name) then
    if x ∈ b.bindings then some b
    else some { b with
      bindings := b.bindings ++ [x]
      bound := fun y hy => (List.mem_append.mp hy).elim (b.bound y) fun hy =>
        List.mem_singleton.mp hy ▸ h }
  else none

variable {b : Broker}

theorem declareExchange_new {e : Exchange} (h : e.name ∉ b.exchanges.map (·.name)) :
    ∃ b', b.declareExchange e = some b' ∧ b'.exchanges = b.exchanges ++ [e] ∧
      b'.queues = b.queues ∧ b'.bindings = b.bindings := by
  unfold declareExchange
  rw [dif_neg h]
  exact ⟨_, rfl, rfl, rfl, rfl⟩

theorem declareQueue_new {q : Queue} (h : q.name ∉ b.queues.map (·.name)) :
    ∃ b', b.declareQueue q = some b' ∧ b'.exchanges = b.exchanges ∧
      b'.queues = b.queues ++ [q] ∧ b'.bindings = b.bindings := by
  unfold declareQueue
  rw [dif_neg h]
  exact ⟨_, rfl, rfl, rfl, rfl⟩

theorem bind_new {x : Binding} (hexchange : x.exchange ∈ b.exchanges.map (·.name))
    (hqueue : x.queue ∈ b.queues.map (·.name)) (h : x ∉ b.bindings) :
    ∃ b', b.bind x = some b' ∧ b'.exchanges = b.exchanges ∧ b'.queues = b.queues ∧
      b'.bindings = b.bindings ++ [x] := by
  unfold bind
  rw [dif_pos ⟨hexchange, hqueue⟩, if_neg h]
  exact ⟨_, rfl, rfl, rfl, rfl⟩

theorem declareExchanges {es : List Exchange} (h : ((b.exchanges ++ es).map (·.name)).Nodup) :
    ∃ b', es.foldlM declareExchange b = some b' ∧ b'.exchanges = b.exchanges ++ es ∧
      b'.queues = b.queues ∧ b'.bindings = b.bindings := by
  induction es generalizing b with
  | nil => exact ⟨b, rfl, (List.append_nil _).symm, rfl, rfl⟩
  | cons e es ih =>
    obtain ⟨b₁, hb₁, hexchanges₁, hqueues₁, hbindings₁⟩ := declareExchange_new (key_not_mem h)
    have hsplit : b₁.exchanges ++ es = b.exchanges ++ e :: es := by
      rw [hexchanges₁, List.append_assoc]
      rfl
    rw [← hsplit] at h
    obtain ⟨b₂, hb₂, hexchanges₂, hqueues₂, hbindings₂⟩ := ih h
    refine ⟨b₂, ?_, hexchanges₂.trans hsplit, hqueues₂.trans hqueues₁, hbindings₂.trans hbindings₁⟩
    rw [List.foldlM_cons, hb₁]
    exact hb₂

theorem declareQueues {items : List (Queue × Binding)}
    (hnodup : ((b.queues ++ items.map (·.1)).map (·.name)).Nodup)
    (hqueue : ∀ item ∈ items, item.2.queue = item.1.name)
    (hexchange : ∀ item ∈ items, item.2.exchange ∈ b.exchanges.map (·.name)) :
    ∃ b', items.foldlM (fun b item => (b.declareQueue item.1).bind (·.bind item.2)) b = some b' ∧
      b'.exchanges = b.exchanges ∧ b'.queues = b.queues ++ items.map (·.1) ∧
      b'.bindings = b.bindings ++ items.map (·.2) := by
  induction items generalizing b with
  | nil => exact ⟨b, rfl, rfl, (List.append_nil _).symm, (List.append_nil _).symm⟩
  | cons item items ih =>
    have hnew : item.1.name ∉ b.queues.map (·.name) := key_not_mem hnodup
    have hname := hqueue item List.mem_cons_self
    obtain ⟨b₁, hb₁, hexchanges₁, hqueues₁, hbindings₁⟩ := declareQueue_new hnew
    have hfresh : item.2 ∉ b₁.bindings := by
      intro hmem
      rw [hbindings₁] at hmem
      exact hnew (hname ▸ (b.bound _ hmem).2)
    have hthere : item.2.exchange ∈ b₁.exchanges.map (·.name) := by
      rw [hexchanges₁]
      exact hexchange item List.mem_cons_self
    have hdeclared : item.2.queue ∈ b₁.queues.map (·.name) := by
      rw [hqueues₁, hname]
      exact List.mem_map_of_mem (List.mem_append_right _ (List.mem_singleton_self _))
    obtain ⟨b₂, hb₂, hexchanges₂, hqueues₂, hbindings₂⟩ := bind_new hthere hdeclared hfresh
    have hqueues : b₂.queues ++ items.map (·.1) = b.queues ++ (item :: items).map (·.1) := by
      rw [hqueues₂, hqueues₁, List.append_assoc]
      rfl
    have hexchanges : b₂.exchanges = b.exchanges := hexchanges₂.trans hexchanges₁
    obtain ⟨b₃, hb₃, hexchanges₃, hqueues₃, hbindings₃⟩ := ih (hqueues ▸ hnodup)
      (fun i hi => hqueue i (List.mem_cons_of_mem _ hi))
      (fun i hi => hexchanges ▸ hexchange i (List.mem_cons_of_mem _ hi))
    refine ⟨b₃, ?_, hexchanges₃.trans hexchanges, hqueues₃.trans hqueues, ?_⟩
    · rw [List.foldlM_cons, hb₁]
      exact (congrArg (· >>= _) hb₂).trans hb₃
    · rw [hbindings₃, hbindings₂, hbindings₁, List.append_assoc]
      rfl

end Broker

def Binding.accepts (x : Binding) (type : ExchangeType) (key : String) : Bool :=
  match type with
  | .direct => x.key = key
  | .fanout => true
  | .topic => topicMatches x.key key

structure Stored (M : Type) where
  queue : String
  key : String
  body : M

namespace Broker
variable {M : Type}

/-- The queues that a message is copied to; there is no publishing to an exchange that is not
    there. -/
def route (b : Broker) (exchange key : String) : Option (List String) :=
  (b.exchanges.find? (·.name = exchange)).map fun e =>
    ((b.bindings.filter fun x => x.exchange = exchange ∧ x.accepts e.type key).map (·.queue)).dedup

def publish (b : Broker) (exchange key : String) (body : M) : Option (List (Stored M)) :=
  (b.route exchange key).map fun queues => queues.map fun queue => ⟨queue, key, body⟩

def argumentsOf (b : Broker) (queue : String) : Arguments :=
  ((b.queues.find? (·.name = queue)).map (·.arguments)).getD {}

/-- Where a message goes that is rejected or expires. -/
def deadLetter (b : Broker) (m : Stored M) : List (Stored M) :=
  match (b.argumentsOf m.queue).deadLetterExchange with
  | none => []
  | some exchange => (b.publish exchange m.key m.body).getD []

variable {b : Broker}

theorem argumentsOf_of_mem {q : Queue} (h : q ∈ b.queues) : b.argumentsOf q.name = q.arguments := by
  rw [argumentsOf, find_key b.queues_nodup h]
  rfl

theorem publish_of_only {e : Exchange} (he : e ∈ b.exchanges) {x : Binding} (hx : x ∈ b.bindings)
    {key : String} (hexchange : x.exchange = e.name) (haccepts : x.accepts e.type key = true)
    (honly : ∀ y ∈ b.bindings, y.exchange = e.name → y.accepts e.type key = true →
      y.queue = x.queue) (body : M) :
    b.publish e.name key body = some [⟨x.queue, key, body⟩] := by
  have hroute : b.route e.name key = some [x.queue] := by
    rw [route, find_key b.exchanges_nodup he, Option.map_some]
    congr 1
    apply List.perm_singleton.mp
    apply (List.perm_ext_iff_of_nodup (List.nodup_dedup _) (List.nodup_singleton _)).mpr
    intro queue
    simp only [List.mem_dedup, List.mem_map, List.mem_filter, decide_eq_true_eq, List.mem_singleton]
    constructor
    · intro h
      obtain ⟨y, ⟨hy, hexchange', haccepts'⟩, rfl⟩ := h
      exact honly y hy hexchange' haccepts'
    · intro h
      exact ⟨x, ⟨hx, hexchange, haccepts⟩, h.symm⟩
  rw [publish, hroute]
  rfl

end Broker
end Ragent.Amqp
