import Mathlib.Algebra.BigOperators.Group.Finset.Basic
import Mathlib.Algebra.Order.BigOperators.Group.Finset
import Ragent.Attempts

set_option autoImplicit false

/-!
# Ingestion ends

Each attempt at a stage and each message pay for the calls that follow from them, and both are
bounded. So if no worker dies and no call raises the consumers cannot be busy with a document for
ever, and as long as someone consumes every queue they are not stuck either.
-/
namespace Ragent.IngestionEnds
open Formats Stages StageStores Runner GuardedRuns Consumer LayeredDispatch Dispatch DocumentOutcomes
  Attempts

section
variable {W H C : Type} {handlers : Handlers W H C}

/-- A call of the consumer, as opposed to a statement of a handler. -/
def Calls : Act C → Prop
  | .work _ => False
  | .callRaises _ => False
  | _ => True

def cost : Act C → ℕ
  | .work _ => 0
  | _ => 1

def ahead (t : Token H) : ℕ :=
  match t.place with
  | .queued => 3
  | .delayed _ => 4
  | .dead _ => 0
  | .inHand _ phase => match phase with
    | .received => 1
    | .handling _ => 8
    | .completing _ => 3
    | .reserving _ _ => 2
    | .publishing _ _ => 1
    | .acking => 1
    | .failing _ => 7
    | .condemning _ => 3
    | .deadLettering _ => 2
    | .retrying _ => 6

def aheadOf (tokens : List (Token H)) : ℕ := (tokens.map ahead).sum

variable {r : RunState H} {i : ℕ} {t : Token H} {e : Effect W H} {a : Act C} {m : StageMessage}
  {w : WorkerId} {record : Record} {world : W} {phase : Phase H}

theorem ahead_reserve (m : StageMessage) (w : WorkerId) (followers : List StageMessage) :
    ahead (⟨m, .inHand w (reserve followers)⟩ : Token H) ≤ 2 := by
  cases followers with
  | nil => exact Nat.le_succ 1
  | cons follower rest => exact le_refl 2

theorem ahead_publish (m : StageMessage) (w : WorkerId) (followers : List StageMessage) :
    ahead (⟨m, .inHand w (Consumer.publish followers)⟩ : Token H) = 1 := by
  cases followers <;> rfl

theorem ahead_pickUp (m : StageMessage) (w : WorkerId) :
    ahead (⟨m, .inHand w (pickUp m)⟩ : Token H) ≤ 2 := by
  unfold pickUp
  split_ifs
  · exact Nat.le_succ 1
  · exact le_refl 2

theorem aheadOf_replace (ht : r.tokens[i]? = some t) :
    aheadOf (r.replace i e).tokens + ahead t =
      aheadOf r.tokens + aheadOf (e.own.toList ++ e.sent) := by
  obtain ⟨hlt, heq⟩ := List.getElem?_eq_some_iff.mp ht
  have hsplit : r.tokens = r.tokens.take i ++ t :: r.tokens.drop (i + 1) := by
    rw [← heq, List.getElem_cons_drop, List.take_append_drop]
  have hbefore : aheadOf r.tokens = aheadOf (r.tokens.take i) + (ahead t +
      aheadOf (r.tokens.drop (i + 1))) := by
    conv_lhs => rw [hsplit]
    simp [aheadOf]
  have hafter : aheadOf (r.replace i e).tokens = aheadOf (r.tokens.take i) +
      aheadOf (e.own.toList ++ e.sent) + aheadOf (r.tokens.drop (i + 1)) := by
    simp [aheadOf, RunState.replace, Nat.add_assoc]
  omega

/-- What a turn costs is paid by the message, by an attempt that begins or by a message that is
    published. -/
def Paid (t : Token H) (a : Act C) (record : Record) (e : Effect W H) : Prop :=
  cost a + aheadOf (e.own.toList ++ e.sent) + 4 * record.published.length ≤
    ahead t + 8 * (begunBy t a).length + 4 * e.record.published.length

theorem paid_of_call (hcall : callReturns handlers m w record world phase = some e) :
    Paid (⟨m, .inHand w phase⟩ : Token H) (.call : Act C) record e := by
  unfold Paid
  cases phase with
  | received =>
    cases hcall
    simp [cost, aheadOf, ahead, begunBy]
  | handling h => cases hcall
  | completing m' =>
    cases hcall
    have hle := ahead_reserve (H := H) m w
      (nextMessages PIPELINE m' (record.rows.completeStage m.stage).snapshot)
    simp only [cost, aheadOf, Option.toList_some, List.append_nil, List.map_cons, List.map_nil,
      List.sum_cons, List.sum_nil, begunBy, List.length_nil]
    have hown : ahead (⟨m, .inHand w (.completing m')⟩ : Token H) = 3 := rfl
    omega
  | reserving follower rest =>
    cases hcall
    simp [cost, aheadOf, ahead, begunBy]
  | publishing follower rest =>
    cases hcall
    have hpublish := ahead_publish (H := H) m w rest
    have hqueued : ahead (⟨follower, .queued⟩ : Token H) = 3 := rfl
    have hown : ahead (⟨m, .inHand w (.publishing follower rest)⟩ : Token H) = 1 := rfl
    simp only [cost, aheadOf, Option.toList_some, List.singleton_append, List.map_cons,
      List.map_nil, List.sum_cons, List.sum_nil, begunBy, List.length_nil, List.length_append,
      List.length_cons]
    omega
  | failing exc =>
    obtain ⟨_, _, _, -, rfl⟩ | ⟨_, -, rfl⟩ := callReturns_failing hcall
    · simp [cost, aheadOf, ahead, begunBy]
    · simp [cost, aheadOf, ahead, begunBy]
  | acking =>
    cases hcall
    simp [cost, aheadOf, ahead, begunBy]
  | condemning reason =>
    cases hcall
    simp [cost, aheadOf, ahead, begunBy]
  | deadLettering reason =>
    cases hcall
    simp [cost, aheadOf, ahead, begunBy]
  | retrying ms =>
    cases hcall
    simp [cost, aheadOf, ahead, begunBy]

theorem paid_of_turn {live : WorkerId → Option (List String)}
    (h : Turn handlers live record world t a e) (hcalls : ∀ done, a ≠ .callRaises done) :
    Paid t a record e := by
  cases h with
  | @deliver m w =>
    have hle := ahead_pickUp (H := H) m w
    have hqueued : ahead (⟨m, .queued⟩ : Token H) = 3 := rfl
    simp only [Paid, cost, aheadOf, Option.toList_some, List.append_nil, List.map_cons,
      List.map_nil, List.sum_cons, List.sum_nil, begunBy, List.length_nil]
    omega
  | work => simp [Paid, cost, aheadOf, ahead, begunBy]
  | finish => simp [Paid, cost, aheadOf, ahead, begunBy]
  | fail => simp [Paid, cost, aheadOf, ahead, begunBy]
  | expire => simp [Paid, cost, aheadOf, ahead, begunBy]
  | call hcall => exact paid_of_call hcall
  | raises done => exact absurd rfl (hcalls done)

def noteCall (_ : System W H × (String → List (String × ℕ))) (e : Event C) (calls : String → ℕ) :
    String → ℕ :=
  match e with
  | .act run _ a => Function.update calls run (calls run + cost a)
  | _ => calls

def exec (handlers : Handlers W H C) :
    (System W H × (String → List (String × ℕ))) × (String → ℕ) → Event C →
      Option ((System W H × (String → List (String × ℕ))) × (String → ℕ)) :=
  recorded (Attempts.exec handlers) noteCall

def Start (s : (System W H × (String → List (String × ℕ))) × (String → ℕ)) : Prop :=
  Attempts.Start s.1 ∧ s.2 = fun _ => 0

structure Accounted (r : RunState H) (begun : List (String × ℕ)) (calls : ℕ) : Prop where
  paid : calls + aheadOf r.tokens ≤ 8 * begun.length + 4 * r.record.published.length
  registered : ∀ x ∈ begun, x.1 ∈ registeredStages

variable {begun : List (String × ℕ)} {calls : ℕ}

theorem Accounted.turn {live : WorkerId → Option (List String)} (h : Accounted r begun calls)
    (ht : r.tokens[i]? = some t) (hregistered : t.message.stage ∈ registeredStages)
    (hturn : Turn handlers live r.record world t a e) (hcalls : ∀ done, a ≠ .callRaises done) :
    Accounted (r.replace i e) (begun ++ begunBy t a) (calls + cost a) := by
  constructor
  · have hpaid := h.paid
    have hturned : Paid t a r.record e := paid_of_turn hturn hcalls
    have hreplaced := aheadOf_replace (e := e) ht
    unfold Paid at hturned
    change _ ≤ _ + 4 * e.record.published.length
    rw [List.length_append]
    omega
  · intro x hx
    rcases List.mem_append.mp hx with hold | hnew
    · exact h.registered x hold
    · unfold begunBy at hnew
      split at hnew
      · split at hnew
        · rw [List.mem_singleton.mp hnew]
          exact hregistered
        · cases hnew
      · split at hnew
        · rw [List.mem_singleton.mp hnew]
          exact hregistered
        · cases hnew
      · cases hnew

theorem accounted_of_reachable {s : (System W H × (String → List (String × ℕ))) × (String → ℕ)}
    (h : Reachable Start (exec handlers) (fun _ e => CrashFree e) s) (run : String) :
    Reachable Attempts.Start (Attempts.exec handlers) (fun _ e => CrashFree e) s.1 ∧
      Accounted (s.1.1.runs run) (s.1.2 run) (s.2 run) := by
  induction h with
  | @start s hstart =>
    refine ⟨.start hstart.1, ?_⟩
    rw [hstart.1.1.2, hstart.1.2, hstart.2]
    exact ⟨le_refl 0, List.forall_mem_nil _⟩
  | @next s u e _ hok hexec ih =>
    obtain ⟨hreach, haccounted⟩ := ih
    obtain ⟨v, hv, rfl⟩ := Option.map_eq_some_iff.mp hexec
    refine ⟨hreach.next hok hv, ?_⟩
    obtain ⟨s', hs', rfl⟩ := Option.map_eq_some_iff.mp hv
    change Accounted (s'.runs run) (noteBegin s.1.1 e s.1.2 run) (noteCall s.1 e s.2 run)
    by_cases hown : ∃ i a, e = .act run i a
    · obtain ⟨i, a, rfl⟩ := hown
      obtain ⟨t, ht, hact⟩ := Option.bind_eq_some_iff.mp hs'
      obtain ⟨eff, heff, rfl⟩ := Option.map_eq_some_iff.mp hact
      have hcalls : ∀ done, a ≠ .callRaises done := by
        rintro done rfl
        exact hok
      have hsystem := (tallied_of_reachable hreach run).1
      have hregistered := stages_registered hsystem run t (List.mem_of_getElem? ht) _
        List.mem_cons_self
      rw [noteBegin_act ht]
      change Accounted (Function.update s.1.1.runs run _ run) _ (Function.update s.2 run _ run)
      rw [Function.update_self, Function.update_self]
      exact haccounted.turn ht hregistered (turn_of_act heff) hcalls
    · have hquiet : noteCall s.1 e s.2 run = s.2 run := by
        cases e with
        | act run' i a =>
          have hne : run ≠ run' := by
            rintro rfl
            exact hown ⟨i, a, rfl⟩
          exact Function.update_of_ne hne _ _
        | _ => rfl
      rw [noteBegin_other fun i a heq => hown ⟨i, a, heq⟩, hquiet]
      rcases run_cases hs' run with ⟨heq, -⟩ | ⟨_, _, _, -, -, heq⟩ | ⟨w, rfl, -⟩ |
        ⟨i, a, -, -, hact, -⟩
      · rw [heq]
        exact haccounted
      · rw [heq]
        refine ⟨?_, haccounted.registered⟩
        have hpaid := haccounted.paid
        simp only [RunState.upload, aheadOf, List.map_append, List.sum_append, List.length_append,
          List.map_cons, List.map_nil, List.sum_cons, List.sum_nil, List.length_cons,
          List.length_nil] at hpaid ⊢
        have hqueued : ∀ m : StageMessage, ahead (⟨m, .queued⟩ : Token H) = 3 := fun _ => rfl
        rw [hqueued]
        omega
      · exact hok.elim
      · exact absurd ⟨i, a, hact⟩ hown

def ATTEMPTS : ℕ := (PIPELINE.map (·.maxAttempts)).sum

def attemptsOf (name : String) : ℕ :=
  ((PIPELINE.find? (·.name = name)).map (·.maxAttempts)).getD 0

theorem within_attemptsOf {name : String} (hname : name ∈ registeredStages) {k : ℕ}
    (h : Within name k) : k ≤ attemptsOf name := by
  have hall : ∀ name ∈ registeredStages, ∃ stage ∈ PIPELINE,
      PIPELINE.find? (·.name = name) = some stage ∧ stage.name = name := by
    decide
  obtain ⟨stage, hstage, hfind, heq⟩ := hall name hname
  unfold attemptsOf
  rw [hfind]
  exact h stage hstage heq

theorem sum_attemptsOf : (registeredStages.map attemptsOf).sum = ATTEMPTS := by decide

theorem registeredStages_nodup : registeredStages.Nodup := by decide

theorem count_stages (σ : String) (begun : List (String × ℕ)) :
    (begun.map (·.1)).count σ = (attemptsAt σ begun).length := by
  induction begun with
  | nil => rfl
  | cons x begun ih =>
    have hcons : attemptsAt σ (x :: begun) =
        (if x.1 = σ then [x.2] else []) ++ attemptsAt σ begun := by
      unfold attemptsAt
      by_cases hx : x.1 = σ <;> simp [hx]
    rw [List.map_cons, List.count_cons, ih, hcons, List.length_append]
    by_cases hx : x.1 = σ <;> simp [hx, Nat.add_comm]

theorem begun_length_le (h : Tallied r begun) (hregistered : ∀ x ∈ begun, x.1 ∈ registeredStages) :
    begun.length ≤ ATTEMPTS := by
  have hsubset : (begun.map (·.1)).toFinset ⊆ registeredStages.toFinset := by
    intro σ hσ
    obtain ⟨x, hx, rfl⟩ := List.mem_map.mp (List.mem_toFinset.mp hσ)
    exact List.mem_toFinset.mpr (hregistered x hx)
  have hcount : ∀ σ ∈ registeredStages.toFinset, (begun.map (·.1)).count σ ≤ attemptsOf σ := by
    intro σ hσ
    obtain ⟨k, hk, hwithin⟩ := h.attempts σ
    rw [count_stages, hk, List.length_range']
    exact within_attemptsOf (List.mem_toFinset.mp hσ) hwithin
  calc begun.length = (begun.map (·.1)).length := (List.length_map _).symm
    _ = ∑ σ ∈ (begun.map (·.1)).toFinset, (begun.map (·.1)).count σ :=
      (List.sum_toFinset_count_eq_length _).symm
    _ ≤ ∑ σ ∈ registeredStages.toFinset, (begun.map (·.1)).count σ :=
      Finset.sum_le_sum_of_subset hsubset
    _ ≤ ∑ σ ∈ registeredStages.toFinset, attemptsOf σ := Finset.sum_le_sum hcount
    _ = ATTEMPTS := (List.sum_toFinset _ registeredStages_nodup).trans sum_attemptsOf

theorem published_length_le {b : Board String} (h : Dispatched r b) :
    r.record.published.length ≤ PIPELINE.length := by
  have hcount : ∀ σ, (r.record.published.map (·.stage)).count σ = modePublished (b σ) := by
    intro σ
    rw [← h.shows.count σ, List.count, List.countP_map]
    rfl
  have hnodup : (r.record.published.map (·.stage)).Nodup := by
    rw [List.nodup_iff_count_le_one]
    intro σ
    rw [hcount]
    cases b σ <;> decide
  have hsound : LayeredDispatch.Sound (route (r.record.detected.getD .pdf)) b := by
    apply h.sound
    intro found heq
    rw [heq]
    rfl
  have hsubset : r.record.published.map (·.stage) ⊆ PIPELINE.map (·.name) := by
    intro σ hσ
    have hpositive := List.count_pos_iff.mpr hσ
    rw [hcount] at hpositive
    have hne : b σ ≠ .idle := by
      intro hidle
      rw [hidle] at hpositive
      exact Nat.lt_irrefl 0 hpositive
    obtain ⟨stage, hstage, -, rfl⟩ := mem_stageNamesFor.mp (hsound.mem hne)
    exact List.mem_map_of_mem hstage
  have hle := (hnodup.subperm hsubset).length_le
  rwa [List.length_map, List.length_map] at hle

def LIMIT : ℕ := 8 * ATTEMPTS + 4 * PIPELINE.length

variable {s : (System W H × (String → List (String × ℕ))) × (String → ℕ)}

theorem calls_le (h : Reachable Start (exec handlers) (fun _ e => CrashFree e) s) (run : String) :
    s.2 run ≤ LIMIT := by
  obtain ⟨hreach, haccounted⟩ := accounted_of_reachable h run
  obtain ⟨hsystem, -, htallied⟩ := tallied_of_reachable hreach run
  have hbegun := begun_length_le htallied haccounted.registered
  have hpaid := haccounted.paid
  have hpublished : (s.1.1.runs run).record.published.length ≤ PIPELINE.length := by
    rcases dispatched_of_reachable hsystem run with hempty | ⟨-, b, hb⟩
    · rw [hempty]
      exact Nat.zero_le _
    · exact published_length_le hb
  unfold LIMIT
  omega

def Served (s : System W H) : Prop :=
  ∀ stage ∈ registeredStages, ∃ w stages, s.live w = some stages ∧ stage ∈ stages

def AtRest (r : RunState H) : Prop := ∀ t ∈ r.tokens, ∃ reason, t.place = .dead reason

theorem act_of_alive {system : System W H} (hserved : Served system)
    (hregistered : t.message.stage ∈ registeredStages) (halive : ∀ reason, t.place ≠ .dead reason) :
    ∃ (a : Act C) (e : Effect W H), Calls a ∧ act handlers system.live t record world a = some e := by
  obtain ⟨m, place⟩ := t
  cases place with
  | queued =>
    obtain ⟨w, stages, hlive, hstage⟩ := hserved m.stage hregistered
    refine ⟨.deliver w, { own := some ⟨m, .inHand w (pickUp m)⟩, record := record, world := world },
      trivial, ?_⟩
    simp only [act, hlive]
    rw [if_pos hstage]
  | delayed ms => exact ⟨.expire, _, trivial, rfl⟩
  | dead reason => exact absurd rfl (halive reason)
  | inHand w phase =>
    cases phase with
    | handling k => exact ⟨.fail ⟨"", "", false⟩, _, trivial, rfl⟩
    | failing exc =>
      refine ⟨.call, ?_⟩
      simp only [act, callReturns]
      cases planFailure PIPELINE RETRY_DELAYS_MS m exc with
      | retry delayMs exchange attempt => exact ⟨_, trivial, rfl⟩
      | deadLetter reason => exact ⟨_, trivial, rfl⟩
    | _ => exact ⟨.call, _, trivial, rfl⟩

theorem cost_of_calls {a : Act C} (h : Calls a) : cost a = 1 := by
  cases a with
  | work c => exact h.elim
  | _ => rfl

theorem crashFree_of_calls {run : String} {i : ℕ} {a : Act C} (h : Calls a) :
    CrashFree (.act run i a) := by
  cases a with
  | callRaises done => exact h.elim
  | _ => trivial

theorem exists_call (h : Reachable Start (exec handlers) (fun _ e => CrashFree e) s)
    (hserved : Served s.1.1) {run : String} (hrest : ¬ AtRest (s.1.1.runs run)) :
    ∃ i a u, Calls a ∧ exec handlers s (.act run i a) = some u ∧ Served u.1.1 ∧
      u.2 run = s.2 run + 1 := by
  unfold AtRest at hrest
  push Not at hrest
  obtain ⟨t, ht, halive⟩ := hrest
  obtain ⟨i, hi⟩ := List.mem_iff_getElem?.mp ht
  obtain ⟨hreach, -⟩ := accounted_of_reachable h run
  have hsystem := (tallied_of_reachable hreach run).1
  have hregistered := stages_registered hsystem run t ht _ List.mem_cons_self
  have hmove : ∃ (a : Act C) (e : Effect W H), Calls a ∧
      act handlers s.1.1.live t (s.1.1.runs run).record s.1.1.world a = some e :=
    act_of_alive hserved hregistered halive
  obtain ⟨a, e, hcalls, hact⟩ := hmove
  have hmoves : Consumer.exec handlers s.1.1 (.act run i a) = some
      { s.1.1 with
        runs := Function.update s.1.1.runs run ((s.1.1.runs run).replace i e)
        world := e.world } := by
    change (s.1.1.runs run).tokens[i]?.bind _ = _
    rw [hi, Option.bind_some, hact]
    rfl
  refine ⟨i, a, _, hcalls, Option.map_eq_some_iff.mpr ⟨_, Option.map_eq_some_iff.mpr
    ⟨_, hmoves, rfl⟩, rfl⟩, hserved, ?_⟩
  change Function.update s.2 run (s.2 run + cost a) run = _
  rw [Function.update_self, cost_of_calls hcalls]

theorem rests_after (n : ℕ) (h : Reachable Start (exec handlers) (fun _ e => CrashFree e) s)
    (hserved : Served s.1.1) (run : String) (hn : LIMIT ≤ s.2 run + n) :
    ∃ events u, (∀ e ∈ events, ∃ i a, e = .act run i a ∧ Calls a) ∧
      GuardedRuns.run (exec handlers) s events = some u ∧ AtRest (u.1.1.runs run) := by
  induction n generalizing s with
  | zero =>
    by_cases hrest : AtRest (s.1.1.runs run)
    · exact ⟨[], s, List.forall_mem_nil _, rfl, hrest⟩
    · obtain ⟨i, a, u, hcalls, hexec, -, hcount⟩ := exists_call h hserved hrest
      have hle := calls_le (h.next (crashFree_of_calls hcalls) hexec) run
      omega
  | succ n ih =>
    by_cases hrest : AtRest (s.1.1.runs run)
    · exact ⟨[], s, List.forall_mem_nil _, rfl, hrest⟩
    · obtain ⟨i, a, u, hcalls, hexec, hserved', hcount⟩ := exists_call h hserved hrest
      obtain ⟨events, v, hevents, hrun, hat⟩ :=
        ih (h.next (crashFree_of_calls hcalls) hexec) hserved' (by omega)
      refine ⟨.act run i a :: events, v, ?_, ?_, hat⟩
      · exact List.forall_mem_cons.mpr ⟨⟨i, a, rfl, hcalls⟩, hevents⟩
      · exact Option.bind_eq_some_iff.mpr ⟨u, hexec, hrun⟩

/-- Where no worker dies and no call raises, the consumers make no more than so many calls for a
    document, however retries and other documents come between. With a consumer at every queue they
    can always carry on, until only dead letters are left. -/
theorem ingestion_ends (h : Reachable Start (exec handlers) (fun _ e => CrashFree e) s)
    (run : String) :
    s.2 run ≤ LIMIT ∧
      (Served s.1.1 → ∃ events u, (∀ e ∈ events, ∃ i a, e = .act run i a ∧ Calls a) ∧
        GuardedRuns.run (exec handlers) s events = some u ∧ AtRest (u.1.1.runs run)) :=
  ⟨calls_le h run, fun hserved => rests_after LIMIT h hserved run (Nat.le_add_left _ _)⟩

end

theorem a_retried_stage_comes_to_rest :
    ∃ s, Reachable Start (exec (prompt .flow)) (fun _ e => CrashFree e) s ∧ s.2 "run" = 6 ∧
      ∃ events u, (∀ e ∈ events, ∃ i a, e = .act "run" i a ∧ Calls a) ∧
        GuardedRuns.run (exec (prompt .flow)) s events = some u ∧ AtRest (u.1.1.runs "run") := by
  have hend : (run (exec (prompt .flow)) ((fresh, fun _ => []), fun _ => 0) retriedOnce).map
      (fun s => (s.2 "run", s.1.1.live 0)) = some (6, some everyStage) := by
    decide +kernel
  obtain ⟨s, hrun, heq⟩ := Option.map_eq_some_iff.mp hend
  obtain ⟨hcount, hlive⟩ := Prod.mk.inj heq
  have hreach : Reachable Start (exec (prompt .flow)) (fun _ e => CrashFree e) s := by
    refine reachable_of_run (.start ⟨⟨⟨rfl, rfl⟩, rfl⟩, rfl⟩) ?_ hrun
    intro e he _
    simp only [retriedOnce, List.mem_cons, List.not_mem_nil, or_false] at he
    rcases he with rfl | rfl | rfl | rfl | rfl | rfl | rfl | rfl <;> trivial
  have hall : ∀ stage ∈ registeredStages, stage ∈ everyStage := by decide
  have hserved : Served s.1.1 := fun stage hstage => ⟨0, everyStage, hlive, hall stage hstage⟩
  exact ⟨s, hreach, hcount, (ingestion_ends hreach "run").2 hserved⟩

end Ragent.IngestionEnds
