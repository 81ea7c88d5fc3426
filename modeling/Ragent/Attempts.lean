import Ragent.DocumentOutcomes

set_option autoImplicit false

/-!
# Attempts

`plan_failure` counts the attempts at a stage in the message. No message counts beyond what its stage
is given, and where no worker dies and no call raises the handler of a stage is started once for each
attempt in turn.
-/
namespace Ragent.Attempts
open Formats Stages StageStores Runner GuardedRuns Consumer LayeredDispatch Dispatch DocumentOutcomes

section
variable {W H C : Type} {handlers : Handlers W H C}

def Within (name : String) (attempt : ℕ) : Prop :=
  ∀ stage ∈ PIPELINE, stage.name = name → attempt ≤ stage.maxAttempts

def Waits (name : String) (attempt ms : ℕ) : Prop :=
  ∃ stage ∈ PIPELINE, stage.name = name ∧ retryDelayMs RETRY_DELAYS_MS stage attempt = some ms

structure Counts (t : Token H) : Prop where
  within : Within t.message.stage t.message.attempt
  delayed : ∀ ms, t.place = .delayed ms →
    2 ≤ t.message.attempt ∧ Waits t.message.stage (t.message.attempt - 1) ms
  retrying : ∀ w ms, t.place = .inHand w (.retrying ms) →
    Waits t.message.stage t.message.attempt ms
  reserving : ∀ w follower rest, t.place = .inHand w (.reserving follower rest) →
    ∀ f ∈ follower :: rest, f.attempt = 1
  publishing : ∀ w follower rest, t.place = .inHand w (.publishing follower rest) →
    ∀ f ∈ follower :: rest, f.attempt = 1

theorem within_one (name : String) : Within name 1 := by
  have hall : ∀ stage ∈ PIPELINE, 1 ≤ stage.maxAttempts := by decide
  exact fun stage hstage _ => hall stage hstage

theorem within_of_waits {name : String} {attempt ms : ℕ} (h : Waits name attempt ms) :
    Within name (attempt + 1) := by
  rcases h with ⟨stage, hstage, rfl, hdelay⟩
  intro stage' hstage' hname
  have heq : stage' = stage := List.inj_on_of_nodup_map pipeline_names_nodup hstage' hstage hname
  unfold retryDelayMs at hdelay
  rw [Option.ite_none_left_eq_some] at hdelay
  rw [heq]
  omega

theorem waits_of_plan {m : StageMessage} {exc : Exc} {ms attempt : ℕ} {exchange : String}
    (h : planFailure PIPELINE RETRY_DELAYS_MS m exc = .retry ms exchange attempt) :
    Waits m.stage m.attempt ms := by
  unfold planFailure at h
  split at h
  · cases h
  · rename_i stage hfind
    have hmem := List.mem_of_find?_eq_some hfind
    have hname := List.find?_some hfind
    rw [decide_eq_true_eq] at hname
    split_ifs at h
    split at h
    · cases h
    · rename_i delay hdelay
      cases h
      exact ⟨stage, hmem, hname, hdelay⟩

variable {m : StageMessage} {w : WorkerId} {record : Record} {world : W} {phase : Phase H}
  {t : Token H} {e : Effect W H} {a : Act C}

def Plain : Place H → Prop
  | .delayed _ => False
  | .inHand _ (.retrying _) => False
  | .inHand _ (.reserving _ _) => False
  | .inHand _ (.publishing _ _) => False
  | _ => True

theorem Counts.of_plain {place : Place H} (hwithin : Within m.stage m.attempt)
    (hplain : Plain place) : Counts ⟨m, place⟩ := by
  refine ⟨hwithin, ?_, ?_, ?_, ?_⟩
  · rintro ms ⟨⟩
    exact hplain.elim
  · rintro w ms ⟨⟩
    exact hplain.elim
  · rintro w follower rest ⟨⟩
    exact hplain.elim
  · rintro w follower rest ⟨⟩
    exact hplain.elim

theorem Counts.of_reserve {followers : List StageMessage} (hwithin : Within m.stage m.attempt)
    (hfollowers : ∀ f ∈ followers, f.attempt = 1) :
    Counts (⟨m, .inHand w (reserve followers)⟩ : Token H) := by
  cases followers with
  | nil => exact .of_plain hwithin trivial
  | cons follower rest =>
    refine ⟨hwithin, nofun, nofun, ?_, nofun⟩
    rintro _ _ _ ⟨⟩
    exact hfollowers

theorem Counts.of_publish {followers : List StageMessage} (hwithin : Within m.stage m.attempt)
    (hfollowers : ∀ f ∈ followers, f.attempt = 1) :
    Counts (⟨m, .inHand w (Consumer.publish followers)⟩ : Token H) := by
  cases followers with
  | nil => exact .of_plain hwithin trivial
  | cons follower rest =>
    refine ⟨hwithin, nofun, nofun, nofun, ?_⟩
    rintro _ _ _ ⟨⟩
    exact hfollowers

theorem counts_of_call (hcall : callReturns handlers m w record world phase = some e)
    (h : Counts (⟨m, .inHand w phase⟩ : Token H)) : ∀ t ∈ e.own.toList ++ e.sent, Counts t := by
  have hwithin : Within m.stage m.attempt := h.within
  cases phase with
  | handling h' => cases hcall
  | completing m' =>
    cases hcall
    refine List.forall_mem_singleton.mpr (.of_reserve hwithin fun f hf => ?_)
    rcases mem_nextMessages.mp hf with ⟨stage, -, rfl⟩
    rfl
  | reserving follower rest =>
    cases hcall
    refine List.forall_mem_singleton.mpr ⟨hwithin, nofun, nofun, nofun, ?_⟩
    rintro _ _ _ ⟨⟩
    exact h.reserving w follower rest rfl
  | publishing follower rest =>
    cases hcall
    have hfollowers := h.publishing w follower rest rfl
    simp only [Option.toList_some, List.singleton_append, List.forall_mem_cons]
    have hone : Within follower.stage follower.attempt := by
      rw [hfollowers follower List.mem_cons_self]
      exact within_one _
    exact ⟨.of_publish hwithin fun f hf => hfollowers f (List.mem_cons_of_mem _ hf),
      .of_plain hone trivial, List.forall_mem_nil _⟩
  | failing exc =>
    obtain ⟨ms, exchange, attempt, hplan, rfl⟩ | ⟨_, -, rfl⟩ := callReturns_failing hcall
    · refine List.forall_mem_singleton.mpr ⟨hwithin, nofun, ?_, nofun, nofun⟩
      rintro _ _ ⟨⟩
      exact waits_of_plan hplan
    · exact List.forall_mem_singleton.mpr (.of_plain hwithin trivial)
  | retrying ms =>
    cases hcall
    have hwaits := h.retrying w ms rfl
    simp only [Option.toList_some, List.singleton_append, List.forall_mem_cons]
    refine ⟨.of_plain hwithin trivial, ⟨within_of_waits hwaits, ?_, nofun, nofun, nofun⟩,
      List.forall_mem_nil _⟩
    rintro _ ⟨⟩
    refine ⟨Nat.succ_le_succ m.positive, ?_⟩
    exact hwaits
  | received =>
    cases hcall
    exact List.forall_mem_singleton.mpr (.of_plain hwithin trivial)
  | acking =>
    cases hcall
    exact List.forall_mem_nil _
  | condemning reason =>
    cases hcall
    exact List.forall_mem_singleton.mpr (.of_plain hwithin trivial)
  | deadLettering reason =>
    cases hcall
    simp only [Option.toList_some, List.singleton_append, List.forall_mem_cons]
    exact ⟨.of_plain hwithin trivial, .of_plain hwithin trivial, List.forall_mem_nil _⟩

theorem counts_of_turn {live : WorkerId → Option (List String)}
    (h : Turn handlers live record world t a e) (hcounts : Counts t) :
    ∀ t' ∈ e.own.toList ++ e.sent, Counts t' := by
  have hwithin : Within t.message.stage t.message.attempt := hcounts.within
  cases h with
  | deliver =>
    refine List.forall_mem_singleton.mpr (.of_plain hwithin ?_)
    unfold pickUp
    split_ifs <;> trivial
  | work => exact List.forall_mem_singleton.mpr (.of_plain hwithin trivial)
  | finish => exact List.forall_mem_singleton.mpr (.of_plain hwithin trivial)
  | fail => exact List.forall_mem_singleton.mpr (.of_plain hwithin trivial)
  | expire => exact List.forall_mem_singleton.mpr (.of_plain hwithin trivial)
  | call hcall => exact counts_of_call hcall hcounts
  | @raises m w phase e' done hcall =>
    cases done with
    | false => exact List.forall_mem_singleton.mpr (.of_plain hwithin trivial)
    | true =>
      intro t' ht'
      have hleft := counts_of_call hcall hcounts
      rcases List.mem_append.mp ht' with hown | hsent
      · obtain ⟨t'', ht'', rfl⟩ := Option.map_eq_some_iff.mp (Option.mem_toList.mp hown)
        have hold := hleft t'' (List.mem_append_left _ (Option.mem_toList.mpr ht''))
        exact .of_plain hold.within trivial
      · exact hleft t' (List.mem_append_right _ hsent)

/-- No message counts more attempts than its stage is given, along any run. -/
theorem counts_of_reachable {ok : System W H → Event C → Prop} {s : System W H}
    (h : Reachable Initial (Consumer.exec handlers) ok s) (run : String) :
    ∀ t ∈ (s.runs run).tokens, Counts t := by
  refine tokens_invariant ?_ ?_ ?_ h run
  · intro documentId runId pipelineVersion traceId
    exact .of_plain (within_one _) trivial
  · intro live record world t a e hcounts hturn
    exact counts_of_turn hturn hcounts
  · intro w t hcounts
    unfold Token.release
    split
    · split_ifs
      · exact .of_plain hcounts.within trivial
      · exact hcounts
    · exact hcounts

def begunBy (t : Token H) : Act C → List (String × ℕ)
  | .call => match t.place with
    | .inHand _ .received => [(t.message.stage, t.message.attempt)]
    | _ => []
  | .callRaises true => match t.place with
    | .inHand _ .received => [(t.message.stage, t.message.attempt)]
    | _ => []
  | _ => []

def noteBegin (s : System W H) (e : Event C) (begun : String → List (String × ℕ)) :
    String → List (String × ℕ) :=
  match e with
  | .act run i a => Function.update begun run
      (begun run ++ ((s.runs run).tokens[i]?).elim [] fun t => begunBy t a)
  | _ => begun

/-- The ingest system with the attempts that have begun in each run. -/
def exec (handlers : Handlers W H C) :
    System W H × (String → List (String × ℕ)) → Event C →
      Option (System W H × (String → List (String × ℕ))) :=
  recorded (Consumer.exec handlers) noteBegin

def Start (s : System W H × (String → List (String × ℕ))) : Prop := Initial s.1 ∧ s.2 = fun _ => []

def attemptsAt (σ : String) (begun : List (String × ℕ)) : List ℕ :=
  (begun.filter (·.1 = σ)).map (·.2)

variable {begun begun' : List (String × ℕ)} {σ : String} {r : RunState H} {b : Board String} {i : ℕ}

theorem attemptsAt_snoc (σ τ : String) (begun : List (String × ℕ)) (attempt : ℕ) :
    attemptsAt σ (begun ++ [(τ, attempt)]) =
      attemptsAt σ begun ++ if τ = σ then [attempt] else [] := by
  unfold attemptsAt
  by_cases h : τ = σ <;> simp [h]

def Tally (begun : List (String × ℕ)) (t : Token H) : Prop :=
  match t.place with
  | .queued | .delayed _ | .inHand _ .received =>
    attemptsAt t.message.stage begun = List.range' 1 (t.message.attempt - 1)
  | .inHand _ (.handling _) | .inHand _ (.completing _) | .inHand _ (.failing _)
  | .inHand _ (.retrying _) => attemptsAt t.message.stage begun = List.range' 1 t.message.attempt
  | .inHand _ (.reserving follower rest) => ∀ f ∈ follower :: rest, attemptsAt f.stage begun = []
  | .inHand _ (.publishing follower rest) => ∀ f ∈ follower :: rest, attemptsAt f.stage begun = []
  | _ => True

theorem Tally.frame (h : Tally begun t)
    (hsame : ∀ σ d, (σ, d) ∈ agenda t → attemptsAt σ begun' = attemptsAt σ begun) :
    Tally begun' t := by
  obtain ⟨m, place⟩ := t
  cases place with
  | queued => exact (hsame m.stage .wait (by simp [agenda])).trans h
  | delayed ms => exact (hsame m.stage .wait (by simp [agenda])).trans h
  | dead reason => trivial
  | inHand w phase =>
    cases phase with
    | received => exact (hsame m.stage .wait (by simp [agenda])).trans h
    | handling k => exact (hsame m.stage .act (by simp [agenda])).trans h
    | completing m' => exact (hsame m.stage .act (by simp [agenda])).trans h
    | failing exc => exact (hsame m.stage .act (by simp [agenda])).trans h
    | retrying ms => exact (hsame m.stage .retry (by simp [agenda])).trans h
    | reserving follower rest =>
      intro f hf
      rw [hsame f.stage .reserve (List.mem_map_of_mem (f := fun m => (m.stage, Duty.reserve)) hf)]
      exact h f hf
    | publishing follower rest =>
      intro f hf
      rw [hsame f.stage .owe (List.mem_map_of_mem (f := fun m => (m.stage, Duty.owe)) hf)]
      exact h f hf
    | _ => trivial

structure Tallied (r : RunState H) (begun : List (String × ℕ)) : Prop where
  attempts : ∀ σ, ∃ k, attemptsAt σ begun = List.range' 1 k ∧ Within σ k
  fresh : ∀ σ, r.record.rows.status σ = none → attemptsAt σ begun = []
  tokens : ∀ t ∈ r.tokens, Tally begun t

/-- Where no attempt begins and no row goes, the tokens that are left have to tell. -/
theorem Tallied.quiet (h : Tallied r begun)
    (hrows : ∀ σ, e.record.rows.status σ = none → r.record.rows.status σ = none)
    (htokens : ∀ t ∈ e.own.toList ++ e.sent, Tally begun t) : Tallied (r.replace i e) begun := by
  refine ⟨h.attempts, fun σ hσ => h.fresh σ (hrows σ hσ), fun t ht => ?_⟩
  rcases mem_replace.mp ht with hnew | ⟨j, -, hj⟩
  · exact htokens t hnew
  · exact h.tokens t (List.mem_of_getElem? hj)

theorem Tally.of_reserve {followers : List StageMessage}
    (h : ∀ f ∈ followers, attemptsAt f.stage begun = []) :
    Tally begun (⟨m, .inHand w (reserve followers)⟩ : Token H) := by
  cases followers with
  | nil => trivial
  | cons follower rest => exact h

theorem Tally.of_publish {followers : List StageMessage}
    (h : ∀ f ∈ followers, attemptsAt f.stage begun = []) :
    Tally begun (⟨m, .inHand w (Consumer.publish followers)⟩ : Token H) := by
  cases followers with
  | nil => trivial
  | cons follower rest => exact h

theorem status_of_follower (h : Dispatched r b) {m m' f : StageMessage}
    (hf : f ∈ nextMessages PIPELINE m' (r.record.rows.completeStage m.stage).snapshot) :
    r.record.rows.status f.stage = none := by
  rcases mem_nextMessages.mp hf with ⟨stage, hstage, rfl⟩
  obtain ⟨-, ⟨-, hdispatched⟩, -⟩ := mem_readyStages.mp hstage
  rw [StageRows.mem_dispatched, StageRows.status_completeStage] at hdispatched
  change r.record.rows.status stage.name = none
  split_ifs at hdispatched with heq
  · exact absurd ⟨_, rfl, by decide⟩ hdispatched
  · cases hstatus : r.record.rows.status stage.name with
    | none => rfl
    | some status =>
      have hrow := h.shows.row stage.name
      rw [hstatus] at hrow
      refine absurd ⟨status, hstatus, ?_⟩ hdispatched
      rintro rfl
      cases hmode : b stage.name <;> simp [hmode, modeRow] at hrow

theorem status_none_markDispatched {rows : StageRows} {stages : List String} {σ : String}
    (h : (rows.markDispatched stages).status σ = none) : rows.status σ = none := by
  rw [StageRows.status_markDispatched] at h
  split_ifs at h
  exact h

theorem status_none_completeStage {rows : StageRows} {stage σ : String}
    (h : (rows.completeStage stage).status σ = none) : rows.status σ = none := by
  rw [StageRows.status_completeStage] at h
  split_ifs at h
  exact h

theorem status_none_failStage {rows : StageRows} {stage error σ : String} {permanent : Bool}
    (h : (rows.failStage stage error permanent).status σ = none) : rows.status σ = none := by
  rw [StageRows.status_failStage] at h
  split_ifs at h
  exact h

theorem Tallied.begin (h : Tallied r begun) (hb : Dispatched r b)
    (ht : r.tokens[i]? = some ⟨m, .inHand w .received⟩) (hwithin : Within m.stage m.attempt)
    (world : W) (k : H) :
    Tallied (r.replace i
      { own := some ⟨m, .inHand w (.handling k)⟩
        record := { r.record with rows := r.record.rows.beginStage m.stage m.attempt }
        world := world }) (begun ++ [(m.stage, m.attempt)]) := by
  have hbefore : attemptsAt m.stage begun = List.range' 1 (m.attempt - 1) :=
    h.tokens _ (List.mem_of_getElem? ht)
  have hown : attemptsAt m.stage (begun ++ [(m.stage, m.attempt)]) = List.range' 1 m.attempt := by
    have hpositive := m.positive
    obtain ⟨n, hn⟩ : ∃ n, m.attempt = n + 1 := ⟨m.attempt - 1, by omega⟩
    rw [attemptsAt_snoc, if_pos rfl, hbefore, hn, List.range'_concat]
    simp [Nat.add_comm]
  have hother : ∀ σ, σ ≠ m.stage →
      attemptsAt σ (begun ++ [(m.stage, m.attempt)]) = attemptsAt σ begun := by
    intro σ hσ
    rw [attemptsAt_snoc, if_neg (Ne.symm hσ), List.append_nil]
  constructor
  · intro σ
    by_cases hσ : σ = m.stage
    · subst hσ
      exact ⟨m.attempt, hown, hwithin⟩
    · rw [hother σ hσ]
      exact h.attempts σ
  · intro σ hσ
    change (r.record.rows.beginStage m.stage m.attempt).status σ = none at hσ
    rw [StageRows.status_beginStage] at hσ
    split_ifs at hσ with heq
    rw [hother σ heq]
    exact h.fresh σ hσ
  · intro t' ht'
    rcases mem_replace.mp ht' with hnew | ⟨j, hne, hj⟩
    · rw [List.mem_singleton.mp hnew]
      exact hown
    · apply (h.tokens t' (List.mem_of_getElem? hj)).frame
      intro σ d hd
      apply hother
      rintro rfl
      -- no other token is about this stage
      exact hne (same_token hb ht (x := .wait) (by simp [agenda]) hj hd).symm

theorem tallied_turn {live : WorkerId → Option (List String)}
    (hturn : Turn handlers live r.record world t a e) (ht : r.tokens[i]? = some t)
    (hcalls : ∀ done, a ≠ .callRaises done) (hb : Dispatched r b) (hcounts : Counts t)
    (h : Tallied r begun) : Tallied (r.replace i e) (begun ++ begunBy t a) := by
  have htally : Tally begun t := h.tokens t (List.mem_of_getElem? ht)
  cases hturn with
  | deliver =>
    simp only [begunBy, List.append_nil]
    refine h.quiet (fun σ hσ => hσ) (List.forall_mem_singleton.mpr ?_)
    unfold pickUp
    split_ifs
    · exact htally
    · trivial
  | work =>
    simp only [begunBy, List.append_nil]
    exact h.quiet (fun σ hσ => hσ) (List.forall_mem_singleton.mpr htally)
  | finish =>
    simp only [begunBy, List.append_nil]
    exact h.quiet (fun σ hσ => hσ) (List.forall_mem_singleton.mpr htally)
  | fail =>
    simp only [begunBy, List.append_nil]
    exact h.quiet (fun σ hσ => hσ) (List.forall_mem_singleton.mpr htally)
  | expire =>
    simp only [begunBy, List.append_nil]
    exact h.quiet (fun σ hσ => hσ) (List.forall_mem_singleton.mpr htally)
  | raises done => exact absurd rfl (hcalls done)
  | @call m w phase e hcall =>
    cases phase with
    | received =>
      cases hcall
      exact h.begin hb ht hcounts.within world (handlers.start m)
    | handling k => cases hcall
    | completing m' =>
      cases hcall
      simp only [begunBy, List.append_nil]
      refine h.quiet (fun σ hσ => status_none_completeStage hσ) (List.forall_mem_singleton.mpr ?_)
      exact .of_reserve fun f hf => h.fresh f.stage (status_of_follower hb hf)
    | reserving follower rest =>
      cases hcall
      simp only [begunBy, List.append_nil]
      exact h.quiet (fun σ hσ => status_none_markDispatched hσ)
        (List.forall_mem_singleton.mpr htally)
    | publishing follower rest =>
      cases hcall
      simp only [begunBy, List.append_nil]
      refine h.quiet (fun σ hσ => hσ) ?_
      have hfollowers : ∀ f ∈ follower :: rest, attemptsAt f.stage begun = [] := htally
      simp only [Option.toList_some, List.singleton_append, List.forall_mem_cons]
      refine ⟨.of_publish fun f hf => hfollowers f (List.mem_cons_of_mem _ hf), ?_, List.forall_mem_nil _⟩
      change attemptsAt follower.stage begun = List.range' 1 (follower.attempt - 1)
      rw [hfollowers follower List.mem_cons_self,
        hcounts.publishing w follower rest rfl follower List.mem_cons_self]
      rfl
    | acking =>
      cases hcall
      simp only [begunBy, List.append_nil]
      exact h.quiet (fun σ hσ => hσ) (List.forall_mem_nil _)
    | failing exc =>
      simp only [begunBy, List.append_nil]
      obtain ⟨_, _, _, -, rfl⟩ | ⟨_, -, rfl⟩ := callReturns_failing hcall
      · exact h.quiet (fun σ hσ => status_none_failStage hσ)
          (List.forall_mem_singleton.mpr htally)
      · exact h.quiet (fun σ hσ => status_none_failStage hσ)
          (List.forall_mem_singleton.mpr trivial)
    | condemning reason =>
      cases hcall
      simp only [begunBy, List.append_nil]
      exact h.quiet (fun σ hσ => hσ) (List.forall_mem_singleton.mpr trivial)
    | deadLettering reason =>
      cases hcall
      simp only [begunBy, List.append_nil]
      refine h.quiet (fun σ hσ => hσ) ?_
      simp only [Option.toList_some, List.singleton_append, List.forall_mem_cons]
      exact ⟨trivial, trivial, List.forall_mem_nil _⟩
    | retrying ms =>
      cases hcall
      simp only [begunBy, List.append_nil]
      refine h.quiet (fun σ hσ => hσ) ?_
      simp only [Option.toList_some, List.singleton_append, List.forall_mem_cons]
      exact ⟨trivial, htally, List.forall_mem_nil _⟩

theorem noteBegin_other {s : System W H} {e : Event C} {begun : String → List (String × ℕ)}
    {run : String} (h : ∀ i a, e ≠ .act run i a) : noteBegin s e begun run = begun run := by
  cases e with
  | act run' i a =>
    have hne : run ≠ run' := by
      rintro rfl
      exact h i a rfl
    exact Function.update_of_ne hne _ _
  | _ => rfl

theorem noteBegin_act {s : System W H} {begun : String → List (String × ℕ)} {run : String}
    (ht : (s.runs run).tokens[i]? = some t) :
    noteBegin s (.act run i a) begun run = begun run ++ begunBy t a := by
  change Function.update begun run (begun run ++ ((s.runs run).tokens[i]?).elim [] _) run = _
  rw [Function.update_self, ht]
  rfl

theorem tallied_of_reachable {s : System W H × (String → List (String × ℕ))}
    (h : Reachable Start (exec handlers) (fun _ e => CrashFree e) s) (run : String) :
    Reachable Initial (Consumer.exec handlers) (fun _ e => CrashFree e) s.1 ∧
      (s.1.runs run = {} → s.2 run = []) ∧ Tallied (s.1.runs run) (s.2 run) := by
  induction h with
  | @start s hstart =>
    refine ⟨.start hstart.1, fun _ => by rw [hstart.2], ?_⟩
    rw [hstart.1.2, hstart.2]
    exact ⟨fun σ => ⟨0, rfl, fun _ _ _ => Nat.zero_le _⟩, fun _ _ => rfl, List.forall_mem_nil _⟩
  | @next s t e _ hok hexec ih =>
    obtain ⟨hreach, hempty, htallied⟩ := ih
    obtain ⟨s', hs', rfl⟩ := Option.map_eq_some_iff.mp hexec
    have hreach' := hreach.next hok hs'
    refine ⟨hreach', ?_⟩
    change (s'.runs run = {} → noteBegin s.1 e s.2 run = []) ∧
      Tallied (s'.runs run) (noteBegin s.1 e s.2 run)
    by_cases hown : ∃ i a, e = .act run i a
    · obtain ⟨i, a, rfl⟩ := hown
      obtain ⟨t, ht, hact⟩ := Option.bind_eq_some_iff.mp hs'
      obtain ⟨eff, heff, rfl⟩ := Option.map_eq_some_iff.mp hact
      rw [noteBegin_act ht]
      change (Function.update s.1.runs run _ run = {} → _) ∧
        Tallied (Function.update s.1.runs run _ run) _
      rw [Function.update_self]
      have hcalls : ∀ done, a ≠ .callRaises done := by
        rintro done rfl
        exact hok
      have hturn := turn_of_act heff
      rcases dispatched_of_reachable hreach run with hnone | ⟨hpublished, b, hb⟩
      · rw [hnone] at ht
        cases ht
      · refine ⟨fun heq => ?_, ?_⟩
        · have hstill : eff.record.published ≠ [] := published_turn hturn hcalls hpublished
          exact absurd (congrArg (·.record.published) heq) hstill
        · exact tallied_turn hturn ht hcalls hb
            (counts_of_reachable hreach run t (List.mem_of_getElem? ht)) htallied
    · rw [noteBegin_other fun i a heq => hown ⟨i, a, heq⟩]
      rcases run_cases hs' run with ⟨heq, -⟩ | ⟨documentId, pipelineVersion, traceId, -, hnew, heq⟩ |
        ⟨w, rfl, -⟩ | ⟨i, a, -, -, hact, -⟩
      · rw [heq]
        exact ⟨hempty, htallied⟩
      · rcases dispatched_of_reachable hreach run with hnone | ⟨hpublished, -⟩
        · rw [heq, hempty hnone, hnone]
          refine ⟨fun _ => rfl, fun σ => ⟨0, rfl, fun _ _ _ => Nat.zero_le _⟩, fun _ _ => rfl, ?_⟩
          exact List.forall_mem_singleton.mpr rfl
        · exact absurd hnew hpublished
      · exact hok.elim
      · exact absurd ⟨i, a, hact⟩ hown

/-- Along any run, with crashes and calls that raise, a message counts between one attempt and those
    its stage is given, and one that is delayed waits as long as the attempts behind it ask for. -/
theorem attempts_stay_within {s : System W H}
    (h : Reachable Initial (Consumer.exec handlers) (fun _ _ => True) s) (run : String) :
    ∀ t ∈ (s.runs run).tokens, 1 ≤ t.message.attempt ∧ Within t.message.stage t.message.attempt ∧
      ∀ ms, t.place = .delayed ms →
        2 ≤ t.message.attempt ∧ Waits t.message.stage (t.message.attempt - 1) ms := by
  intro t ht
  have hcounts := counts_of_reachable h run t ht
  exact ⟨t.message.positive, hcounts.within, hcounts.delayed⟩

/-- Where no worker dies and no call raises, the handler of a stage is started for the attempts 1, 2,
    … in turn, each of them once, and for no more than the stage is given. -/
theorem each_attempt_begins_once {s : System W H × (String → List (String × ℕ))}
    (h : Reachable Start (exec handlers) (fun _ e => CrashFree e) s) (run : String) (σ : String) :
    ∃ k, attemptsAt σ (s.2 run) = List.range' 1 k ∧ Within σ k :=
  (tallied_of_reachable h run).2.2.attempts σ

end

/-- The handler of `detect` fails, and is started again five seconds later. -/
def retriedOnce : List (Event Unit) :=
  [.upload "document" "run" "v1" "trace", .start 0 everyStage, .act "run" 0 (.deliver 0),
    .act "run" 0 .call, .act "run" 0 (.fail ⟨"ConnectionError", "reset", false⟩),
    .act "run" 0 .call, .act "run" 0 .call, .act "run" 0 .call]

def delayedFor (t : Token Unit) : Option (String × ℕ) :=
  match t.place with
  | .delayed ms => some (t.message.stage, ms)
  | _ => none

theorem place_of_delayedFor {t : Token Unit} {stage : String} {ms : ℕ}
    (h : delayedFor t = some (stage, ms)) : t.message.stage = stage ∧ t.place = .delayed ms := by
  unfold delayedFor at h
  split at h
  · rename_i heq
    cases h
    exact ⟨rfl, heq⟩
  · cases h

theorem a_failed_attempt_is_delayed :
    ∃ s, Reachable Initial (Consumer.exec (prompt .flow)) (fun _ _ => True) s ∧
      ∃ t ∈ (s.runs "run").tokens, t.place = .delayed 5000 ∧ 2 ≤ t.message.attempt ∧
        Waits "detect" (t.message.attempt - 1) 5000 := by
  have hend : (run (Consumer.exec (prompt .flow)) fresh retriedOnce).map (fun s =>
      (s.runs "run").tokens.map delayedFor) = some [some ("detect", 5000)] := by
    decide +kernel
  obtain ⟨s, hrun, heq⟩ := Option.map_eq_some_iff.mp hend
  have hreach : Reachable Initial (Consumer.exec (prompt .flow)) (fun _ _ => True) s :=
    reachable_of_run (.start ⟨rfl, rfl⟩) (fun _ _ _ => trivial) hrun
  obtain ⟨t, ht, hdelayedFor⟩ := List.mem_map.mp (heq ▸ List.mem_singleton_self _)
  obtain ⟨hstage, hplace⟩ := place_of_delayedFor hdelayedFor
  obtain ⟨-, -, hdelayed⟩ := attempts_stay_within hreach "run" _ ht
  obtain ⟨htwo, hwaits⟩ := hdelayed 5000 hplace
  exact ⟨s, hreach, t, ht, hplace, htwo, hstage ▸ hwaits⟩

theorem a_retried_stage_begins_twice :
    ∃ s, Reachable Start (exec (prompt .flow)) (fun _ e => CrashFree e) s ∧
      (s.2 "run").length = 2 ∧
      ∃ k, attemptsAt "detect" (s.2 "run") = List.range' 1 k ∧ Within "detect" k := by
  have hend : (run (exec (prompt .flow)) (fresh, fun _ => [])
      (retriedOnce ++ [.act "run" 0 .expire, .act "run" 0 (.deliver 0), .act "run" 0 .call])).map
        (fun s => (s.2 "run").length) = some 2 := by
    decide +kernel
  obtain ⟨s, hrun, hlength⟩ := Option.map_eq_some_iff.mp hend
  have hreach : Reachable Start (exec (prompt .flow)) (fun _ e => CrashFree e) s := by
    refine reachable_of_run (.start ⟨⟨rfl, rfl⟩, rfl⟩) ?_ hrun
    simp [retriedOnce, CrashFree]
  exact ⟨s, hreach, hlength, each_attempt_begins_once hreach "run" "detect"⟩

end Ragent.Attempts
