import Ragent.Consumer

set_option autoImplicit false

/-!
# Lost stages

A row is open while it is pending or running. Some message must bring an open row to its end: the
message of the stage, until it has recorded the outcome, or a delivery that has reserved the stage
as a follower and has yet to publish it. What takes such a message away without its work done
strands the row, since no worker re-queues open rows.
-/
namespace Ragent.StageLoss
open Formats Stages StageStores Runner GuardedRuns Consumer

def Open (rows : StageRows) (σ : String) : Prop :=
  rows.status σ = some .pending ∨ rows.status σ = some .running

instance (rows : StageRows) (σ : String) : Decidable (Open rows σ) :=
  inferInstanceAs (Decidable (_ ∨ _))

section
variable {W H C : Type}

/-- The stages a delivery of a message of `own` will bring to their end, or pass on. -/
def phaseCharge (own : String) : Phase H → List String
  | .received => [own]
  | .handling _ => [own]
  | .completing _ => [own]
  | .failing _ => [own]
  | .retrying _ => [own]
  | .publishing follower rest => (follower :: rest).map (·.stage)
  | _ => []

def charge (t : Token H) : List String :=
  match t.place with
  | .inHand _ phase => phaseCharge t.message.stage phase
  | .dead _ => []
  | _ => [t.message.stage]

/-- The stages whose message an exception of the next call takes away, before or after the call is
    done. -/
def lost (m : StageMessage) (done : Bool) : Phase H → List String
  | .received => [m.stage]
  | .completing _ => if done then [] else [m.stage]
  | .reserving follower rest => if done then (follower :: rest).map (·.stage) else []
  | .publishing follower rest => (if done then rest else follower :: rest).map (·.stage)
  | .failing exc => match planFailure PIPELINE RETRY_DELAYS_MS m exc with
    | .retry _ _ _ => [m.stage]
    | .deadLetter _ => if done then [] else [m.stage]
  | .retrying _ => if done then [] else [m.stage]
  | _ => []

/-- An event strands no row: whatever open row loses a message has another one. Only a crash between
    two publishes and an exception of a call can take a message away. -/
def StrandsNothing (handlers : Handlers W H C) (s : System W H) : Event C → Prop
  | .crash w => ∀ run, ∀ t ∈ (s.runs run).tokens, ∀ follower rest,
      t.place = .inHand w (.publishing follower rest) →
        ∀ σ ∈ (follower :: rest).map (·.stage), Open (s.runs run).record.rows σ →
          ∃ t' ∈ (s.runs run).tokens, σ ∈ charge (t'.release w)
  | .act run i (.callRaises done) => ∀ m w phase,
      (s.runs run).tokens[i]? = some ⟨m, .inHand w phase⟩ → ∀ e,
        callReturns handlers m w (s.runs run).record s.world phase = some e →
          ∀ σ ∈ lost m done phase, Open (if done then e.record else (s.runs run).record).rows σ →
            ∃ j t', j ≠ i ∧ (s.runs run).tokens[j]? = some t' ∧ σ ∈ charge t'
  | _ => True

variable {handlers : Handlers W H C}

theorem publish_charge (m : StageMessage) (w : WorkerId) (followers : List StageMessage) :
    charge (⟨m, .inHand w (publish followers)⟩ : Token H) = followers.map (·.stage) := by
  cases followers <;> rfl

theorem reserve_charge (m : StageMessage) (w : WorkerId) (followers : List StageMessage) :
    charge (⟨m, .inHand w (reserve followers)⟩ : Token H) = [] := by
  cases followers <;> rfl

theorem pickUp_charge {m : StageMessage} (h : m.stage ∈ registeredStages) (w : WorkerId) :
    charge (⟨m, .inHand w (pickUp m)⟩ : Token H) = [m.stage] := by
  rw [pickUp, if_pos h]
  rfl

/-- Whatever is open behind a call is in the charge of the tokens it leaves, or was open before and
    not in the charge of the delivery. -/
theorem callReturns_charge {m : StageMessage} {w : WorkerId} {record : Record} {world : W}
    {phase : Phase H} {e : Effect W H} (h : callReturns handlers m w record world phase = some e)
    {σ : String} (hopen : Open e.record.rows σ) :
    (∃ t ∈ e.own.toList ++ e.sent, σ ∈ charge t) ∨
      (Open record.rows σ ∧ σ ∉ phaseCharge m.stage phase) := by
  have hown : ∀ {rows : StageRows} {status : Option StageStatus},
      rows.status σ = (if σ = m.stage then status else record.rows.status σ) → Open rows σ →
        σ = m.stage ∧ (status = some .pending ∨ status = some .running) ∨
          (Open record.rows σ ∧ σ ∉ [m.stage]) := by
    intro rows status hstatus hopen
    unfold Open at hopen
    rw [hstatus] at hopen
    by_cases hσ : σ = m.stage
    · rw [if_pos hσ] at hopen
      exact Or.inl ⟨hσ, hopen⟩
    · rw [if_neg hσ] at hopen
      exact Or.inr ⟨hopen, by simpa using hσ⟩
  cases phase with
  | received =>
    cases h
    rcases hown (StageRows.status_beginStage _ _ _ σ) hopen with ⟨hσ, -⟩ | h
    · exact Or.inl ⟨_, List.mem_cons_self, by simp [charge, phaseCharge, hσ]⟩
    · exact Or.inr h
  | handling h' => cases h
  | completing m' =>
    cases h
    rcases hown (StageRows.status_completeStage _ _ σ) hopen with ⟨-, hstatus⟩ | h
    · simp at hstatus
    · exact Or.inr h
  | reserving follower rest =>
    cases h
    by_cases hσ : σ ∈ (follower :: rest).map (·.stage)
    · exact Or.inl ⟨_, List.mem_cons_self, hσ⟩
    · unfold Open at hopen
      rw [StageRows.status_markDispatched, if_neg hσ] at hopen
      exact Or.inr ⟨hopen, List.not_mem_nil⟩
  | publishing follower rest =>
    cases h
    by_cases hσ : σ ∈ (follower :: rest).map (·.stage)
    · rw [List.map_cons, List.mem_cons] at hσ
      rcases hσ with hσ | hσ
      · exact Or.inl ⟨⟨follower, .queued⟩, by simp, by simp [charge, hσ]⟩
      · exact Or.inl ⟨_, List.mem_cons_self, by rwa [publish_charge]⟩
    · exact Or.inr ⟨hopen, hσ⟩
  | acking =>
    cases h
    exact Or.inr ⟨hopen, List.not_mem_nil⟩
  | failing exc =>
    obtain ⟨_, _, _, -, rfl⟩ | ⟨_, -, rfl⟩ := callReturns_failing h
    · rcases hown (StageRows.status_failStage _ _ _ _ σ) hopen with ⟨hσ, -⟩ | h
      · exact Or.inl ⟨_, List.mem_cons_self, by simp [charge, phaseCharge, hσ]⟩
      · exact Or.inr h
    · rcases hown (StageRows.status_failStage _ _ _ _ σ) hopen with ⟨-, hstatus⟩ | h
      · simp at hstatus
      · exact Or.inr h
  | condemning reason =>
    cases h
    exact Or.inr ⟨hopen, List.not_mem_nil⟩
  | deadLettering reason =>
    cases h
    exact Or.inr ⟨hopen, List.not_mem_nil⟩
  | retrying delayMs =>
    cases h
    by_cases hσ : σ = m.stage
    · exact Or.inl ⟨⟨m.retried, .delayed delayMs⟩, by simp,
        by simp [charge, StageMessage.retried, hσ]⟩
    · exact Or.inr ⟨hopen, by simpa [phaseCharge] using hσ⟩

/-- What a delivery keeps in its charge behind a call is lost if the call raises once it is done. -/
theorem lost_of_own {m : StageMessage} {w : WorkerId} {record : Record} {world : W}
    {phase : Phase H} {e : Effect W H} (h : callReturns handlers m w record world phase = some e)
    {t : Token H} (ht : e.own = some t) {σ : String} (hσ : σ ∈ charge t) :
    σ ∈ lost m true phase := by
  cases phase with
  | received => cases h; cases ht; exact hσ
  | handling h' => cases h
  | completing m' =>
    cases h
    cases ht
    rw [reserve_charge] at hσ
    exact absurd hσ List.not_mem_nil
  | reserving follower rest =>
    cases h
    cases ht
    exact hσ
  | publishing follower rest =>
    cases h
    cases ht
    rwa [publish_charge] at hσ
  | acking => cases h; cases ht
  | failing exc =>
    obtain ⟨_, _, _, hplan, rfl⟩ | ⟨_, hplan, rfl⟩ := callReturns_failing h
    · cases ht
      simpa [lost, hplan, charge, phaseCharge] using hσ
    · cases ht
      exact absurd hσ List.not_mem_nil
  | condemning reason => cases h; cases ht; exact hσ
  | deadLettering reason => cases h; cases ht; exact hσ
  | retrying delayMs => cases h; cases ht; exact absurd hσ List.not_mem_nil

theorem lost_of_charge {m : StageMessage} {w : WorkerId} {record : Record} {world : W}
    {phase : Phase H} {e : Effect W H} (h : callReturns handlers m w record world phase = some e)
    {σ : String} (hσ : σ ∈ phaseCharge m.stage phase) : σ ∈ lost m false phase := by
  cases phase with
  | handling h' => cases h
  | failing exc =>
    have hown : σ ∈ [m.stage] := hσ
    cases hplan : planFailure PIPELINE RETRY_DELAYS_MS m exc <;> simpa [lost, hplan] using hown
  | _ => exact hσ

theorem turn_charge {live : WorkerId → Option (List String)} {record : Record} {world : W}
    {t : Token H} {a : Act C} {e : Effect W H} (h : Turn handlers live record world t a e)
    (hstage : t.message.stage ∈ registeredStages) {σ : String} (hopen : Open e.record.rows σ) :
    (∃ t' ∈ e.own.toList ++ e.sent, σ ∈ charge t') ∨
      (Open record.rows σ ∧ σ ∉ charge t) ∨
      ∃ m w phase done e', a = .callRaises done ∧ t = ⟨m, .inHand w phase⟩ ∧
        callReturns handlers m w record world phase = some e' ∧ σ ∈ lost m done phase ∧
        Open (if done then e'.record else record).rows σ := by
  have hkept : ∀ t' : Token H, charge t' = charge t → Open record.rows σ →
      (∃ t'' ∈ (some t').toList ++ [], σ ∈ charge t'') ∨ (Open record.rows σ ∧ σ ∉ charge t) := by
    intro t' hsame hopen
    by_cases hσ : σ ∈ charge t
    · exact Or.inl ⟨t', List.mem_cons_self, hsame ▸ hσ⟩
    · exact Or.inr ⟨hopen, hσ⟩
  cases h with
  | deliver => exact (hkept _ (pickUp_charge hstage _) hopen).imp_right Or.inl
  | @work m w _ _ h' =>
    exact (hkept ⟨m, .inHand w (.handling h')⟩ rfl hopen).imp_right Or.inl
  | @finish m w _ family =>
    exact (hkept ⟨m, .inHand w (.completing (family.elim m m.withFamily))⟩ rfl hopen).imp_right
      Or.inl
  | @fail m w _ exc => exact (hkept ⟨m, .inHand w (.failing exc)⟩ rfl hopen).imp_right Or.inl
  | @expire m => exact (hkept ⟨m, .queued⟩ rfl hopen).imp_right Or.inl
  | call hcall => exact (callReturns_charge hcall hopen).imp_right Or.inl
  | @raises m w phase e' done hcall =>
    cases done with
    | false =>
      by_cases hσ : σ ∈ phaseCharge m.stage phase
      · exact Or.inr (Or.inr ⟨m, w, phase, false, e', rfl, rfl, hcall, lost_of_charge hcall hσ, hopen⟩)
      · exact Or.inr (Or.inl ⟨hopen, hσ⟩)
    | true =>
      rcases callReturns_charge hcall hopen with ⟨t', ht', hσ⟩ | hbefore
      · rcases List.mem_append.mp ht' with hown | hsent
        · exact Or.inr (Or.inr ⟨m, w, phase, true, e', rfl, rfl, hcall,
            lost_of_own hcall (Option.mem_toList.mp hown) hσ, hopen⟩)
        · exact Or.inl ⟨t', List.mem_append_right _ hsent, hσ⟩
      · exact Or.inr (Or.inl hbefore)

def Charged (r : RunState H) : Prop :=
  ∀ σ, Open r.record.rows σ → ∃ t ∈ r.tokens, σ ∈ charge t

/-- A turn that strands nothing leaves every open row charged. -/
theorem charged_replace {live : WorkerId → Option (List String)} {world : W} {r : RunState H}
    (hcharged : Charged r) {i : ℕ} {t : Token H} (ht : r.tokens[i]? = some t) {a : Act C}
    {e : Effect W H} (hturn : Turn handlers live r.record world t a e)
    (hstage : t.message.stage ∈ registeredStages)
    (hsafe : ∀ m w phase done e', a = .callRaises done → t = ⟨m, .inHand w phase⟩ →
      callReturns handlers m w r.record world phase = some e' → ∀ σ ∈ lost m done phase,
        Open (if done then e'.record else r.record).rows σ →
          ∃ j t', j ≠ i ∧ r.tokens[j]? = some t' ∧ σ ∈ charge t') :
    Charged (r.replace i e) := by
  intro σ hopen
  rcases turn_charge hturn hstage hopen with ⟨t', ht', hσ⟩ | ⟨hbefore, hother⟩ |
    ⟨m, w, phase, done, e', ha, htok, hcall, hlost, hafter⟩
  · exact ⟨t', mem_replace.mpr (Or.inl ht'), hσ⟩
  · obtain ⟨t', ht', hσ⟩ := hcharged σ hbefore
    obtain ⟨j, hj⟩ := List.mem_iff_getElem?.mp ht'
    refine ⟨t', mem_replace.mpr (Or.inr ⟨j, fun hji => ?_, hj⟩), hσ⟩
    rw [hji, ht, Option.some.injEq] at hj
    exact hother (hj ▸ hσ)
  · obtain ⟨j, t', hne, hj, hσ⟩ := hsafe m w phase done e' ha htok hcall σ hlost hafter
    exact ⟨t', mem_replace.mpr (Or.inr ⟨j, hne, hj⟩), hσ⟩

theorem charge_release {w : WorkerId} {t : Token H} {σ : String} (h : σ ∈ charge t) :
    σ ∈ charge (t.release w) ∨
      ∃ follower rest, t.place = .inHand w (.publishing follower rest) ∧
        σ ∈ (follower :: rest).map (·.stage) := by
  obtain ⟨m, place⟩ := t
  cases place with
  | inHand w' phase =>
    by_cases hw : w' = w
    · subst hw
      unfold Token.release
      simp only [if_true]
      cases phase <;> simp_all [charge, phaseCharge]
    · unfold Token.release
      simp only [if_neg hw]
      exact Or.inl h
  | _ => exact Or.inl h

theorem charged_of_reachable {s : System W H}
    (h : Reachable Initial (exec handlers) (StrandsNothing handlers) s) (run : String) :
    Charged (s.runs run) := by
  induction h with
  | start hinit =>
    intro σ hopen
    rw [hinit.2] at hopen
    simp [Open, StageRows.status_empty] at hopen
  | @next s s' e hreach hok hexec ih =>
    rcases run_cases hexec run with ⟨heq, -⟩ | ⟨_, _, _, -, -, heq⟩ | ⟨w, rfl, heq⟩ |
      ⟨i, a, t, eff, rfl, ht, hturn, heq⟩
    · exact heq ▸ ih
    · rw [heq]
      intro σ hopen
      obtain ⟨t, ht, hσ⟩ := ih σ hopen
      exact ⟨t, List.mem_append_left _ ht, hσ⟩
    · rw [heq]
      intro σ hopen
      obtain ⟨t, ht, hσ⟩ := ih σ hopen
      rcases charge_release hσ with hσ | ⟨follower, rest, hplace, hσ⟩
      · exact ⟨t.release w, List.mem_map_of_mem ht, hσ⟩
      · obtain ⟨t', ht', hσ'⟩ := hok run t ht follower rest hplace σ hσ hopen
        exact ⟨t'.release w, List.mem_map_of_mem ht', hσ'⟩
    · rw [heq]
      apply charged_replace ih ht hturn
      · exact stages_registered hreach run t (List.mem_of_getElem? ht) _ List.mem_cons_self
      · rintro m w phase done e' rfl rfl hcall σ hlost hopen
        exact hok m w phase ht e' hcall σ hlost hopen

/-- A message of the stage waits in its queue or a retry queue, or is in the hands of a live
    worker. -/
def HasMessage (s : System W H) (run σ : String) : Prop :=
  ∃ t ∈ (s.runs run).tokens, t.message.stage = σ ∧ match t.place with
    | .queued => True
    | .delayed _ => True
    | .inHand w _ => (s.live w).isSome
    | .dead _ => False

/-- In runs that strand nothing every open row has a message exactly if those have one that a
    delivery has reserved and is about to publish. -/
theorem open_rows_have_messages_iff {s : System W H}
    (h : Reachable Initial (exec handlers) (StrandsNothing handlers) s) (run : String) :
    (∀ σ, Open (s.runs run).record.rows σ → HasMessage s run σ) ↔
      ∀ t ∈ (s.runs run).tokens, ∀ w follower rest,
        t.place = .inHand w (.publishing follower rest) → ∀ σ ∈ (follower :: rest).map (·.stage),
          Open (s.runs run).record.rows σ → HasMessage s run σ := by
  constructor
  · intro hall t _ w follower rest _ σ _ hopen
    exact hall σ hopen
  · intro hreserved σ hopen
    obtain ⟨t, ht, hσ⟩ := charged_of_reachable h run σ hopen
    have hlive := live_of_inHand h run t ht
    have hsame := hreserved t ht
    obtain ⟨m, place⟩ := t
    cases place with
    | queued =>
      rw [List.mem_singleton.mp hσ]
      exact ⟨_, ht, rfl, trivial⟩
    | delayed ms =>
      rw [List.mem_singleton.mp hσ]
      exact ⟨_, ht, rfl, trivial⟩
    | dead reason => exact absurd hσ List.not_mem_nil
    | inHand w phase =>
      by_cases hown : σ = m.stage
      · exact ⟨_, ht, hown.symm, hlive w phase rfl⟩
      · cases phase with
        | publishing follower rest => exact hsame w follower rest rfl σ hσ hopen
        | _ => simp [charge, phaseCharge, hown] at hσ

end

/-- The worker dies once `parse` is reserved; the next one finds it dispatched already. -/
def crashBeforePublish : List (Event Unit) :=
  [.upload "document" "run" "v1" "trace", .start 0 everyStage, .act "run" 0 (.deliver 0),
    .act "run" 0 .call, .act "run" 0 .finish, .act "run" 0 .call, .act "run" 0 .call, .crash 0,
    .start 0 everyStage, .act "run" 0 (.deliver 0), .act "run" 0 .call, .act "run" 0 .finish,
    .act "run" 0 .call, .act "run" 0 .call]

theorem a_reserved_stage_is_lost :
    ∃ s, Reachable Initial (exec (prompt .pdf)) (fun _ _ => True) s ∧
      Open (s.runs "run").record.rows "parse" ∧ ¬ HasMessage s "run" "parse" := by
  have hend : (run (exec (prompt .pdf)) fresh crashBeforePublish).map (fun s =>
      ((s.runs "run").tokens.length, (s.runs "run").record.rows.status "parse")) =
        some (0, some .pending) := by
    decide +kernel
  obtain ⟨s, hrun, heq⟩ := Option.map_eq_some_iff.mp hend
  obtain ⟨htokens, hstatus⟩ := Prod.mk.inj heq
  refine ⟨s, reachable_of_run (.start ⟨rfl, rfl⟩) (fun _ _ _ => trivial) hrun, Or.inl hstatus, ?_⟩
  rintro ⟨t, ht, -⟩
  rw [List.length_eq_zero_iff.mp htokens] at ht
  exact absurd ht List.not_mem_nil

def handled : Token Unit → Bool
  | ⟨_, .inHand _ (.handling _)⟩ => true
  | _ => false

theorem a_running_stage_has_its_message :
    ∃ s, Reachable Initial (exec (prompt .pdf)) (StrandsNothing (prompt .pdf)) s ∧
      Open (s.runs "run").record.rows "detect" ∧
      ∀ σ, Open (s.runs "run").record.rows σ → HasMessage s "run" σ := by
  have hend : (run (exec (prompt .pdf)) fresh (crashBeforePublish.take 4)).map (fun s =>
      ((s.runs "run").record.rows.status "detect", (s.runs "run").tokens.map handled)) =
        some (some .running, [true]) := by
    decide +kernel
  obtain ⟨s, hrun, heq⟩ := Option.map_eq_some_iff.mp hend
  obtain ⟨hstatus, htokens⟩ := Prod.mk.inj heq
  have hreach : Reachable Initial (exec (prompt .pdf)) (StrandsNothing (prompt .pdf)) s := by
    refine reachable_of_run (.start ⟨rfl, rfl⟩) ?_ hrun
    intro e he u
    simp only [crashBeforePublish, List.take_succ_cons, List.take_zero, List.mem_cons,
      List.not_mem_nil, or_false] at he
    rcases he with rfl | rfl | rfl | rfl <;> trivial
  refine ⟨s, hreach, Or.inr hstatus, (open_rows_have_messages_iff hreach "run").mpr ?_⟩
  intro t ht w follower rest hplace
  have hmem := List.mem_map_of_mem (f := handled) ht
  rw [htokens, List.mem_singleton] at hmem
  unfold handled at hmem
  split at hmem
  · cases hplace
  · cases hmem

end Ragent.StageLoss
