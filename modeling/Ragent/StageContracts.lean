import Ragent.StageOrder

set_option autoImplicit false

/-!
# Contracts between stages

What a handler may rely on when it starts, and what it owes once it has returned. A contract is kept
along every run if each move keeps it: whatever a stage depends on has been done by then.
-/
namespace Ragent.StageContracts
open Formats Stages StageStores Runner GuardedRuns Consumer StageOrder

section
variable {W H C : Type}

/-- What is asserted of the world, of a message, of an execution and of a completion. -/
structure Terms (W H : Type) where
  Holds : W → Prop
  Given : W → StageMessage → Prop
  During : W → StageMessage → H → Prop
  Done : W → StageMessage → Prop

structure Terms.Kept (terms : Terms W H) (world world' : W) : Prop where
  holds : terms.Holds world'
  given : ∀ m, terms.Given world m → terms.Given world' m
  during : ∀ m h, terms.During world m h → terms.During world' m h
  done : ∀ m, terms.Done world m → terms.Done world' m

structure Contract (handlers : Handlers W H C) extends Terms W H where
  uploaded : ∀ world documentId runId pipelineVersion traceId, Holds world →
    Given world (uploadMessage documentId runId pipelineVersion traceId)
  /-- A handler starts behind what its stage depends on. -/
  start : ∀ world log m, Holds world → Given world m →
    (∀ c ∈ log, Done world c ∧ c.documentId = m.documentId) → RestsOn log m →
      During world m (handlers.start m)
  move : ∀ world m c h h' world', Holds world → During world m h →
    handlers.move m c (h, world) = some (h', world') →
      toTerms.Kept world world' ∧ During world' m h'
  finish : ∀ world m h family, Holds world → During world m h → handlers.result m h = some family →
    Done world (family.elim m m.withFamily)
  follow : ∀ world m stage, Done world m → Given world (m.forStage stage)
  retry : ∀ world m, Given world m → Given world m.retried
  condemn : ∀ world documentId, Holds world →
    toTerms.Kept world (handlers.failDocument documentId world)

theorem Terms.Kept.refl {terms : Terms W H} {world : W} (h : terms.Holds world) :
    terms.Kept world world :=
  ⟨h, fun _ h => h, fun _ _ h => h, fun _ h => h⟩

structure Terms.Keeps (terms : Terms W H) (world : W) (t : Token H) : Prop where
  given : terms.Given world t.message
  handling : ∀ w h, t.place = .inHand w (.handling h) → terms.During world t.message h
  completing : ∀ w m, t.place = .inHand w (.completing m) → terms.Done world m
  reserving : ∀ w follower rest, t.place = .inHand w (.reserving follower rest) →
    ∀ f ∈ follower :: rest, terms.Given world f
  publishing : ∀ w follower rest, t.place = .inHand w (.publishing follower rest) →
    ∀ f ∈ follower :: rest, terms.Given world f

section
variable {terms : Terms W H} {world world' : W} {t : Token H} {m : StageMessage} {w : WorkerId}

theorem Terms.Keeps.mono (h : terms.Keeps world t) (hkept : terms.Kept world world') :
    terms.Keeps world' t where
  given := hkept.given _ h.given
  handling w k hplace := hkept.during _ _ (h.handling w k hplace)
  completing w m hplace := hkept.done _ (h.completing w m hplace)
  reserving w follower rest hplace f hf := hkept.given _ (h.reserving w follower rest hplace f hf)
  publishing w follower rest hplace f hf := hkept.given _ (h.publishing w follower rest hplace f hf)

def Bare : Place H → Prop
  | .inHand _ (.handling _) => False
  | .inHand _ (.completing _) => False
  | .inHand _ (.reserving _ _) => False
  | .inHand _ (.publishing _ _) => False
  | _ => True

theorem Terms.Keeps.of_bare {place : Place H} (hgiven : terms.Given world m) (hbare : Bare place) :
    terms.Keeps world ⟨m, place⟩ := by
  refine ⟨hgiven, ?_, ?_, ?_, ?_⟩
  · rintro w h ⟨⟩
    exact hbare.elim
  · rintro w m' ⟨⟩
    exact hbare.elim
  · rintro w follower rest ⟨⟩
    exact hbare.elim
  · rintro w follower rest ⟨⟩
    exact hbare.elim

theorem Terms.Keeps.of_reserve {followers : List StageMessage} (hgiven : terms.Given world m)
    (hfollowers : ∀ f ∈ followers, terms.Given world f) :
    terms.Keeps world ⟨m, .inHand w (reserve followers)⟩ := by
  cases followers with
  | nil => exact .of_bare hgiven trivial
  | cons follower rest =>
    refine ⟨hgiven, nofun, nofun, ?_, nofun⟩
    rintro w' _ _ ⟨⟩
    exact hfollowers

theorem Terms.Keeps.of_publish {followers : List StageMessage} (hgiven : terms.Given world m)
    (hfollowers : ∀ f ∈ followers, terms.Given world f) :
    terms.Keeps world ⟨m, .inHand w (publish followers)⟩ := by
  cases followers with
  | nil => exact .of_bare hgiven trivial
  | cons follower rest =>
    refine ⟨hgiven, nofun, nofun, nofun, ?_⟩
    rintro w' _ _ ⟨⟩
    exact hfollowers

end

variable {handlers : Handlers W H C} {K : Contract handlers} {record : Record}
  {log : List StageMessage} {m : StageMessage} {w : WorkerId} {world : W} {phase : Phase H}
  {t : Token H} {e : Effect W H} {a : Act C}

structure Honoured (K : Contract handlers) (world : W) (completions : List StageMessage)
    (e : Effect W H) : Prop where
  kept : K.Kept world e.world
  completed : ∀ c ∈ completions, K.Done e.world c
  tokens : ∀ t ∈ e.own.toList ++ e.sent, K.Keeps e.world t

theorem honoured_of_call (hcall : callReturns handlers m w record world phase = some e)
    (hholds : K.Holds world) (hkeeps : K.Keeps world ⟨m, .inHand w phase⟩)
    (hlog : ∀ c ∈ log, K.Done world c ∧ c.documentId = m.documentId) (hrests : RestsOn log m) :
    Honoured K world (completionOf ⟨m, .inHand w phase⟩ (.call : Act C)) e := by
  have hsame : K.Kept world world := .refl hholds
  have hgiven : K.Given world m := hkeeps.given
  cases phase with
  | received =>
    cases hcall
    refine ⟨hsame, List.forall_mem_nil _,
      List.forall_mem_singleton.mpr ⟨hgiven, ?_, nofun, nofun, nofun⟩⟩
    rintro _ _ ⟨⟩
    exact K.start world log m hholds hgiven hlog hrests
  | handling h' => cases hcall
  | completing m' =>
    cases hcall
    have hdone : K.Done world m' := hkeeps.completing w m' rfl
    refine ⟨hsame, List.forall_mem_singleton.mpr hdone, List.forall_mem_singleton.mpr ?_⟩
    apply Terms.Keeps.of_reserve hgiven
    intro f hf
    rcases mem_nextMessages.mp hf with ⟨stage, -, rfl⟩
    exact K.follow world m' stage.name hdone
  | reserving follower rest =>
    cases hcall
    refine ⟨hsame, List.forall_mem_nil _,
      List.forall_mem_singleton.mpr ⟨hgiven, nofun, nofun, nofun, ?_⟩⟩
    rintro _ _ _ ⟨⟩
    exact hkeeps.reserving w follower rest rfl
  | publishing follower rest =>
    cases hcall
    have hfollowers := hkeeps.publishing w follower rest rfl
    refine ⟨hsame, List.forall_mem_nil _, ?_⟩
    simp only [Option.toList_some, List.singleton_append, List.forall_mem_cons]
    refine ⟨?_, .of_bare (hfollowers follower List.mem_cons_self) trivial, List.forall_mem_nil _⟩
    exact .of_publish hgiven fun f hf => hfollowers f (List.mem_cons_of_mem _ hf)
  | acking =>
    cases hcall
    exact ⟨hsame, List.forall_mem_nil _, List.forall_mem_nil _⟩
  | failing exc =>
    obtain ⟨_, _, _, -, rfl⟩ | ⟨_, -, rfl⟩ := callReturns_failing hcall
    · exact ⟨hsame, List.forall_mem_nil _, List.forall_mem_singleton.mpr (.of_bare hgiven trivial)⟩
    · exact ⟨hsame, List.forall_mem_nil _, List.forall_mem_singleton.mpr (.of_bare hgiven trivial)⟩
  | condemning reason =>
    cases hcall
    have hkept := K.condemn world m.documentId hholds
    exact ⟨hkept, List.forall_mem_nil _,
      List.forall_mem_singleton.mpr (.of_bare (hkept.given m hgiven) trivial)⟩
  | deadLettering reason =>
    cases hcall
    refine ⟨hsame, List.forall_mem_nil _, ?_⟩
    simp only [Option.toList_some, List.singleton_append, List.forall_mem_cons]
    exact ⟨.of_bare hgiven trivial, .of_bare hgiven trivial, List.forall_mem_nil _⟩
  | retrying delayMs =>
    cases hcall
    refine ⟨hsame, List.forall_mem_nil _, ?_⟩
    simp only [Option.toList_some, List.singleton_append, List.forall_mem_cons]
    exact ⟨.of_bare hgiven trivial, .of_bare (K.retry world m hgiven) trivial, List.forall_mem_nil _⟩

theorem honoured_of_turn {live : WorkerId → Option (List String)}
    (h : Turn handlers live record world t a e) (hholds : K.Holds world) (hkeeps : K.Keeps world t)
    (hlog : ∀ c ∈ log, K.Done world c ∧ c.documentId = t.message.documentId)
    (hrests : RestsOn log t.message) : Honoured K world (completionOf t a) e := by
  have hsame : K.Kept world world := .refl hholds
  have hgiven : K.Given world t.message := hkeeps.given
  cases h with
  | deliver =>
    refine ⟨hsame, List.forall_mem_nil _, List.forall_mem_singleton.mpr (.of_bare hgiven ?_)⟩
    unfold pickUp
    split_ifs <;> trivial
  | @work m w c k k' world' hmove =>
    have hduring : K.During world m k := hkeeps.handling w k rfl
    obtain ⟨hkept, hnext⟩ := K.move world m c k k' world' hholds hduring hmove
    refine ⟨hkept, List.forall_mem_nil _,
      List.forall_mem_singleton.mpr ⟨hkept.given m hgiven, ?_, nofun, nofun, nofun⟩⟩
    rintro _ _ ⟨⟩
    exact hnext
  | @finish m w k family hresult =>
    have hduring : K.During world m k := hkeeps.handling w k rfl
    refine ⟨hsame, List.forall_mem_nil _,
      List.forall_mem_singleton.mpr ⟨hgiven, nofun, ?_, nofun, nofun⟩⟩
    rintro _ _ ⟨⟩
    exact K.finish world m k family hholds hduring hresult
  | fail =>
    exact ⟨hsame, List.forall_mem_nil _,
      List.forall_mem_singleton.mpr (.of_bare hgiven trivial)⟩
  | expire =>
    exact ⟨hsame, List.forall_mem_nil _,
      List.forall_mem_singleton.mpr (.of_bare hgiven trivial)⟩
  | call hcall => exact honoured_of_call hcall hholds hkeeps hlog hrests
  | @raises m w phase e' done hcall =>
    cases done with
    | false =>
      exact ⟨hsame, List.forall_mem_nil _,
        List.forall_mem_singleton.mpr (.of_bare hgiven trivial)⟩
    | true =>
      have hhonoured := honoured_of_call (C := C) hcall hholds hkeeps hlog hrests
      refine ⟨hhonoured.kept, hhonoured.completed, fun t' ht' => ?_⟩
      rcases List.mem_append.mp ht' with hown | hsent
      · obtain ⟨t'', ht'', rfl⟩ := Option.map_eq_some_iff.mp (Option.mem_toList.mp hown)
        have hold := hhonoured.tokens t'' (List.mem_append_left _ (Option.mem_toList.mpr ht''))
        exact .of_bare hold.given trivial
      · exact hhonoured.tokens t' (List.mem_append_right _ hsent)

/-- The contract along a run: what is in the log is done, and the tokens are as asserted. -/
structure Agreed (K : Contract handlers) (s : System W H × (String → List StageMessage)) : Prop where
  holds : K.Holds s.1.world
  log : ∀ run, ∀ c ∈ s.2 run, K.Done s.1.world c
  tokens : ∀ run, ∀ t ∈ (s.1.runs run).tokens, K.Keeps s.1.world t

theorem Agreed.mono {s : System W H × (String → List StageMessage)} (h : Agreed K s) {world' : W}
    (hkept : K.Kept s.1.world world') :
    (∀ run, ∀ c ∈ s.2 run, K.Done world' c) ∧
      ∀ run, ∀ t ∈ (s.1.runs run).tokens, K.Keeps world' t :=
  ⟨fun run c hc => hkept.done c (h.log run c hc), fun run t ht => (h.tokens run t ht).mono hkept⟩

theorem keeps_release {terms : Terms W H} (h : terms.Keeps world t) (w : WorkerId) :
    terms.Keeps world (t.release w) := by
  unfold Token.release
  split
  · split_ifs
    · exact .of_bare h.given trivial
    · exact h
  · exact h

theorem agreed_of_reachable {init : System W H × (String → List StageMessage) → Prop}
    (hinit : ∀ s, init s → Start s ∧ K.Holds s.1.world)
    {s : System W H × (String → List StageMessage)}
    (h : Reachable init (StageOrder.exec handlers) (fun _ _ => True) s) :
    Reachable Start (StageOrder.exec handlers) (fun _ _ => True) s ∧ Agreed K s := by
  induction h with
  | @start s hstart =>
    obtain ⟨hfresh, hholds⟩ := hinit s hstart
    refine ⟨.start hfresh, hholds, ?_, ?_⟩
    · simp [hfresh.2]
    · simp [hfresh.1.2]
  | @next s t e _ _ hexec ih =>
    obtain ⟨hreach, hagreed⟩ := ih
    refine ⟨hreach.next trivial hexec, ?_⟩
    obtain ⟨s', hs', rfl⟩ := Option.map_eq_some_iff.mp hexec
    cases e with
    | upload documentId runId pipelineVersion traceId =>
      simp only [Consumer.exec, Option.ite_none_right_eq_some, Option.some.injEq] at hs'
      obtain ⟨-, rfl⟩ := hs'
      refine ⟨hagreed.holds, hagreed.log, fun run t ht => ?_⟩
      by_cases hrun : run = runId
      · subst hrun
        change t ∈ (Function.update s.1.runs run _ run).tokens at ht
        rw [Function.update_self] at ht
        rcases List.mem_append.mp ht with hold | hnew
        · exact hagreed.tokens run t hold
        · rw [List.mem_singleton.mp hnew]
          exact .of_bare (K.uploaded _ _ _ _ _ hagreed.holds) trivial
      · change t ∈ (Function.update s.1.runs runId _ run).tokens at ht
        rw [Function.update_of_ne hrun] at ht
        exact hagreed.tokens run t ht
    | start w stages =>
      simp only [Consumer.exec, Option.ite_none_right_eq_some, Option.some.injEq] at hs'
      obtain ⟨-, rfl⟩ := hs'
      exact ⟨hagreed.holds, hagreed.log, hagreed.tokens⟩
    | crash w =>
      simp only [Consumer.exec, Option.ite_none_left_eq_some, Option.some.injEq] at hs'
      obtain ⟨-, rfl⟩ := hs'
      refine ⟨hagreed.holds, hagreed.log, fun run t ht => ?_⟩
      obtain ⟨t', ht', rfl⟩ := List.mem_map.mp ht
      exact keeps_release (hagreed.tokens run t' ht') w
    | act run i a =>
      obtain ⟨t, ht, hact⟩ := Option.bind_eq_some_iff.mp hs'
      obtain ⟨eff, heff, rfl⟩ := Option.map_eq_some_iff.mp hact
      have hmem := List.mem_of_getElem? ht
      have hinOrder := inOrder_of_reachable hreach run
      have hplaced := hinOrder.tokens t hmem
      have hlog : ∀ c ∈ s.2 run, K.Done s.1.world c ∧ c.documentId = t.message.documentId := by
        intro c hc
        obtain ⟨first, hfirst, hdocument, -⟩ := hinOrder.logged.origin c hc
        obtain ⟨first', hfirst', hdocument', -⟩ := hplaced.own_origin
        rw [hfirst] at hfirst'
        cases hfirst'
        exact ⟨hagreed.log run c hc, hdocument.trans hdocument'.symm⟩
      have hhonoured := honoured_of_turn (turn_of_act heff) hagreed.holds
        (hagreed.tokens run t hmem) hlog hplaced.own_rests
      obtain ⟨hdone, hkeeps⟩ := hagreed.mono hhonoured.kept
      refine ⟨hhonoured.kept.holds, fun run' c hc => ?_, fun run' t' ht' => ?_⟩
      · change c ∈ noteCompletion s.1 (.act run i a) s.2 run' at hc
        by_cases hrun : run' = run
        · subst hrun
          rw [noteCompletion_act ht] at hc
          rcases List.mem_append.mp hc with hold | hnew
          · exact hdone run' c hold
          · exact hhonoured.completed c hnew
        · rw [noteCompletion_other (by simp [Ne.symm hrun])] at hc
          exact hdone run' c hc
      · change t' ∈ (Function.update s.1.runs run _ run').tokens at ht'
        by_cases hrun : run' = run
        · subst hrun
          rw [Function.update_self] at ht'
          rcases mem_replace.mp ht' with hnew | ⟨j, -, hj⟩
          · exact hhonoured.tokens t' hnew
          · exact hkeeps run' t' (List.mem_of_getElem? hj)
        · rw [Function.update_of_ne hrun] at ht'
          exact hkeeps run' t' ht'

end
end Ragent.StageContracts
