import Ragent.Consumer
import Ragent.Resume

set_option autoImplicit false

/-!
# The calls of the consumers

The stage table of the ingest system is the one its calls on the store leave behind, and the calls
on a run, with crashes, exceptions and redeliveries, are a consumer's history.
-/
namespace Ragent.ConsumerHistories
open Formats Stages StageStores Runner GuardedRuns Consumer Resume

section
variable {W H C : Type}

def storeCall (run : String) (m : StageMessage) : Phase H → List (StoreCall String)
  | .received => [.beginStage run m.stage m.attempt]
  | .completing _ => [.completeStage run m.stage]
  | .reserving follower rest => [.markDispatched run ((follower :: rest).map (·.stage))]
  | .failing exc => match planFailure PIPELINE RETRY_DELAYS_MS m exc with
    | .retry _ _ _ => [.failStage run m.stage exc.describe false]
    | .deadLetter reason => [.failStage run m.stage reason true]
  | _ => []

def tokenCall (run : String) (t : Token H) : List (StoreCall String) :=
  match t.place with
  | .inHand _ phase => storeCall run t.message phase
  | _ => []

/-- A call that raises once it is done is made as well. -/
def actCalls (run : String) (t : Token H) : Act C → List (StoreCall String)
  | .call => tokenCall run t
  | .callRaises true => tokenCall run t
  | _ => []

def storeCalls (s : System W H) : Event C → List (StoreCall String)
  | .act run i a => ((s.runs run).tokens[i]?).elim [] fun t => actCalls run t a
  | _ => []

variable (handlers : Handlers W H C)

def exec : System W H × List (StoreCall String) → Event C →
    Option (System W H × List (StoreCall String)) :=
  recorded (Consumer.exec handlers) fun s e calls => calls ++ storeCalls s e

def Start (s : System W H × List (StoreCall String)) : Prop := Initial s.1 ∧ s.2 = []

/-- `detect` finds what the document of the run is, as often as it runs. -/
def Steady (familyOf : String → FormatFamily) (s : System W H) (e : Event C) : Prop :=
  ∀ run i m w h found, e = .act run i .finish →
    (s.runs run).tokens[i]? = some ⟨m, .inHand w (.handling h)⟩ →
      handlers.result m h = some (some found) → found = familyOf run

end

def table (calls : List (StoreCall String)) : PostgresStageStore String :=
  PostgresStageStore.run (fun _ => true) calls

def rowsAfter (rows : StageRows) : StoreCall String → StageRows
  | .markDispatched _ stages => if stages = [] then rows else rows.markDispatched stages
  | .beginStage _ stage attempt => rows.beginStage stage attempt
  | .completeStage _ stage => rows.completeStage stage
  | .failStage _ stage error permanent => rows.failStage stage error permanent

theorem rows_snoc (calls : List (StoreCall String)) (c : StoreCall String) (run : String) :
    (table (calls ++ [c])).rows run =
      if c.runOf = run then rowsAfter ((table calls).rows run) c else (table calls).rows run := by
  have hknown : (table calls).known run = true := by rw [table, PostgresStageStore.run_known]
  rw [table, PostgresStageStore.run_snoc, ← table]
  cases c with
  | markDispatched run' stages =>
    unfold PostgresStageStore.call rowsAfter
    simp only
    by_cases hnil : stages = []
    · rw [if_pos hnil, if_pos hnil, Option.getD_some, ite_self]
    · rw [if_neg hnil, if_neg hnil, PostgresStageStore.execute_rows]
      simp only [hknown, and_true]
      rfl
  | _ =>
    unfold PostgresStageStore.call
    rw [PostgresStageStore.execute_rows]
    simp only [hknown, and_true]
    rfl

theorem rows_append {calls more : List (StoreCall String)} {run : String}
    (hothers : ∀ c ∈ more, c.runOf ≠ run) :
    (table (calls ++ more)).rows run = (table calls).rows run := by
  induction more using List.reverseRecOn with
  | nil => rw [List.append_nil]
  | append_singleton more c ih =>
    rw [← List.append_assoc, rows_snoc, if_neg (hothers c (by simp))]
    exact ih fun c' hc' => hothers c' (List.mem_append_left _ hc')

section
variable {W H C : Type}

abbrev History (run : String) (family : FormatFamily) : List (StoreCall String) → Prop :=
  ConsumerHistory (fun calls => (table calls).snapshot run) run family

def Marked (run : String) (calls : List (StoreCall String)) (stage : String) : Prop :=
  stage = "detect" ∨ ∃ stages, .markDispatched run stages ∈ calls ∧ stage ∈ stages

def Begun (run : String) (calls : List (StoreCall String)) (stage : String) : Prop :=
  ∃ attempt, .beginStage run stage attempt ∈ calls

def Backed (run : String) (family : FormatFamily) (calls : List (StoreCall String)) (stage : String) :
    Phase H → Prop
  | .handling _ => Begun run calls stage
  | .failing _ => Begun run calls stage
  | .completing m => Begun run calls stage ∧ m.family = family
  | .reserving follower rest => (∀ f ∈ follower :: rest, f.family = family) ∧
      ∃ early, early <+: calls ∧ (follower :: rest).map (·.stage) =
        (readyStages PIPELINE family ((table early).snapshot run).completed
          ((table early).snapshot run).dispatched).map (·.name)
  | .publishing follower rest => ∀ f ∈ follower :: rest, f.family = family ∧ Marked run calls f.stage
  | _ => True

structure Justified (run : String) (family : FormatFamily) (calls : List (StoreCall String))
    (t : Token H) : Prop where
  marked : Marked run calls t.message.stage
  detected : t.message.stage ≠ "detect" → t.message.family = family
  place : ∀ w phase, t.place = .inHand w phase → Backed run family calls t.message.stage phase

variable {run : String} {family : FormatFamily} {calls calls' : List (StoreCall String)}
  {handlers : Handlers W H C} {m : StageMessage} {w : WorkerId} {record : Record} {world : W}
  {phase : Phase H} {e : Effect W H} {t : Token H}

theorem Marked.mono {stage : String} (h : Marked run calls stage) (hpre : calls <+: calls') :
    Marked run calls' stage :=
  h.imp_right fun ⟨stages, hcall, hmem⟩ => ⟨stages, hpre.subset hcall, hmem⟩

theorem Begun.mono {stage : String} (h : Begun run calls stage) (hpre : calls <+: calls') :
    Begun run calls' stage :=
  h.imp fun _ hcall => hpre.subset hcall

theorem Backed.mono {stage : String} (h : Backed run family calls stage phase)
    (hpre : calls <+: calls') : Backed run family calls' stage phase := by
  cases phase with
  | handling h' => exact Begun.mono h hpre
  | failing exc => exact Begun.mono h hpre
  | completing m' => exact ⟨h.1.mono hpre, h.2⟩
  | reserving follower rest =>
    obtain ⟨hfamily, early, hearly, heq⟩ := h
    exact ⟨hfamily, early, hearly.trans hpre, heq⟩
  | publishing follower rest => exact fun f hf => ⟨(h f hf).1, (h f hf).2.mono hpre⟩
  | _ => trivial

theorem Justified.mono (h : Justified run family calls t) (hpre : calls <+: calls') :
    Justified run family calls' t where
  marked := h.marked.mono hpre
  detected := h.detected
  place w phase hplace := (h.place w phase hplace).mono hpre

/-- A message out of everybody's hands needs no more than its reservation. -/
theorem Justified.of_idle {place : Place H} (hmarked : Marked run calls m.stage)
    (hfamily : m.stage ≠ "detect" → m.family = family) (hplace : ∀ w phase, place ≠ .inHand w phase) :
    Justified run family calls ⟨m, place⟩ :=
  ⟨hmarked, hfamily, fun w phase h => absurd h (hplace w phase)⟩

theorem Justified.of_backed (hmarked : Marked run calls m.stage)
    (hfamily : m.stage ≠ "detect" → m.family = family)
    (hbacked : Backed run family calls m.stage phase) :
    Justified run family calls ⟨m, .inHand w phase⟩ :=
  ⟨hmarked, hfamily, fun _ _ h => by cases h; exact hbacked⟩

theorem history_of_call (h : callReturns handlers m w record world phase = some e)
    (hkept : History run family calls) (hjust : Justified run family calls ⟨m, .inHand w phase⟩) :
    History run family (calls ++ storeCall run m phase) := by
  have hbacked := hjust.place w phase rfl
  cases phase with
  | received => exact hkept.begin m.attempt hjust.marked
  | completing m' =>
    obtain ⟨⟨attempt, hbegun⟩, -⟩ := hbacked
    exact hkept.complete hbegun
  | reserving follower rest =>
    obtain ⟨-, early, hearly, heq⟩ := hbacked
    rw [storeCall, heq]
    exact hkept.reserve hearly
  | failing exc =>
    obtain ⟨attempt, hbegun⟩ := hbacked
    obtain ⟨_, _, _, hplan, -⟩ | ⟨_, hplan, -⟩ := callReturns_failing h
    · simp only [storeCall, hplan]
      exact hkept.fail _ _ hbegun
    · simp only [storeCall, hplan]
      exact hkept.fail _ _ hbegun
  | _ => simpa only [storeCall, List.append_nil] using hkept

theorem rows_of_call (h : callReturns handlers m w record world phase = some e)
    (hrows : record.rows = (table calls).rows run) :
    e.record.rows = (table (calls ++ storeCall run m phase)).rows run := by
  cases phase with
  | received =>
    cases h
    rw [storeCall, rows_snoc, ← hrows]
    exact (if_pos rfl).symm
  | handling h' => cases h
  | completing m' =>
    cases h
    rw [storeCall, rows_snoc, ← hrows]
    exact (if_pos rfl).symm
  | reserving follower rest =>
    cases h
    rw [storeCall, rows_snoc, ← hrows]
    exact (if_pos rfl).symm
  | failing exc =>
    obtain ⟨_, _, _, hplan, rfl⟩ | ⟨_, hplan, rfl⟩ := callReturns_failing h
    · simp only [storeCall, hplan]
      rw [rows_snoc, ← hrows]
      exact (if_pos rfl).symm
    · simp only [storeCall, hplan]
      rw [rows_snoc, ← hrows]
      exact (if_pos rfl).symm
  | _ =>
    cases h
    simpa only [storeCall, List.append_nil] using hrows

theorem backed_reserve {stage : String} {followers : List StageMessage}
    (hfamily : ∀ f ∈ followers, f.family = family)
    (hready : followers.map (·.stage) =
      (readyStages PIPELINE family ((table calls).snapshot run).completed
        ((table calls).snapshot run).dispatched).map (·.name)) :
    Backed (H := H) run family calls stage (reserve followers) := by
  cases followers with
  | nil => trivial
  | cons follower rest => exact ⟨hfamily, calls, List.prefix_refl calls, hready⟩

theorem backed_publish {stage : String} {followers : List StageMessage}
    (h : ∀ f ∈ followers, f.family = family ∧ Marked run calls f.stage) :
    Backed (H := H) run family calls stage (Consumer.publish followers) := by
  cases followers with
  | nil => trivial
  | cons follower rest => exact h

theorem justified_of_call (h : callReturns handlers m w record world phase = some e)
    (hjust : Justified run family calls ⟨m, .inHand w phase⟩)
    (hrows : record.rows = (table calls).rows run) :
    ∀ t ∈ e.own.toList ++ e.sent,
      Justified run family (calls ++ storeCall run m phase) t := by
  have hpre : calls <+: calls ++ storeCall run m phase := List.prefix_append _ _
  have hmarked : Marked run (calls ++ storeCall run m phase) m.stage := hjust.marked.mono hpre
  have hdetected : m.stage ≠ "detect" → m.family = family := hjust.detected
  have hbacked := (hjust.place w phase rfl).mono hpre
  have hafter := rows_of_call h hrows
  cases phase with
  | received =>
    cases h
    refine List.forall_mem_singleton.mpr (.of_backed hmarked hdetected ?_)
    exact ⟨m.attempt, List.mem_append_right _ (List.mem_singleton_self _)⟩
  | handling h' => cases h
  | completing m' =>
    cases h
    refine List.forall_mem_singleton.mpr (.of_backed hmarked hdetected ?_)
    apply backed_reserve
    · intro f hf
      obtain ⟨stage, -, rfl⟩ := mem_nextMessages.mp hf
      exact hbacked.2
    · change record.rows.completeStage m.stage = _ at hafter
      rw [hafter, nextMessages, List.map_map, hbacked.2]
      rfl
  | reserving follower rest =>
    cases h
    refine List.forall_mem_singleton.mpr (.of_backed hmarked hdetected ?_)
    intro f hf
    exact ⟨hbacked.1 f hf, .inr ⟨_, List.mem_append_right _ (List.mem_singleton_self _),
      List.mem_map_of_mem hf⟩⟩
  | publishing follower rest =>
    cases h
    simp only [Option.toList_some, List.singleton_append, List.forall_mem_cons]
    refine ⟨?_, ?_, by simp⟩
    · apply Justified.of_backed hmarked hdetected
      exact backed_publish fun f hf => hbacked f (List.mem_cons_of_mem _ hf)
    · obtain ⟨hfamily, hreserved⟩ := hbacked follower List.mem_cons_self
      exact .of_idle hreserved (fun _ => hfamily) (by simp)
  | acking =>
    cases h
    simp
  | failing exc =>
    obtain ⟨_, _, _, -, rfl⟩ | ⟨_, -, rfl⟩ := callReturns_failing h
    · exact List.forall_mem_singleton.mpr (.of_backed hmarked hdetected trivial)
    · exact List.forall_mem_singleton.mpr (.of_backed hmarked hdetected trivial)
  | condemning reason =>
    cases h
    exact List.forall_mem_singleton.mpr (.of_backed hmarked hdetected trivial)
  | deadLettering reason =>
    cases h
    simp only [Option.toList_some, List.singleton_append, List.forall_mem_cons]
    exact ⟨.of_backed hmarked hdetected trivial, .of_idle hmarked hdetected (by simp), by simp⟩
  | retrying delayMs =>
    cases h
    simp only [Option.toList_some, List.singleton_append, List.forall_mem_cons]
    exact ⟨.of_backed hmarked hdetected trivial, .of_idle hmarked hdetected (by simp), by simp⟩

/-- A turn continues a consumer's history, keeps the table the one behind it, and leaves messages
    that it justifies. -/
theorem told_turn {live : WorkerId → Option (List String)} {a : Act C}
    (h : Turn handlers live record world t a e) (hkept : History run family calls)
    (hrows : record.rows = (table calls).rows run) (hjust : Justified run family calls t)
    (hsteady : ∀ m w k found, a = .finish → t = ⟨m, .inHand w (.handling k)⟩ →
      handlers.result m k = some (some found) → found = family) :
    History run family (calls ++ actCalls run t a) ∧
      e.record.rows = (table (calls ++ actCalls run t a)).rows run ∧
      ∀ t' ∈ e.own.toList ++ e.sent, Justified run family (calls ++ actCalls run t a) t' := by
  have hquiet : ∀ t' : Token H, Justified run family calls t' →
      ∀ t'' ∈ (some t').toList ++ [], Justified run family (calls ++ []) t'' := by
    intro t' ht'
    rw [List.append_nil calls]
    exact List.forall_mem_singleton.mpr ht'
  have hsame : History run family (calls ++ []) ∧ record.rows = (table (calls ++ [])).rows run := by
    rw [List.append_nil]
    exact ⟨hkept, hrows⟩
  have hmarked := hjust.marked
  have hdetected := hjust.detected
  cases h with
  | deliver =>
    refine ⟨hsame.1, hsame.2, hquiet _ (.of_backed hmarked hdetected ?_)⟩
    unfold pickUp
    split_ifs <;> trivial
  | @work m w _ k =>
    have hbegun : Begun run calls m.stage := hjust.place w (.handling k) rfl
    exact ⟨hsame.1, hsame.2, hquiet _ (.of_backed hmarked hdetected hbegun)⟩
  | @fail m w k exc =>
    have hbegun : Begun run calls m.stage := hjust.place w (.handling k) rfl
    exact ⟨hsame.1, hsame.2, hquiet _ (.of_backed hmarked hdetected hbegun)⟩
  | @finish m w k found hresult =>
    refine ⟨hsame.1, hsame.2, hquiet _ (.of_backed hmarked hdetected ⟨hjust.place _ _ rfl, ?_⟩)⟩
    cases found with
    | none =>
      apply hdetected
      intro hstage
      cases (handlers.family_iff hresult).mpr hstage
    | some found => exact hsteady m w k found rfl rfl hresult
  | expire => exact ⟨hsame.1, hsame.2, hquiet _ (.of_idle hmarked hdetected (by simp))⟩
  | call hcall =>
    exact ⟨history_of_call hcall hkept hjust, rows_of_call hcall hrows,
      justified_of_call hcall hjust hrows⟩
  | @raises m w phase e' done hcall =>
    cases done with
    | false => exact ⟨hsame.1, hsame.2, hquiet _ (.of_idle hmarked hdetected (by simp))⟩
    | true =>
      have hafter := rows_of_call hcall hrows
      refine ⟨history_of_call hcall hkept hjust, hafter, ?_⟩
      have hleft := justified_of_call hcall hjust hrows
      intro t' ht'
      obtain hown | hsent := List.mem_append.mp ht'
      · obtain ⟨t'', ht'', rfl⟩ := Option.map_eq_some_iff.mp (Option.mem_toList.mp hown)
        have hold := hleft t'' (List.mem_append_left _ (Option.mem_toList.mpr ht''))
        exact .of_idle hold.marked hold.detected (by simp)
      · exact hleft t' (List.mem_append_right _ hsent)

variable {familyOf : String → FormatFamily} {s : System W H × List (StoreCall String)}

/-- The table is the one behind the calls, which are a consumer's history and justify the messages. -/
structure Told (familyOf : String → FormatFamily) (s : System W H × List (StoreCall String))
    (run : String) : Prop where
  history : History run (familyOf run) s.2
  rows : (s.1.runs run).record.rows = (table s.2).rows run
  tokens : ∀ t ∈ (s.1.runs run).tokens, Justified run (familyOf run) s.2 t

theorem storeCall_runOf {c : StoreCall String} (h : c ∈ storeCall run m phase) : c.runOf = run := by
  unfold storeCall at h
  split at h
  · rw [List.mem_singleton.mp h]
    rfl
  · rw [List.mem_singleton.mp h]
    rfl
  · rw [List.mem_singleton.mp h]
    rfl
  · split at h <;> rw [List.mem_singleton.mp h] <;> rfl
  · cases h

theorem actCalls_runOf {a : Act C} {c : StoreCall String} (h : c ∈ actCalls run t a) :
    c.runOf = run := by
  have htoken : ∀ {c}, c ∈ tokenCall run t → c.runOf = run := by
    intro c h
    unfold tokenCall at h
    split at h
    · exact storeCall_runOf h
    · cases h
  unfold actCalls at h
  split at h
  · exact htoken h
  · exact htoken h
  · cases h

theorem Told.other (h : Told familyOf s run) {s' : System W H} {more : List (StoreCall String)}
    (hsame : s'.runs run = s.1.runs run) (hothers : ∀ c ∈ more, c.runOf ≠ run) :
    Told familyOf (s', s.2 ++ more) run := by
  constructor
  · change History run (familyOf run) (s.2 ++ more)
    induction more using List.reverseRecOn with
    | nil =>
      rw [List.append_nil]
      exact h.history
    | append_singleton more c ih =>
      rw [← List.append_assoc]
      exact (ih fun c' hc' => hothers c' (List.mem_append_left _ hc')).other (hothers c (by simp))
  · change (s'.runs run).record.rows = (table (s.2 ++ more)).rows run
    rw [hsame, rows_append hothers, h.rows]
  · intro t ht
    change t ∈ (s'.runs run).tokens at ht
    rw [hsame] at ht
    exact (h.tokens t ht).mono (List.prefix_append _ _)

theorem Told.silent (h : Told familyOf s run) {s' : System W H}
    (hrows : (s'.runs run).record.rows = (s.1.runs run).record.rows)
    (htokens : ∀ t ∈ (s'.runs run).tokens, Justified run (familyOf run) s.2 t) :
    Told familyOf (s', s.2 ++ []) run := by
  rw [List.append_nil]
  exact ⟨h.history, hrows.trans h.rows, htokens⟩

theorem Justified.release (h : Justified run family calls t) (w : WorkerId) :
    Justified run family calls (t.release w) := by
  unfold Token.release
  split
  · split_ifs
    · exact .of_idle h.marked h.detected (by simp)
    · exact h
  · exact h

theorem told_exec {s s' : System W H} {e : Event C} (h : Told familyOf (s, calls) run)
    (hsteady : Steady handlers familyOf s e) (hexec : Consumer.exec handlers s e = some s') :
    Told familyOf (s', calls ++ storeCalls s e) run := by
  cases e with
  | upload documentId runId pipelineVersion traceId =>
    simp only [Consumer.exec, Option.ite_none_right_eq_some, Option.some.injEq] at hexec
    obtain ⟨-, rfl⟩ := hexec
    by_cases hrun : run = runId
    · subst hrun
      have hself := Function.update_self run
        ((s.runs run).upload (uploadMessage documentId run pipelineVersion traceId)) s.runs
      apply h.silent
      · exact congrArg (·.record.rows) hself
      · intro t ht
        change t ∈ (Function.update s.runs run _ run).tokens at ht
        rw [hself] at ht
        obtain hold | hnew := List.mem_append.mp ht
        · exact h.tokens t hold
        · rw [List.mem_singleton.mp hnew]
          exact .of_idle (.inl rfl) (fun hne => absurd rfl hne) (by simp)
    · exact h.other (Function.update_of_ne hrun ..) (by simp [storeCalls])
  | start w stages =>
    simp only [Consumer.exec, Option.ite_none_right_eq_some, Option.some.injEq] at hexec
    obtain ⟨-, rfl⟩ := hexec
    apply h.silent
    · rfl
    · exact h.tokens
  | crash w =>
    simp only [Consumer.exec, Option.ite_none_left_eq_some, Option.some.injEq] at hexec
    obtain ⟨-, rfl⟩ := hexec
    apply h.silent
    · rfl
    · intro t ht
      obtain ⟨t', ht', rfl⟩ := List.mem_map.mp ht
      exact (h.tokens t' ht').release w
  | act run' i a =>
    obtain ⟨t, ht, hact⟩ := Option.bind_eq_some_iff.mp hexec
    obtain ⟨eff, heff, rfl⟩ := Option.map_eq_some_iff.mp hact
    have hcalls : storeCalls s (.act run' i a) = actCalls run' t a := by
      rw [storeCalls, ht]
      rfl
    rw [hcalls]
    by_cases hrun : run = run'
    · subst hrun
      obtain ⟨hhistory, hrows, hjust⟩ := told_turn (turn_of_act heff) h.history h.rows
        (h.tokens t (List.mem_of_getElem? ht))
        (fun m w k found ha heq hresult => hsteady run i m w k found (ha ▸ rfl) (heq ▸ ht) hresult)
      have hself := Function.update_self run ((s.runs run).replace i eff) s.runs
      constructor
      · exact hhistory
      · exact (congrArg (·.record.rows) hself).trans hrows
      · intro t' ht'
        change t' ∈ (Function.update s.runs run _ run).tokens at ht'
        rw [hself] at ht'
        obtain hnew | ⟨j, -, hj⟩ := mem_replace.mp ht'
        · exact hjust t' hnew
        · exact (h.tokens t' (List.mem_of_getElem? hj)).mono (List.prefix_append _ _)
    · apply h.other (Function.update_of_ne hrun ..)
      intro c hc
      rw [actCalls_runOf hc]
      exact Ne.symm hrun

theorem told_of_reachable
    (h : Reachable Start (exec handlers) (fun s e => Steady handlers familyOf s.1 e) s)
    (run : String) : Told familyOf s run := by
  induction h with
  | @start s hstart =>
    obtain ⟨hinit, hcalls⟩ := hstart
    constructor
    · rw [hcalls]
      exact .start
    · rw [hinit.2, hcalls]
      rfl
    · rw [hinit.2]
      exact fun t ht => absurd ht List.not_mem_nil
  | next hreach hok hexec ih =>
    obtain ⟨s', hs', rfl⟩ := Option.map_eq_some_iff.mp hexec
    exact told_exec ih hok hs'

end

end Ragent.ConsumerHistories
