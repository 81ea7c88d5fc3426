import Ragent.Consumer

set_option autoImplicit false

/-!
# Handlers at work

What an event makes of the world the handlers work on, and of the executions of handlers that are
under way.
-/
namespace Ragent.Executions
open Stages Runner GuardedRuns Consumer

section
variable {W H C : Type}

/-- A handler is at work on the message `m` and stands at `h`. -/
def Executing (s : System W H) (m : StageMessage) (h : H) : Prop :=
  ∃ run w, ⟨m, .inHand w (.handling h)⟩ ∈ (s.runs run).tokens

def Survives (s : System W H) (m : StageMessage) (h : H) : Event C → Prop
  | .crash w => ∃ run w', w' ≠ w ∧ ⟨m, .inHand w' (.handling h)⟩ ∈ (s.runs run).tokens
  | .act run i _ => ∃ run' j w', (run' ≠ run ∨ j ≠ i) ∧
      (s.runs run').tokens[j]? = some ⟨m, .inHand w' (.handling h)⟩
  | _ => Executing s m h

def Added (e : Effect W H) (m : StageMessage) (h : H) : Prop :=
  ∃ w, ⟨m, .inHand w (.handling h)⟩ ∈ e.own.toList ++ e.sent

variable {handlers : Handlers W H C} {s s' : System W H} {e : Event C} {m : StageMessage} {h : H}

theorem executing_of_survives (hs : Survives s m h e) : Executing s m h := by
  cases e with
  | crash w =>
    obtain ⟨run, w', -, hmem⟩ := hs
    exact ⟨run, w', hmem⟩
  | act run i a =>
    obtain ⟨run', j, w', -, hj⟩ := hs
    exact ⟨run', w', List.mem_of_getElem? hj⟩
  | _ => exact hs

/-- What a turn does to the world: a handler moves, a handler starts, or none is at work behind
    it. -/
inductive Progress (handlers : Handlers W H C) (t : Token H) (world : W) :
    Act C → W → (StageMessage → H → Prop) → Prop
  | moves {c : C} {m : StageMessage} {w : WorkerId} {h h' : H} {world' : W}
      (ht : t = ⟨m, .inHand w (.handling h)⟩) (hmove : handlers.move m c (h, world) = some (h', world')) :
      Progress handlers t world (.work c) world' fun m' k => m' = m ∧ k = h'
  | starts {w : WorkerId} (ht : t.place = .inHand w .received) :
      Progress handlers t world .call world fun m' k =>
        m' = t.message ∧ k = handlers.start t.message
  | rests {a : Act C} (hwork : ∀ c, a ≠ .work c) : Progress handlers t world a world fun _ _ => False
  | condemns {a : Act C} (hwork : ∀ c, a ≠ .work c) (documentId : String) :
      Progress handlers t world a (handlers.failDocument documentId world) fun _ _ => False

theorem callReturns_progress {w : WorkerId} {record : Record} {world : W} {phase : Phase H}
    {e : Effect W H} (hcall : callReturns handlers m w record world phase = some e) :
    ∃ new, Progress handlers ⟨m, .inHand w phase⟩ world .call e.world new ∧
      ∀ m' k, Added e m' k ↔ new m' k := by
  have hreserve : ∀ followers k, (reserve followers : Phase H) ≠ .handling k := by
    rintro (_ | ⟨f, rest⟩) k ⟨⟩
  have hpublish : ∀ followers k, (publish followers : Phase H) ≠ .handling k := by
    rintro (_ | ⟨f, rest⟩) k ⟨⟩
  cases phase with
  | received =>
    cases hcall
    exact ⟨_, .starts rfl, by simp [Added, eq_comm]⟩
  | handling h' => cases hcall
  | completing m' =>
    cases hcall
    exact ⟨_, .rests nofun, by simp [Added, (hreserve _ _).symm]⟩
  | reserving follower rest =>
    cases hcall
    exact ⟨_, .rests nofun, by simp [Added]⟩
  | publishing follower rest =>
    cases hcall
    exact ⟨_, .rests nofun, by simp [Added, (hpublish _ _).symm]⟩
  | failing exc =>
    unfold callReturns at hcall
    simp only at hcall
    split at hcall <;> cases hcall <;> exact ⟨_, .rests nofun, by simp [Added]⟩
  | condemning reason =>
    cases hcall
    exact ⟨_, .condemns nofun m.documentId, by simp [Added]⟩
  | _ =>
    cases hcall
    exact ⟨_, .rests nofun, by simp [Added]⟩

theorem turn_progress {live : WorkerId → Option (List String)} {record : Record} {world : W}
    {t : Token H} {a : Act C} {e : Effect W H} (hturn : Turn handlers live record world t a e) :
    ∃ new, Progress handlers t world a e.world new ∧ ∀ m' k, Added e m' k ↔ new m' k := by
  cases hturn with
  | @deliver m w =>
    refine ⟨_, .rests (by simp), fun m' k => ?_⟩
    unfold pickUp
    split_ifs <;> simp [Added]
  | work hmove => exact ⟨_, .moves rfl hmove, by simp [Added, eq_comm]⟩
  | finish => exact ⟨_, .rests (by simp), by simp [Added]⟩
  | fail => exact ⟨_, .rests (by simp), by simp [Added]⟩
  | call hcall => exact callReturns_progress hcall
  | expire => exact ⟨_, .rests (by simp), by simp [Added]⟩
  | @raises m w phase e' done hcall =>
    have hdead : ∀ (t : Option (Token H)) m' w' k,
        (⟨m', .inHand w' (.handling k)⟩ : Token H) ∉ (t.map fun t => ⟨t.message, .dead none⟩).toList := by
      intro t m' w' k
      cases t <;> simp
    cases done with
    | false => exact ⟨_, .rests (by simp), by simp [Added, reject]⟩
    | true =>
      obtain ⟨new, hprogress, hnew⟩ := callReturns_progress hcall
      have hsent : ∀ m' w' k, (⟨m', .inHand w' (.handling k)⟩ : Token H) ∉ e'.sent := by
        intro m' w' k hmem
        cases phase with
        | handling h' => cases hcall
        | failing exc =>
          unfold callReturns at hcall
          simp only at hcall
          split at hcall <;> cases hcall <;> simp at hmem
        | _ =>
          cases hcall
          simp at hmem
      have hnone : ∀ m' k, Added (reject e') m' k ↔ False := by
        simp [Added, reject, hdead, hsent]
      change ∃ new, Progress handlers _ world (.callRaises true) e'.world new ∧ _
      generalize e'.world = world' at hprogress
      cases hprogress with
      | starts => exact ⟨_, .rests (by simp), hnone⟩
      | rests => exact ⟨_, .rests (by simp), hnone⟩
      | condemns _ documentId => exact ⟨_, .condemns (by simp) documentId, hnone⟩

theorem executing_replace {run : String} {i : ℕ} {a : Act C} {eff : Effect W H}
    (hself : s'.runs run = (s.runs run).replace i eff)
    (hother : ∀ run' ≠ run, s'.runs run' = s.runs run') (m : StageMessage) (h : H) :
    Executing s' m h ↔ Survives s m h (.act run i a) ∨ Added eff m h := by
  constructor
  · rintro ⟨run', w, hmem⟩
    by_cases hrun : run' = run
    · subst hrun
      rw [hself] at hmem
      rcases mem_replace.mp hmem with hmem | ⟨j, hj, hmem⟩
      · exact Or.inr ⟨w, hmem⟩
      · exact Or.inl ⟨run', j, w, Or.inr hj, hmem⟩
    · rw [hother run' hrun] at hmem
      obtain ⟨j, hj⟩ := List.mem_iff_getElem?.mp hmem
      exact Or.inl ⟨run', j, w, Or.inl hrun, hj⟩
  · rintro (⟨run', j, w, hne, hj⟩ | ⟨w, hmem⟩)
    · refine ⟨run', w, ?_⟩
      by_cases hrun : run' = run
      · subst hrun
        rw [hself]
        exact mem_replace.mpr (Or.inr ⟨j, hne.resolve_left fun h => h rfl, hj⟩)
      · rw [hother run' hrun]
        exact List.mem_of_getElem? hj
    · refine ⟨run, w, ?_⟩
      rw [hself]
      exact mem_replace.mpr (Or.inl hmem)

theorem executing_exec (hexec : exec handlers s e = some s') :
    (s'.world = s.world ∧ (∀ run i a, e ≠ .act run i a) ∧
        ∀ m h, Executing s' m h ↔ Survives s m h e) ∨
      ∃ run i a t new, e = .act run i a ∧ (s.runs run).tokens[i]? = some t ∧
        Progress handlers t s.world a s'.world new ∧
        ∀ m h, Executing s' m h ↔ Survives s m h e ∨ new m h := by
  cases e with
  | upload documentId runId pipelineVersion traceId =>
    simp only [exec, Option.ite_none_right_eq_some, Option.some.injEq] at hexec
    obtain ⟨-, rfl⟩ := hexec
    refine Or.inl ⟨rfl, by simp, fun m h => exists_congr fun run => exists_congr fun w => ?_⟩
    by_cases hrun : run = runId
    · subst hrun
      simp [RunState.upload]
    · simp [Function.update_of_ne hrun]
  | start w stages =>
    simp only [exec, Option.ite_none_right_eq_some, Option.some.injEq] at hexec
    obtain ⟨-, rfl⟩ := hexec
    exact Or.inl ⟨rfl, by simp, fun m h => Iff.rfl⟩
  | crash w =>
    simp only [exec, Option.ite_none_left_eq_some, Option.some.injEq] at hexec
    obtain ⟨-, rfl⟩ := hexec
    refine Or.inl ⟨rfl, by simp, fun m h => exists_congr fun run => exists_congr fun w' => ?_⟩
    simp only [RunState.release, List.mem_map]
    constructor
    · rintro ⟨t, ht, heq⟩
      obtain ⟨hplace, hne⟩ := inHand_of_release (congrArg Token.place heq)
      refine ⟨hne.symm, ?_⟩
      have hsame : t.release w = t := by
        unfold Token.release
        rw [hplace]
        exact if_neg hne.symm
      rwa [← heq, hsame]
    · rintro ⟨hne, hmem⟩
      refine ⟨_, hmem, ?_⟩
      simp [Token.release, hne]
  | act run i a =>
    obtain ⟨t, ht, hact⟩ := Option.bind_eq_some_iff.mp hexec
    obtain ⟨eff, heff, heq⟩ := Option.map_eq_some_iff.mp hact
    obtain ⟨new, hprogress, hnew⟩ := turn_progress (turn_of_act heff)
    have hworld : s'.world = eff.world := heq ▸ rfl
    have hself : s'.runs run = (s.runs run).replace i eff := heq ▸ Function.update_self _ _ _
    have hother : ∀ run' ≠ run, s'.runs run' = s.runs run' := fun run' hrun =>
      heq ▸ Function.update_of_ne hrun _ _
    refine Or.inr ⟨run, i, a, t, new, rfl, ht, hworld ▸ hprogress, fun m h => ?_⟩
    rw [← hnew]
    exact executing_replace hself hother m h

theorem executing_iff_of_at {run : String} {i : ℕ} {a : Act C} {w : WorkerId}
    (hat : (s.runs run).tokens[i]? = some ⟨m, .inHand w (.handling h)⟩) (m' : StageMessage) (k : H) :
    Executing s m' k ↔ Survives s m' k (.act run i a) ∨ (m' = m ∧ k = h) := by
  constructor
  · rintro ⟨run', w', hmem⟩
    obtain ⟨j, hj⟩ := List.mem_iff_getElem?.mp hmem
    by_cases hsame : run' = run ∧ j = i
    · obtain ⟨rfl, rfl⟩ := hsame
      rw [hat] at hj
      cases hj
      exact Or.inr ⟨rfl, rfl⟩
    · exact Or.inl ⟨run', j, w', by tauto, hj⟩
  · rintro (hs | ⟨rfl, rfl⟩)
    · exact executing_of_survives hs
    · exact ⟨run, w, List.mem_of_getElem? hat⟩

/-- An invariant of the world, and one of every execution that the moves of the others keep. -/
theorem world_invariant {init : System W H → Prop} {ok : System W H → Event C → Prop}
    {I : W → Prop} {P : W → StageMessage → H → Prop}
    (hinit : ∀ s, init s → I s.world ∧ ∀ m h, ¬ Executing s m h)
    (hstart : ∀ world m, P world m (handlers.start m))
    (hmove : ∀ s run i c m w h h' world', ok s (.act run i (.work c)) →
      (s.runs run).tokens[i]? = some ⟨m, .inHand w (.handling h)⟩ → I s.world → P s.world m h →
        handlers.move m c (h, s.world) = some (h', world') →
          I world' ∧ P world' m h' ∧ ∀ m' k, P s.world m' k → P world' m' k)
    (hcondemn : ∀ world documentId, I world → I (handlers.failDocument documentId world) ∧
      ∀ m k, P world m k → P (handlers.failDocument documentId world) m k)
    {s : System W H} (hreach : Reachable init (exec handlers) ok s) :
    I s.world ∧ ∀ m h, Executing s m h → P s.world m h := by
  induction hreach with
  | start h => exact ⟨(hinit _ h).1, fun m k hk => absurd hk ((hinit _ h).2 m k)⟩
  | @next s s' e _ hok hexec ih =>
    obtain ⟨hworld, hexecuting⟩ := ih
    rcases executing_exec hexec with ⟨heq, -, hsame⟩ | ⟨run, i, a, t, new, rfl, ht, hprogress, hnew⟩
    · rw [heq]
      exact ⟨hworld, fun m h hm => hexecuting m h (executing_of_survives ((hsame m h).mp hm))⟩
    · generalize s'.world = world' at hprogress
      have hcases : ∀ m h, Executing s' m h → P s.world m h ∨ new m h := by
        intro m h hm
        exact ((hnew m h).mp hm).imp_left fun hs => hexecuting m h (executing_of_survives hs)
      cases hprogress with
      | @moves c m w h h' world' hat hmoves =>
        subst hat
        obtain ⟨hworld', hown, hothers⟩ := hmove s run i c m w h h' world' hok ht hworld
          (hexecuting m h ⟨run, w, List.mem_of_getElem? ht⟩) hmoves
        refine ⟨hworld', fun m' k hm => ?_⟩
        rcases hcases m' k hm with hk | ⟨rfl, rfl⟩
        · exact hothers m' k hk
        · exact hown
      | starts =>
        refine ⟨hworld, fun m' k hm => ?_⟩
        rcases hcases m' k hm with hk | ⟨rfl, rfl⟩
        · exact hk
        · exact hstart s.world _
      | rests => exact ⟨hworld, fun m' k hm => (hcases m' k hm).resolve_right id⟩
      | condemns _ documentId =>
        obtain ⟨hworld', hothers⟩ := hcondemn s.world documentId hworld
        exact ⟨hworld', fun m' k hm => hothers m' k ((hcases m' k hm).resolve_right id)⟩

end
end Ragent.Executions
