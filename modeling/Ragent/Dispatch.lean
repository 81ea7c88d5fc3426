import Ragent.Consumer
import Ragent.LayeredDispatch

set_option autoImplicit false

/-!
# Dispatch without crashes

As long as no worker dies and no call raises, a run of the consumer is a run of the layered
scheduler on its format's route through the DAG: the rows, the deliveries and the messages of a
stage show how far the stage has come, and every turn of a delivery is a step of the scheduler or
none at all.
-/
namespace Ragent.Dispatch
open Formats Stages StageStores Runner GuardedRuns Consumer LayeredDispatch

def layers : FormatFamily → List (List String)
  | .pdf | .image =>
    [["detect"], ["parse"], ["ocr"], ["tables", "figures"], ["chunk"], ["contextualize"], ["embed"]]
  | .office | .web =>
    [["detect"], ["convert"], ["parse"], ["ocr"], ["tables", "figures"], ["chunk"],
      ["contextualize"], ["embed"]]
  | .flow => [["detect"], ["parse_flow"], ["chunk"], ["contextualize"], ["embed"]]

def layer (family : FormatFamily) (name : String) : ℕ := (layers family).findIdx (name ∈ ·)

def depsOf (family : FormatFamily) (name : String) : Finset String :=
  (stageByName PIPELINE name).elim ∅ (effectiveDeps PIPELINE family)

theorem layer_filled (family : FormatFamily) : ∀ τ ∈ stageNamesFor PIPELINE family,
    layer family τ ≠ 0 → ∃ σ ∈ stageNamesFor PIPELINE family, layer family σ + 1 = layer family τ := by
  cases family <;> decide +kernel

def route (family : FormatFamily) : Layered String where
  members := stageNamesFor PIPELINE family
  deps := depsOf family
  rank := layer family
  lower := by cases family <;> decide +kernel
  below := by cases family <;> decide +kernel
  filled τ hτ n hn := by
    obtain ⟨σ, hσ, hrank⟩ := layer_filled family τ hτ (by omega)
    exact ⟨σ, hσ, by omega⟩

theorem route_root (family : FormatFamily) :
    "detect" ∈ (route family).members ∧
      ∀ τ ∈ (route family).members, (route family).deps τ = ∅ ↔ τ = "detect" := by
  cases family <;> decide +kernel

theorem depsOf_eq {family : FormatFamily} {stage : Stage} (h : stage ∈ PIPELINE) :
    depsOf family stage.name = effectiveDeps PIPELINE family stage := by
  rw [depsOf, stageByName_of_mem pipeline_names_nodup h]
  rfl

/-- What a message or a delivery is about to do for a stage. -/
inductive Duty
  | reserve
  | owe
  | wait
  | act
  | retry
  | bury
  deriving DecidableEq, Repr

section
variable {W H C : Type}

def agenda (t : Token H) : List (String × Duty) :=
  match t.place with
  | .queued | .delayed _ | .inHand _ .received => [(t.message.stage, .wait)]
  | .inHand _ (.handling _) | .inHand _ (.completing _) | .inHand _ (.failing _) =>
    [(t.message.stage, .act)]
  | .inHand _ (.reserving follower rest) => (follower :: rest).map fun m => (m.stage, .reserve)
  | .inHand _ (.publishing follower rest) => (follower :: rest).map fun m => (m.stage, .owe)
  | .inHand _ (.retrying _) => [(t.message.stage, .retry)]
  | .inHand _ .acking => []
  | .dead _ | .inHand _ (.condemning _) | .inHand _ (.deadLettering _) =>
    [(t.message.stage, .bury)]

def duties (σ : String) (entries : List (String × Duty)) : List Duty :=
  (entries.filter (·.1 = σ)).map (·.2)

end

def modeRow : Mode → Option StageStatus
  | .idle | .reserved | .entered => none
  | .owed | .waiting | .postponed => some .pending
  | .running => some .running
  | .succeeded => some .succeeded
  | .failed => some .failed

def modeDuties : Mode → List Duty
  | .idle | .succeeded => []
  | .reserved => [.reserve]
  | .owed => [.owe]
  | .entered | .waiting => [.wait]
  | .running => [.act]
  | .postponed => [.retry]
  | .failed => [.bury]

def modePublished : Mode → ℕ
  | .idle | .reserved | .owed => 0
  | .entered | .waiting | .running | .postponed | .succeeded | .failed => 1

theorem duties_append (σ : String) (xs ys : List (String × Duty)) :
    duties σ (xs ++ ys) = duties σ xs ++ duties σ ys := by
  simp [duties]

theorem duties_cons (σ τ : String) (d : Duty) (xs : List (String × Duty)) :
    duties σ ((τ, d) :: xs) = (if τ = σ then [d] else []) ++ duties σ xs := by
  unfold duties
  by_cases h : τ = σ <;> simp [h]

theorem duties_map (σ : String) (d : Duty) (ms : List StageMessage) :
    duties σ (ms.map fun m => (m.stage, d)) = List.replicate ((ms.map (·.stage)).count σ) d := by
  induction ms with
  | nil => rfl
  | cons m ms ih =>
    rw [List.map_cons, duties_cons, ih, List.map_cons, List.count_cons]
    by_cases h : m.stage = σ <;> simp [h, List.replicate_succ]

theorem mem_duties {σ : String} {d : Duty} {entries : List (String × Duty)} :
    d ∈ duties σ entries ↔ (σ, d) ∈ entries := by
  simp [duties]

theorem alone {m : Mode} {before after : List Duty} {d : Duty}
    (h : before ++ d :: after = modeDuties m) : before = [] ∧ after = [] ∧ modeDuties m = [d] := by
  have hlen : (modeDuties m).length ≤ 1 := by cases m <;> decide
  rw [← h, List.length_append, List.length_cons] at hlen
  obtain rfl := List.length_eq_zero_iff.mp (show before.length = 0 by omega)
  obtain rfl := List.length_eq_zero_iff.mp (show after.length = 0 by omega)
  exact ⟨rfl, rfl, h.symm⟩

theorem duties_of_mem {m : Mode} {d : Duty} (h : d ∈ modeDuties m) : modeDuties m = [d] := by
  obtain ⟨before, after, heq⟩ := List.append_of_mem h
  exact (alone heq.symm).2.2

section
variable {W H C : Type} {handlers : Handlers W H C} {r : RunState H} {b b' : Board String}
  {i : ℕ} {t : Token H} {e : Effect W H}

/-- The rows, the tokens and the messages published are what the board says. -/
structure Shows (r : RunState H) (b : Board String) : Prop where
  row : ∀ σ, r.record.rows.status σ = modeRow (b σ)
  duty : ∀ σ, duties σ (r.tokens.flatMap agenda) = modeDuties (b σ)
  count : ∀ σ, r.record.published.countP (·.stage = σ) = modePublished (b σ)

namespace Shows

theorem duties_eq (h : Shows r b) (ht : t ∈ r.tokens) {σ : String} {d : Duty}
    (hd : (σ, d) ∈ agenda t) : modeDuties (b σ) = [d] := by
  apply duties_of_mem
  rw [← h.duty σ, mem_duties]
  exact List.mem_flatMap.mpr ⟨t, ht, hd⟩

theorem around (h : Shows r b) (ht : r.tokens[i]? = some t) (σ : String) :
    duties σ ((r.tokens.take i).flatMap agenda) ++ duties σ (agenda t) ++
      duties σ ((r.tokens.drop (i + 1)).flatMap agenda) = modeDuties (b σ) := by
  obtain ⟨hlt, rfl⟩ := List.getElem?_eq_some_iff.mp ht
  rw [← h.duty σ, ← duties_append, ← duties_append, ← List.flatMap_singleton agenda,
    ← List.flatMap_append, ← List.flatMap_append, List.append_assoc, List.singleton_append,
    ← List.drop_eq_getElem_cons hlt, List.take_append_drop]

theorem replace (h : Shows r b) (ht : r.tokens[i]? = some t)
    (hrow : ∀ σ, e.record.rows.status σ = modeRow (b' σ))
    (hduty : ∀ σ before after, before ++ duties σ (agenda t) ++ after = modeDuties (b σ) →
      before ++ duties σ ((e.own.toList ++ e.sent).flatMap agenda) ++ after = modeDuties (b' σ))
    (hcount : ∀ σ, e.record.published.countP (·.stage = σ) = modePublished (b' σ)) :
    Shows (r.replace i e) b' := by
  refine ⟨hrow, fun σ => ?_, hcount⟩
  rw [← hduty σ _ _ (h.around ht σ), ← duties_append, ← duties_append, ← List.flatMap_append,
    ← List.flatMap_append]
  rfl

theorem stutter (h : Shows r b) (ht : r.tokens[i]? = some t) (hrecord : e.record = r.record)
    (hagenda : (e.own.toList ++ e.sent).flatMap agenda = agenda t) : Shows (r.replace i e) b := by
  apply h.replace ht
  · rw [hrecord]
    exact h.row
  · rw [hagenda]
    exact fun σ before after heq => heq
  · rw [hrecord]
    exact h.count

theorem shift (h : Shows r b) (ht : r.tokens[i]? = some t) {σ : String} {d d' : Duty} {m : Mode}
    (hold : agenda t = [(σ, d)]) (hnew : (e.own.toList ++ e.sent).flatMap agenda = [(σ, d')])
    (hrow : ∀ τ, e.record.rows.status τ = if τ = σ then modeRow m else r.record.rows.status τ)
    (hpublished : e.record.published = r.record.published) (hduties : modeDuties m = [d'])
    (hcount : modePublished m = modePublished (b σ)) :
    Shows (r.replace i e) (Function.update b σ m) := by
  apply h.replace ht
  · intro τ
    rw [hrow]
    by_cases hτ : τ = σ
    · subst hτ
      simp
    · rw [if_neg hτ, Function.update_of_ne hτ, h.row]
  · intro τ before after heq
    rw [hold, duties_cons] at heq
    rw [hnew, duties_cons]
    by_cases hτ : σ = τ
    · subst hτ
      simp only [if_true, duties, List.filter_nil, List.map_nil, List.append_nil,
        List.append_assoc, List.singleton_append] at heq ⊢
      obtain ⟨rfl, rfl, -⟩ := alone heq
      simp [hduties]
    · rw [if_neg hτ] at heq ⊢
      rw [Function.update_of_ne (Ne.symm hτ)]
      exact heq
  · intro τ
    rw [hpublished, h.count]
    by_cases hτ : τ = σ
    · subst hτ
      simp [hcount]
    · rw [Function.update_of_ne hτ]

end Shows

theorem modeRow_eq_succeeded {m : Mode} : modeRow m = some .succeeded ↔ m = .succeeded := by
  cases m <;> simp [modeRow]

theorem mem_followers (h : Shows r b) {m : StageMessage} {σ : String}
    (hsound : Sound (route m.family) b) (hσ : b σ = .running) (τ : String) :
    τ ∈ (nextMessages PIPELINE m (r.record.rows.completeStage σ).snapshot).map (·.stage) ↔
      Frees (route m.family) b σ τ := by
  have hcompleted : ∀ ρ, ρ ∈ (r.record.rows.completeStage σ).snapshot.completed ↔
      ρ = σ ∨ b ρ = .succeeded := by
    intro ρ
    rw [StageRows.mem_completed, StageRows.status_completeStage, h.row]
    by_cases hρ : ρ = σ <;> simp [hρ, modeRow_eq_succeeded]
  have hdispatched : τ ≠ σ →
      (τ ∈ (r.record.rows.completeStage σ).snapshot.dispatched ↔ b τ ≠ .idle) := by
    intro hτ
    have hreserved : b τ ≠ .reserved := fun heq => by
      have := hsound.quiet τ heq σ
      simp [hσ, Mode.busy] at this
    have hentered : b τ ≠ .entered := fun heq => by
      have := hsound.first τ heq σ hτ.symm
      simp [hσ] at this
    rw [StageRows.mem_dispatched, StageRows.status_completeStage, if_neg hτ, h.row]
    cases hmode : b τ <;> simp_all [modeRow]
  have hready : ∀ stage ∈ PIPELINE, effectiveDeps PIPELINE m.family stage ⊆
      (r.record.rows.completeStage σ).snapshot.completed ↔
        ∀ ρ ∈ (route m.family).deps stage.name, ρ = σ ∨ b ρ = .succeeded := by
    intro stage hstage
    rw [Finset.subset_iff, show (route m.family).deps stage.name = _ from depsOf_eq hstage]
    exact forall₂_congr fun ρ _ => hcompleted ρ
  simp only [List.mem_map, mem_nextMessages, mem_readyStages]
  constructor
  · rintro ⟨-, ⟨stage, ⟨⟨hstage, hfamily⟩, ⟨hnew, hfree⟩, hdeps⟩, rfl⟩, rfl⟩
    have hne : stage.name ≠ σ := fun heq => hnew ((hcompleted _).mpr (Or.inl heq))
    refine ⟨mem_stageNamesFor.mpr ⟨stage, hstage, hfamily, rfl⟩, ?_, (hready stage hstage).mp hdeps⟩
    by_contra hidle
    exact hfree ((hdispatched hne).mpr hidle)
  · rintro ⟨hmem, hidle, hdeps⟩
    obtain ⟨stage, hstage, hfamily, rfl⟩ := mem_stageNamesFor.mp hmem
    have hne : stage.name ≠ σ := fun heq => by simp [heq, hσ] at hidle
    refine ⟨m.forStage stage.name, ⟨stage, ⟨⟨hstage, hfamily⟩, ⟨?_, ?_⟩,
      (hready stage hstage).mpr hdeps⟩, rfl⟩, rfl⟩
    · rw [hcompleted]
      simp [hne, hidle]
    · rw [hdispatched hne]
      simp [hidle]

theorem followers_nodup (m : StageMessage) (snapshot : StageSnapshot) :
    ((nextMessages PIPELINE m snapshot).map (·.stage)).Nodup := by
  unfold nextMessages readyStages stagesFor
  rw [List.map_map, List.filter_filter]
  exact pipeline_names_nodup.sublist (List.filter_sublist.map _)

theorem followers_family {m f : StageMessage} {snapshot : StageSnapshot}
    (h : f ∈ nextMessages PIPELINE m snapshot) : f.family = m.family := by
  obtain ⟨stage, -, rfl⟩ := mem_nextMessages.mp h
  rfl

theorem reserve_agenda (m : StageMessage) (w : WorkerId) (followers : List StageMessage) :
    agenda (⟨m, .inHand w (reserve followers)⟩ : Token H) =
      followers.map fun f => (f.stage, .reserve) := by
  cases followers <;> rfl

theorem publish_agenda (m : StageMessage) (w : WorkerId) (followers : List StageMessage) :
    agenda (⟨m, .inHand w (publish followers)⟩ : Token H) =
      followers.map fun f => (f.stage, .owe) := by
  cases followers <;> rfl

def completed (b : Board String) (σ : String) (followers : List StageMessage) : Board String :=
  fun τ => if τ = σ then .succeeded else if τ ∈ followers.map (·.stage) then .reserved else b τ

section
variable {σ τ : String} {followers : List StageMessage}

@[simp] theorem completed_self : completed b σ followers σ = .succeeded := if_pos rfl

theorem completed_of_mem (hne : τ ≠ σ) (hτ : τ ∈ followers.map (·.stage)) :
    completed b σ followers τ = .reserved :=
  (if_neg hne).trans (if_pos hτ)

theorem completed_of_not_mem (hne : τ ≠ σ) (hτ : τ ∉ followers.map (·.stage)) :
    completed b σ followers τ = b τ :=
  (if_neg hne).trans (if_neg hτ)

end

namespace Shows

theorem complete (h : Shows r b) (ht : r.tokens[i]? = some t) {σ : String}
    {followers : List StageMessage} (hold : agenda t = [(σ, .act)])
    (hnew : (e.own.toList ++ e.sent).flatMap agenda = followers.map fun f => (f.stage, .reserve))
    (hrow : ∀ τ, e.record.rows.status τ =
      if τ = σ then some .succeeded else r.record.rows.status τ)
    (hpublished : e.record.published = r.record.published) (hσ : b σ = .running)
    (hnodup : (followers.map (·.stage)).Nodup)
    (hidle : ∀ τ ∈ followers.map (·.stage), τ ≠ σ ∧ b τ = .idle) :
    Shows (r.replace i e) (completed b σ followers) := by
  have hcases : ∀ τ, τ = σ ∨
      (τ ≠ σ ∧ τ ∈ followers.map (·.stage) ∧ completed b σ followers τ = .reserved) ∨
      (τ ≠ σ ∧ τ ∉ followers.map (·.stage) ∧ completed b σ followers τ = b τ) := by
    intro τ
    by_cases hτ : τ = σ
    · exact Or.inl hτ
    · by_cases hmem : τ ∈ followers.map (·.stage)
      · exact Or.inr (Or.inl ⟨hτ, hmem, completed_of_mem hτ hmem⟩)
      · exact Or.inr (Or.inr ⟨hτ, hmem, completed_of_not_mem hτ hmem⟩)
  apply h.replace ht
  · intro τ
    rw [hrow, h.row]
    rcases hcases τ with rfl | ⟨hτ, hmem, heq⟩ | ⟨hτ, -, heq⟩
    · simp [modeRow]
    · simp [hτ, heq, (hidle τ hmem).2, modeRow]
    · rw [if_neg hτ, heq]
  · intro τ before after heq
    rw [hold, duties_cons] at heq
    rw [hnew, duties_map]
    rcases hcases τ with rfl | ⟨hτ, hmem, hmode⟩ | ⟨hτ, hmem, hmode⟩
    · rw [List.count_eq_zero_of_not_mem fun hmem => (hidle τ hmem).1 rfl, completed_self]
      simp only [if_true, duties, List.filter_nil, List.map_nil, List.append_nil,
        List.append_assoc, List.singleton_append] at heq
      obtain ⟨rfl, rfl, -⟩ := alone heq
      rfl
    · rw [if_neg (Ne.symm hτ), (hidle τ hmem).2] at heq
      simp only [duties, List.filter_nil, List.map_nil, List.append_nil, modeDuties,
        List.append_eq_nil_iff] at heq
      rw [List.count_eq_one_of_mem hnodup hmem, hmode, heq.1, heq.2]
      rfl
    · rw [if_neg (Ne.symm hτ)] at heq
      rw [List.count_eq_zero_of_not_mem hmem, hmode]
      exact heq
  · intro τ
    rw [hpublished, h.count]
    rcases hcases τ with rfl | ⟨-, hmem, heq⟩ | ⟨-, -, heq⟩
    · simp [hσ, modePublished]
    · simp [heq, (hidle τ hmem).2, modePublished]
    · rw [heq]

theorem announce (h : Shows r b) (ht : r.tokens[i]? = some t) {followers : List StageMessage}
    (hold : agenda t = followers.map fun f => (f.stage, .reserve))
    (hnew : (e.own.toList ++ e.sent).flatMap agenda = followers.map fun f => (f.stage, .owe))
    (hrow : e.record.rows = r.record.rows.markDispatched (followers.map (·.stage)))
    (hpublished : e.record.published = r.record.published)
    (hall : ∀ τ, b τ = .reserved ↔ τ ∈ followers.map (·.stage))
    (hannounced : ∀ τ, b τ = .reserved → b' τ = .owed)
    (hkept : ∀ τ, b τ ≠ .reserved → b' τ = b τ) : Shows (r.replace i e) b' := by
  apply h.replace ht
  · intro τ
    rw [hrow, StageRows.status_markDispatched, h.row]
    by_cases hτ : b τ = .reserved
    · rw [if_pos ((hall τ).mp hτ), hannounced τ hτ, hτ]
      rfl
    · rw [if_neg fun hmem => hτ ((hall τ).mpr hmem), hkept τ hτ]
  · intro τ before after heq
    rw [hold, duties_map] at heq
    rw [hnew, duties_map]
    by_cases hτ : b τ = .reserved
    · obtain ⟨n, hn⟩ : ∃ n, (followers.map (·.stage)).count τ = n + 1 :=
        Nat.exists_eq_succ_of_ne_zero (List.count_pos_iff.mpr ((hall τ).mp hτ)).ne'
      rw [hn, List.replicate_succ, List.append_assoc, List.cons_append] at heq
      obtain ⟨rfl, hafter, -⟩ := alone heq
      obtain ⟨hrest, rfl⟩ := List.append_eq_nil_iff.mp hafter
      obtain rfl := (List.replicate_eq_nil_iff _).mp hrest
      rw [hn, hannounced τ hτ]
      rfl
    · rw [List.count_eq_zero_of_not_mem fun hmem => hτ ((hall τ).mpr hmem)] at heq ⊢
      rw [hkept τ hτ]
      exact heq
  · intro τ
    rw [hpublished, h.count]
    by_cases hτ : b τ = .reserved
    · simp [hannounced τ hτ, hτ, modePublished]
    · rw [hkept τ hτ]

theorem publish (h : Shows r b) (ht : r.tokens[i]? = some t) {follower : StageMessage}
    {rest : List StageMessage}
    (hold : agenda t = (follower :: rest).map fun f => (f.stage, .owe))
    (hnew : (e.own.toList ++ e.sent).flatMap agenda =
      (rest.map fun f => (f.stage, .owe)) ++ [(follower.stage, .wait)])
    (hrows : e.record.rows = r.record.rows)
    (hpublished : e.record.published = r.record.published ++ [follower]) :
    Shows (r.replace i e) (Function.update b follower.stage .waiting) := by
  have howed : b follower.stage = .owed := by
    have := h.duties_eq (List.mem_of_getElem? ht) (σ := follower.stage) (d := .owe) (by simp [hold])
    cases hmode : b follower.stage <;> simp [hmode, modeDuties] at this ⊢
  apply h.replace ht
  · intro τ
    rw [hrows, h.row]
    by_cases hτ : τ = follower.stage
    · subst hτ
      simp [howed, modeRow]
    · rw [Function.update_of_ne hτ]
  · intro τ before after heq
    rw [hold, List.map_cons, duties_cons] at heq
    rw [hnew, duties_append, duties_cons]
    by_cases hτ : follower.stage = τ
    · subst hτ
      rw [if_pos rfl, List.append_assoc, List.append_assoc, List.singleton_append] at heq
      obtain ⟨rfl, hafter, -⟩ := alone heq
      obtain ⟨hrest, rfl⟩ := List.append_eq_nil_iff.mp hafter
      rw [hrest]
      simp [duties, modeDuties]
    · rw [if_neg hτ] at heq ⊢
      rw [Function.update_of_ne (Ne.symm hτ)]
      simpa [duties] using heq
  · intro τ
    rw [hpublished, List.countP_append, h.count]
    by_cases hτ : τ = follower.stage
    · subst hτ
      simp [howed, modePublished]
    · rw [Function.update_of_ne hτ]
      simp [Ne.symm hτ]

end Shows

def Knows (detected : Option FormatFamily) (t : Token H) : Prop :=
  (t.message.stage ≠ "detect" → detected = some t.message.family) ∧
    match t.place with
    | .inHand _ (.completing m) => t.message.stage ≠ "detect" → m.family = t.message.family
    | .inHand _ (.reserving follower rest) => ∀ m ∈ follower :: rest, detected = some m.family
    | .inHand _ (.publishing follower rest) => ∀ m ∈ follower :: rest, detected = some m.family
    | _ => True

theorem Knows.of_none (h : Knows none t) (detected : Option FormatFamily) : Knows detected t := by
  obtain ⟨m, place⟩ := t
  have hnone : ∀ {family : FormatFamily}, none ≠ some family := (Option.some_ne_none _).symm
  refine ⟨fun hstage => absurd (h.1 hstage) hnone, ?_⟩
  cases place with
  | inHand w phase =>
    cases phase with
    | completing m' => exact h.2
    | reserving follower rest => exact absurd (h.2 follower List.mem_cons_self) hnone
    | publishing follower rest => exact absurd (h.2 follower List.mem_cons_self) hnone
    | _ => trivial
  | _ => trivial

theorem knows_reserve {detected : Option FormatFamily} {m : StageMessage} {w : WorkerId}
    {followers : List StageMessage} (hm : m.stage ≠ "detect" → detected = some m.family)
    (h : ∀ f ∈ followers, detected = some f.family) :
    Knows detected (⟨m, .inHand w (reserve followers)⟩ : Token H) := by
  cases followers with
  | nil => exact ⟨hm, trivial⟩
  | cons f rest => exact ⟨hm, h⟩

theorem knows_publish {detected : Option FormatFamily} {m : StageMessage} {w : WorkerId}
    {followers : List StageMessage} (hm : m.stage ≠ "detect" → detected = some m.family)
    (h : ∀ f ∈ followers, detected = some f.family) :
    Knows detected (⟨m, .inHand w (Consumer.publish followers)⟩ : Token H) := by
  cases followers with
  | nil => exact ⟨hm, trivial⟩
  | cons f rest => exact ⟨hm, h⟩

theorem knows_callReturns {m : StageMessage} {w : WorkerId} {record : Record} {world : W}
    {phase : Phase H} (h : callReturns handlers m w record world phase = some e)
    (hknows : Knows record.detected (⟨m, .inHand w phase⟩ : Token H)) :
    ∀ t ∈ e.own.toList ++ e.sent, Knows e.record.detected t := by
  obtain ⟨hown, hplace⟩ := hknows
  cases phase with
  | handling h' => cases h
  | completing m' =>
    cases h
    simp only [Option.toList_some, List.append_nil, List.forall_mem_singleton]
    apply knows_reserve
    · intro hstage
      rw [if_neg hstage]
      exact hown hstage
    · intro f hf
      rw [followers_family hf]
      by_cases hstage : m.stage = "detect"
      · exact if_pos hstage
      · rw [if_neg hstage, hown hstage, hplace hstage]
  | reserving follower rest =>
    cases h
    simp only [Option.toList_some, List.append_nil, List.forall_mem_singleton]
    exact ⟨hown, hplace⟩
  | publishing follower rest =>
    cases h
    simp only [Option.toList_some, List.singleton_append, List.forall_mem_cons, List.not_mem_nil,
      false_implies, implies_true, and_true]
    constructor
    · exact knows_publish hown fun f hf => hplace f (List.mem_cons_of_mem _ hf)
    · exact ⟨fun _ => hplace follower List.mem_cons_self, trivial⟩
  | failing exc =>
    obtain ⟨_, _, _, -, rfl⟩ | ⟨_, -, rfl⟩ := callReturns_failing h
    · simpa [Knows] using hown
    · simpa [Knows] using hown
  | acking =>
    cases h
    simp
  | received => cases h; simpa [Knows] using hown
  | condemning reason => cases h; simpa [Knows] using hown
  | deadLettering reason => cases h; simpa [Knows] using hown
  | retrying delayMs => cases h; simpa [Knows, StageMessage.retried] using hown

/-- A run and how far its stages have come. A delivery that reserves stages is the only one to. -/
structure Dispatched (r : RunState H) (b : Board String) : Prop where
  shows : Shows r b
  sole : ∀ t ∈ r.tokens, ∀ w follower rest, t.place = .inHand w (.reserving follower rest) →
    ∀ σ, b σ = .reserved → σ ∈ (follower :: rest).map (·.stage)
  knows : ∀ t ∈ r.tokens, Knows r.record.detected t
  settled : r.record.detected.isSome ↔ b "detect" = .succeeded
  sound : ∀ family, (∀ found, r.record.detected = some found → found = family) →
    Sound (route family) b

namespace Dispatched

theorem knows_replace (h : Dispatched r b) (hdetected : e.record.detected = r.record.detected)
    (hknows : ∀ t' ∈ e.own.toList ++ e.sent, Knows e.record.detected t') :
    ∀ t' ∈ (r.replace i e).tokens, Knows (r.replace i e).record.detected t' := by
  intro t' ht'
  rcases mem_replace.mp ht' with hnew | ⟨j, -, hj⟩
  · exact hknows t' hnew
  · have := h.knows t' (List.mem_of_getElem? hj)
    rwa [← hdetected] at this

theorem sole_replace (h : Dispatched r b)
    (hnew : ∀ σ, (σ, Duty.reserve) ∉ (e.own.toList ++ e.sent).flatMap agenda)
    (hkept : ∀ σ, b' σ = .reserved → b σ = .reserved) :
    ∀ t' ∈ (r.replace i e).tokens, ∀ w follower rest,
      t'.place = .inHand w (.reserving follower rest) →
        ∀ σ, b' σ = .reserved → σ ∈ (follower :: rest).map (·.stage) := by
  intro t' ht' w follower rest hplace σ hσ
  rcases mem_replace.mp ht' with ht' | ⟨j, -, hj⟩
  · refine absurd (List.mem_flatMap.mpr ⟨t', ht', ?_⟩) (hnew follower.stage)
    simp [agenda, hplace]
  · exact h.sole t' (List.mem_of_getElem? hj) w follower rest hplace σ (hkept σ hσ)

theorem stutter (h : Dispatched r b) (ht : r.tokens[i]? = some t) (hrecord : e.record = r.record)
    (hagenda : (e.own.toList ++ e.sent).flatMap agenda = agenda t)
    (hreserve : ∀ σ, (σ, Duty.reserve) ∉ agenda t)
    (hknows : ∀ t' ∈ e.own.toList ++ e.sent, Knows e.record.detected t') :
    Dispatched (r.replace i e) b := by
  have hdetected : e.record.detected = r.record.detected := by rw [hrecord]
  constructor
  · exact h.shows.stutter ht hrecord hagenda
  · exact h.sole_replace (hagenda ▸ hreserve) fun σ hσ => hσ
  · exact h.knows_replace hdetected hknows
  · exact hdetected ▸ h.settled
  · intro family hfamily
    exact h.sound family (hdetected ▸ hfamily)

theorem shift (h : Dispatched r b) (ht : r.tokens[i]? = some t) {σ : String} (d d' : Duty)
    {m : Mode} (hold : agenda t = [(σ, d)])
    (hnew : (e.own.toList ++ e.sent).flatMap agenda = [(σ, d')])
    (hrow : ∀ τ, e.record.rows.status τ = if τ = σ then modeRow m else r.record.rows.status τ)
    (hpublished : e.record.published = r.record.published)
    (hdetected : e.record.detected = r.record.detected) (hduties : modeDuties m = [d'])
    (hreserve : d' ≠ .reserve) (hcount : modePublished m = modePublished (b σ))
    (hknows : ∀ t' ∈ e.own.toList ++ e.sent, Knows e.record.detected t')
    (hstep : ∀ family, Step (route family) b (Function.update b σ m)) :
    Dispatched (r.replace i e) (Function.update b σ m) := by
  have hbefore : modeDuties (b σ) = [d] :=
    h.shows.duties_eq (List.mem_of_getElem? ht) (hold ▸ List.mem_singleton_self _)
  constructor
  · exact h.shows.shift ht hold hnew hrow hpublished hduties hcount
  · apply h.sole_replace
    · intro τ
      rw [hnew, List.mem_singleton, Prod.mk.injEq]
      exact fun heq => hreserve heq.2.symm
    · intro τ hτ
      by_cases heq : τ = σ
      · subst heq
        rw [Function.update_self] at hτ
        subst hτ
        exact absurd (List.singleton_inj.mp hduties).symm hreserve
      · rwa [Function.update_of_ne heq] at hτ
  · exact h.knows_replace hdetected hknows
  · change e.record.detected.isSome ↔ _
    rw [hdetected, h.settled]
    by_cases heq : "detect" = σ
    · subst heq
      rw [Function.update_self]
      constructor
      · intro hdone
        simp [hdone, modeDuties] at hbefore
      · rintro rfl
        simp [modeDuties] at hduties
    · rw [Function.update_of_ne heq]
  · intro family hfamily
    exact (h.sound family (hdetected ▸ hfamily)).step (hstep family)

theorem mode_eq (h : Dispatched r b) (ht : r.tokens[i]? = some t) {σ : String} {d : Duty}
    (hold : (σ, d) ∈ agenda t) : modeDuties (b σ) = [d] :=
  h.shows.duties_eq (List.mem_of_getElem? ht) hold

theorem received (h : Dispatched r b) {m : StageMessage} {w : WorkerId} {world : W}
    (ht : r.tokens[i]? = some ⟨m, .inHand w .received⟩)
    (hcall : callReturns handlers m w r.record world .received = some e) :
    Dispatched (r.replace i e) (Function.update b m.stage .running) := by
  have hknows := knows_callReturns hcall (h.knows _ (List.mem_of_getElem? ht))
  have hmode : b m.stage = .entered ∨ b m.stage = .waiting := by
    have := h.mode_eq ht (List.mem_singleton_self (m.stage, Duty.wait))
    cases hm : b m.stage <;> simp [hm, modeDuties] at this ⊢
  cases hcall
  apply h.shift ht .wait .act rfl rfl _ rfl rfl rfl (by decide) _ hknows
  · exact fun family => .begin hmode
  · exact fun τ => StageRows.status_beginStage _ _ _ τ
  · rcases hmode with hm | hm <;> rw [hm] <;> rfl

theorem running_of_act (h : Dispatched r b) (ht : r.tokens[i]? = some t) {σ : String}
    (hold : (σ, Duty.act) ∈ agenda t) : b σ = .running := by
  have := h.mode_eq ht hold
  cases hm : b σ <;> simp [hm, modeDuties] at this ⊢

theorem failing (h : Dispatched r b) {m : StageMessage} {w : WorkerId} {world : W} {exc : Exc}
    (ht : r.tokens[i]? = some ⟨m, .inHand w (.failing exc)⟩)
    (hcall : callReturns handlers m w r.record world (.failing exc) = some e) :
    ∃ b', Dispatched (r.replace i e) b' := by
  have hknows := knows_callReturns hcall (h.knows _ (List.mem_of_getElem? ht))
  have hmode := h.running_of_act ht (List.mem_singleton_self (m.stage, Duty.act))
  obtain ⟨_, _, _, -, rfl⟩ | ⟨_, -, rfl⟩ := callReturns_failing hcall
  · refine ⟨_, h.shift ht .act .retry (m := .postponed) rfl rfl ?_ rfl rfl rfl
      (by decide) ?_ hknows fun family => .postpone hmode⟩
    · exact fun τ => StageRows.status_failStage _ _ _ _ τ
    · rw [hmode]
      rfl
  · refine ⟨_, h.shift ht .act .bury (m := .failed) rfl rfl ?_ rfl rfl rfl
      (by decide) ?_ hknows fun family => .fail hmode⟩
    · exact fun τ => StageRows.status_failStage _ _ _ _ τ
    · rw [hmode]
      rfl

theorem retrying (h : Dispatched r b) {m : StageMessage} {w : WorkerId} {world : W} {delayMs : ℕ}
    (ht : r.tokens[i]? = some ⟨m, .inHand w (.retrying delayMs)⟩)
    (hcall : callReturns handlers m w r.record world (.retrying delayMs) = some e) :
    Dispatched (r.replace i e) (Function.update b m.stage .waiting) := by
  have hknows := knows_callReturns hcall (h.knows _ (List.mem_of_getElem? ht))
  have hmode : b m.stage = .postponed := by
    have := h.mode_eq ht (List.mem_singleton_self (m.stage, Duty.retry))
    cases hm : b m.stage <;> simp [hm, modeDuties] at this ⊢
  cases hcall
  apply h.shift ht .retry .wait rfl rfl _ rfl rfl rfl (by decide) _ hknows
  · exact fun family => .retry hmode
  · intro τ
    by_cases hτ : τ = m.stage
    · subst hτ
      rw [if_pos rfl, h.shows.row, hmode]
      rfl
    · rw [if_neg hτ]
  · rw [hmode]
    rfl

/-- A completion goes on along the route of the family it carries. -/
theorem completing_sound (h : Dispatched r b) {m m' : StageMessage} {w : WorkerId}
    (ht : r.tokens[i]? = some ⟨m, .inHand w (.completing m')⟩) :
    (if m.stage = "detect" then r.record.detected = none
        else r.record.detected = some m'.family) ∧ Sound (route m'.family) b := by
  obtain ⟨hown, hplace⟩ := h.knows _ (List.mem_of_getElem? ht)
  by_cases hstage : m.stage = "detect"
  · have hmode := h.running_of_act ht (List.mem_singleton_self (m.stage, Duty.act))
    have hnone : r.record.detected = none := by
      rw [← Option.not_isSome_iff_eq_none, h.settled, ← hstage, hmode]
      decide
    rw [if_pos hstage]
    exact ⟨hnone, h.sound _ (by simp [hnone])⟩
  · have hfound : r.record.detected = some m'.family := by rw [hown hstage, hplace hstage]
    rw [if_neg hstage]
    exact ⟨hfound, h.sound _ (by simp [hfound])⟩

theorem sole_complete (h : Dispatched r b) {m : StageMessage} {w : WorkerId}
    {followers : List StageMessage} (hnone : ∀ τ, b τ ≠ .reserved)
    (hnew : e.own.toList ++ e.sent = [⟨m, .inHand w (reserve followers)⟩]) :
    ∀ t' ∈ (r.replace i e).tokens, ∀ w' follower rest,
      t'.place = .inHand w' (.reserving follower rest) →
        ∀ σ, completed b m.stage followers σ = .reserved → σ ∈ (follower :: rest).map (·.stage) := by
  intro t' ht' w' follower rest hplace σ hσ
  have hmem : σ ∈ followers.map (·.stage) := by
    by_contra hout
    by_cases hown : σ = m.stage
    · simp [hown] at hσ
    · exact hnone σ ((completed_of_not_mem hown hout).symm.trans hσ)
  rcases mem_replace.mp ht' with ht' | ⟨j, -, hj⟩
  · rw [hnew, List.mem_singleton] at ht'
    subst ht'
    cases followers with
    | nil => cases hplace
    | cons f fs =>
      cases hplace
      exact hmem
  · have hreserve : (follower.stage, Duty.reserve) ∈ agenda t' := by simp [agenda, hplace]
    have := h.mode_eq hj hreserve
    refine absurd ?_ (hnone follower.stage)
    cases hm : b follower.stage <;> simp [hm, modeDuties] at this ⊢

theorem completing (h : Dispatched r b) {m m' : StageMessage} {w : WorkerId} {world : W}
    (ht : r.tokens[i]? = some ⟨m, .inHand w (.completing m')⟩)
    (hcall : callReturns handlers m w r.record world (.completing m') = some e) :
    ∃ b', Dispatched (r.replace i e) b' := by
  have hknows := knows_callReturns hcall (h.knows _ (List.mem_of_getElem? ht))
  have hmode := h.running_of_act ht (List.mem_singleton_self (m.stage, Duty.act))
  obtain ⟨hfound, hsound⟩ := h.completing_sound ht
  have hfollowers := mem_followers h.shows hsound hmode
  cases hcall
  generalize hnext : nextMessages PIPELINE m' _ = followers at hfollowers hknows
  have hidle : ∀ τ ∈ followers.map (·.stage), τ ≠ m.stage ∧ b τ = .idle := by
    intro τ hτ
    have hτidle := ((hfollowers τ).mp hτ).2.1
    refine ⟨?_, hτidle⟩
    rintro rfl
    simp [hmode] at hτidle
  have hnone : ∀ τ, b τ ≠ .reserved := fun τ hτ => by
    have := hsound.quiet τ hτ m.stage
    simp [hmode, Mode.busy] at this
  refine ⟨completed b m.stage followers, ?_, ?_, ?_, ?_, ?_⟩
  · apply h.shows.complete ht rfl _ _ rfl hmode (hnext ▸ followers_nodup m' _) hidle
    · simp [reserve_agenda]
    · exact fun τ => StageRows.status_completeStage _ _ τ
  · exact h.sole_complete hnone rfl
  · intro t' ht'
    rcases mem_replace.mp ht' with hnew | ⟨j, -, hj⟩
    · exact hknows t' hnew
    · have hother := h.knows t' (List.mem_of_getElem? hj)
      change Knows (if m.stage = "detect" then some m'.family else r.record.detected) t'
      split_ifs at hfound ⊢
      · exact (hfound ▸ hother).of_none _
      · exact hother
  · change (if m.stage = "detect" then some m'.family else r.record.detected).isSome ↔ _
    by_cases hstage : m.stage = "detect"
    · simp [← hstage]
    · rw [if_neg hstage, h.settled]
      by_cases hmem : "detect" ∈ followers.map (·.stage)
      · simp [completed_of_mem (Ne.symm hstage) hmem, (hidle _ hmem).2]
      · rw [completed_of_not_mem (Ne.symm hstage) hmem]
  · intro family hfamily
    obtain rfl : m'.family = family := by
      apply hfamily
      change (if m.stage = "detect" then some m'.family else r.record.detected) = _
      split_ifs at hfound ⊢
      · rfl
      · exact hfound
    apply hsound.complete hmode completed_self
    · exact fun τ hτ hfrees => completed_of_mem hτ ((hfollowers τ).mpr hfrees)
    · exact fun τ hτ hfrees => completed_of_not_mem hτ fun hmem => hfrees ((hfollowers τ).mp hmem)

theorem reserving (h : Dispatched r b) {m follower : StageMessage} {rest : List StageMessage}
    {w : WorkerId} {world : W} (ht : r.tokens[i]? = some ⟨m, .inHand w (.reserving follower rest)⟩)
    (hcall : callReturns handlers m w r.record world (.reserving follower rest) = some e) :
    ∃ b', Dispatched (r.replace i e) b' := by
  have hknows := knows_callReturns hcall (h.knows _ (List.mem_of_getElem? ht))
  have hall : ∀ τ, b τ = .reserved ↔ τ ∈ (follower :: rest).map (·.stage) := by
    intro τ
    constructor
    · exact h.sole _ (List.mem_of_getElem? ht) w follower rest rfl τ
    · intro hτ
      obtain ⟨f, hf, rfl⟩ := List.mem_map.mp hτ
      have := h.mode_eq ht (List.mem_map_of_mem (f := fun f => (f.stage, Duty.reserve)) hf)
      cases hm : b f.stage <;> simp [hm, modeDuties] at this ⊢
  cases hcall
  let b' : Board String := fun τ => if b τ = .reserved then .owed else b τ
  have hannounced : ∀ τ, b τ = .reserved → b' τ = .owed := fun τ hτ => if_pos hτ
  have hkept : ∀ τ, b τ ≠ .reserved → b' τ = b τ := fun τ hτ => if_neg hτ
  refine ⟨b', ?_, ?_, ?_, ?_, ?_⟩
  · exact h.shows.announce ht rfl (List.flatMap_singleton _ _) rfl rfl hall hannounced hkept
  · apply h.sole_replace
    · simp [agenda]
    · intro σ hσ
      by_contra hreserved
      exact hreserved (hkept σ hreserved ▸ hσ)
  · exact h.knows_replace rfl hknows
  · refine h.settled.trans ?_
    by_cases hdetect : b "detect" = .reserved
    · simp [hannounced _ hdetect, hdetect]
    · rw [hkept _ hdetect]
  · intro family hfamily
    exact (h.sound family hfamily).announce hannounced hkept

theorem publishing (h : Dispatched r b) {m follower : StageMessage} {rest : List StageMessage}
    {w : WorkerId} {world : W} (ht : r.tokens[i]? = some ⟨m, .inHand w (.publishing follower rest)⟩)
    (hcall : callReturns handlers m w r.record world (.publishing follower rest) = some e) :
    Dispatched (r.replace i e) (Function.update b follower.stage .waiting) := by
  have hknows := knows_callReturns hcall (h.knows _ (List.mem_of_getElem? ht))
  have hmode : b follower.stage = .owed := by
    have := h.mode_eq ht (List.mem_map_of_mem (f := fun f => (f.stage, Duty.owe))
      (List.mem_cons_self (a := follower) (l := rest)))
    cases hm : b follower.stage <;> simp [hm, modeDuties] at this ⊢
  cases hcall
  have hnew : ([⟨m, .inHand w (Consumer.publish rest)⟩, ⟨follower, .queued⟩] :
      List (Token H)).flatMap agenda =
        (rest.map fun f => (f.stage, .owe)) ++ [(follower.stage, .wait)] := by
    rw [List.flatMap_cons, publish_agenda]
    rfl
  constructor
  · exact h.shows.publish ht rfl hnew rfl rfl
  · apply h.sole_replace
    · intro σ
      change (σ, Duty.reserve) ∉ List.flatMap agenda [_, _]
      rw [hnew]
      simp
    · intro σ hσ
      by_cases heq : σ = follower.stage
      · simp [heq] at hσ
      · rwa [Function.update_of_ne heq] at hσ
  · exact h.knows_replace rfl hknows
  · refine h.settled.trans ?_
    by_cases hdetect : "detect" = follower.stage
    · rw [hdetect, Function.update_self, hmode]
      decide
    · rw [Function.update_of_ne hdetect]
  · intro family hfamily
    exact (h.sound family hfamily).step (.publish hmode)

theorem call (h : Dispatched r b) {m : StageMessage} {w : WorkerId} {world : W} {phase : Phase H}
    (ht : r.tokens[i]? = some ⟨m, .inHand w phase⟩)
    (hcall : callReturns handlers m w r.record world phase = some e) :
    ∃ b', Dispatched (r.replace i e) b' := by
  have hknows := knows_callReturns hcall (h.knows _ (List.mem_of_getElem? ht))
  cases phase with
  | received => exact ⟨_, h.received ht hcall⟩
  | handling h' => cases hcall
  | completing m' => exact h.completing ht hcall
  | reserving follower rest => exact h.reserving ht hcall
  | publishing follower rest => exact ⟨_, h.publishing ht hcall⟩
  | failing exc => exact h.failing ht hcall
  | retrying delayMs => exact ⟨_, h.retrying ht hcall⟩
  | acking =>
    cases hcall
    exact ⟨b, h.stutter ht rfl rfl (by simp [agenda]) hknows⟩
  | condemning reason =>
    cases hcall
    exact ⟨b, h.stutter ht rfl rfl (by simp [agenda]) hknows⟩
  | deadLettering reason =>
    cases hcall
    exact ⟨b, h.stutter ht rfl rfl (by simp [agenda]) hknows⟩

theorem turn (h : Dispatched r b) (ht : r.tokens[i]? = some t)
    {live : WorkerId → Option (List String)} {world : W} {a : Act C}
    (hturn : Turn handlers live r.record world t a e) (hcalls : ∀ done, a ≠ .callRaises done)
    (hstage : t.message.stage ∈ registeredStages) : ∃ b', Dispatched (r.replace i e) b' := by
  have hknows := h.knows t (List.mem_of_getElem? ht)
  cases hturn with
  | deliver =>
    rw [pickUp, if_pos hstage]
    exact ⟨b, h.stutter ht rfl rfl (by simp [agenda]) (by simpa [Knows] using hknows.1)⟩
  | work => exact ⟨b, h.stutter ht rfl rfl (by simp [agenda]) (by simpa [Knows] using hknows.1)⟩
  | @finish m w _ family hresult =>
    refine ⟨b, h.stutter ht rfl rfl (by simp [agenda]) ?_⟩
    simp only [Option.toList_some, List.append_nil, List.forall_mem_singleton]
    refine ⟨hknows.1, fun hdetect => ?_⟩
    cases family with
    | none => rfl
    | some found => exact absurd ((handlers.family_iff hresult).mp rfl) hdetect
  | fail => exact ⟨b, h.stutter ht rfl rfl (by simp [agenda]) (by simpa [Knows] using hknows.1)⟩
  | expire => exact ⟨b, h.stutter ht rfl rfl (by simp [agenda]) (by simpa [Knows] using hknows.1)⟩
  | call hcall => exact h.call ht hcall
  | raises done => exact absurd rfl (hcalls done)

end Dispatched

theorem dispatched_upload (documentId run pipelineVersion traceId : String) :
    Dispatched (({} : RunState H).upload (uploadMessage documentId run pipelineVersion traceId))
      (Function.update (fun _ => .idle) "detect" .entered) := by
  have hother : ∀ σ ≠ "detect", Function.update (fun _ => Mode.idle) "detect" .entered σ = .idle :=
    fun σ hσ => Function.update_of_ne hσ _ _
  constructor
  · constructor
    · intro σ
      by_cases hσ : σ = "detect"
      · subst hσ
        rfl
      · rw [hother σ hσ]
        rfl
    · intro σ
      change duties σ [("detect", .wait)] = _
      rw [duties_cons]
      by_cases hσ : σ = "detect"
      · subst hσ
        rfl
      · rw [hother σ hσ, if_neg (Ne.symm hσ)]
        rfl
    · intro σ
      change List.countP _ [uploadMessage documentId run pipelineVersion traceId] = _
      by_cases hσ : σ = "detect"
      · subst hσ
        simp [uploadMessage, modePublished]
      · rw [hother σ hσ]
        simp [uploadMessage, modePublished, Ne.symm hσ]
  · intro t ht w follower rest hplace
    rw [List.mem_singleton.mp ht] at hplace
    cases hplace
  · intro t ht
    rw [List.mem_singleton.mp ht]
    exact ⟨fun hstage => absurd rfl hstage, trivial⟩
  · simp [RunState.upload]
  · intro family _
    exact Sound.start (route_root family).1 (route_root family).2

theorem published_turn {live : WorkerId → Option (List String)} {record : Record} {world : W}
    {a : Act C} (h : Turn handlers live record world t a e) (hcalls : ∀ done, a ≠ .callRaises done)
    (hpublished : record.published ≠ []) : e.record.published ≠ [] := by
  cases h with
  | @call m w phase _ hcall =>
    cases phase with
    | handling h' => cases hcall
    | failing exc =>
      obtain ⟨_, _, _, -, rfl⟩ | ⟨_, -, rfl⟩ := callReturns_failing hcall
      · exact hpublished
      · exact hpublished
    | publishing follower rest =>
      cases hcall
      simp
    | _ =>
      cases hcall
      exact hpublished
  | raises done => exact absurd rfl (hcalls done)
  | _ => exact hpublished

/-- No worker dies and every call on the store and the broker succeeds. -/
def CrashFree : Event C → Prop
  | .crash _ => False
  | .act _ _ (.callRaises _) => False
  | _ => True

theorem dispatched_of_reachable {s : System W H}
    (h : Reachable Initial (exec handlers) (fun _ e => CrashFree e) s) (run : String) :
    s.runs run = {} ∨ ((s.runs run).record.published ≠ [] ∧ ∃ b, Dispatched (s.runs run) b) := by
  induction h with
  | start hinit => exact Or.inl (congrFun hinit.2 run)
  | @next s s' e hreach hok hexec ih =>
    rcases run_cases hexec run with ⟨heq, -⟩ | ⟨_, _, _, -, hnew, heq⟩ | ⟨w, rfl, -⟩ |
      ⟨i, a, t, eff, rfl, ht, hturn, heq⟩
    · rwa [heq]
    · rcases ih with hempty | ⟨hpublished, -⟩
      · rw [heq, hempty]
        exact Or.inr ⟨by simp [RunState.upload], _, dispatched_upload _ _ _ _⟩
      · exact absurd hnew hpublished
    · exact hok.elim
    · rcases ih with hempty | ⟨hpublished, b, hb⟩
      · rw [hempty] at ht
        cases ht
      · have hcalls : ∀ done, a ≠ .callRaises done := by
          rintro done rfl
          exact hok
        have hstage := stages_registered hreach run t (List.mem_of_getElem? ht) _ List.mem_cons_self
        rw [heq]
        exact Or.inr ⟨published_turn hturn hcalls hpublished, hb.turn ht hturn hcalls hstage⟩

namespace Dispatched

theorem published_once (h : Dispatched r b) (σ : String) :
    r.record.published.countP (fun m => m.stage = σ ∧ m.attempt = 1) ≤ 1 := by
  have hcount := h.shows.count σ
  have hle : modePublished (b σ) ≤ 1 := by cases b σ <;> decide
  have hmono : r.record.published.countP (fun m => m.stage = σ ∧ m.attempt = 1) ≤
      r.record.published.countP (·.stage = σ) := by
    apply List.countP_mono_left
    simp +contextual
  omega

/-- A stage that is not idle is on the route of the family found, behind its dependencies. -/
theorem deps_succeeded (h : Dispatched r b) {family : FormatFamily}
    (hfamily : r.record.detected = some family) {σ : String} (hσ : b σ ≠ .idle) :
    ∃ stage ∈ stagesFor PIPELINE family, stage.name = σ ∧
      ∀ dep ∈ effectiveDeps PIPELINE family stage, r.record.rows.status dep = some .succeeded := by
  have hsound : Sound (route family) b := by
    apply h.sound
    intro found heq
    rw [hfamily] at heq
    exact (Option.some.inj heq).symm
  obtain ⟨stage, hstage, hmem, rfl⟩ := mem_stageNamesFor.mp (hsound.mem hσ)
  refine ⟨stage, mem_stagesFor.mpr ⟨hstage, hmem⟩, rfl, fun dep hdep => ?_⟩
  rw [h.shows.row, modeRow_eq_succeeded]
  apply hsound.closed stage.name hσ
  rwa [show (route family).deps stage.name = _ from depsOf_eq hstage]

/-- When only dead letters are left, a stage has failed or all have succeeded. -/
theorem finished (h : Dispatched r b) (hdead : ∀ t ∈ r.tokens, ∃ reason, t.place = .dead reason) :
    (∃ family, r.record.detected = some family ∧ ∀ stage ∈ stagesFor PIPELINE family,
        r.record.rows.status stage.name = some .succeeded) ∨
      ∃ t ∈ r.tokens, r.record.rows.status t.message.stage = some .failed := by
  by_cases hfailed : ∃ σ, b σ = .failed
  · obtain ⟨σ, hσ⟩ := hfailed
    right
    have hbury : Duty.bury ∈ duties σ (r.tokens.flatMap agenda) := by
      rw [h.shows.duty, hσ]
      exact List.mem_singleton_self _
    obtain ⟨t, ht, hagenda⟩ := List.mem_flatMap.mp (mem_duties.mp hbury)
    obtain ⟨reason, hplace⟩ := hdead t ht
    refine ⟨t, ht, ?_⟩
    rw [h.shows.row]
    simp only [agenda, hplace, List.mem_singleton, Prod.mk.injEq, and_true] at hagenda
    rw [← hagenda, hσ]
    rfl
  · left
    have honly : ∀ σ, ∀ d ∈ modeDuties (b σ), d = .bury := by
      intro σ d hd
      rw [← h.shows.duty σ, mem_duties] at hd
      obtain ⟨t, ht, hagenda⟩ := List.mem_flatMap.mp hd
      obtain ⟨reason, hplace⟩ := hdead t ht
      simp only [agenda, hplace, List.mem_singleton, Prod.mk.injEq] at hagenda
      exact hagenda.2
    have hmode : ∀ σ, b σ = .idle ∨ b σ = .succeeded := by
      intro σ
      have := honly σ
      have hσ := fun hσ => hfailed ⟨σ, hσ⟩
      cases hm : b σ <;> simp_all [modeDuties]
    have hdone : ∀ family, (∀ found, r.record.detected = some found → found = family) →
        ∀ σ ∈ (route family).members, b σ = .succeeded := by
      intro family hfamily
      apply (h.sound family hfamily).finished
      · intro σ
        rcases hmode σ with hσ | hσ <;> rw [hσ] <;> rfl
      · intro σ
        rcases hmode σ with hσ | hσ <;> simp [hσ]
      · exact fun σ hσ => hfailed ⟨σ, hσ⟩
    cases hdetected : r.record.detected with
    | none =>
      have := hdone .pdf (by simp [hdetected]) "detect" (route_root .pdf).1
      rw [← h.settled, hdetected] at this
      exact absurd this (by simp)
    | some family =>
      refine ⟨family, rfl, fun stage hstage => ?_⟩
      rw [h.shows.row, modeRow_eq_succeeded]
      apply hdone family (by simp [hdetected])
      obtain ⟨hmem, hfamily⟩ := mem_stagesFor.mp hstage
      exact mem_stageNamesFor.mpr ⟨stage, hmem, hfamily, rfl⟩

end Dispatched

/-- Without crashes each stage is published once, starts behind its dependencies, and a run comes to
    rest finished or with a dead letter. -/
theorem dispatched_exactly_once {s : System W H}
    (h : Reachable Initial (exec handlers) (fun _ e => CrashFree e) s) (run : String) :
    (∀ σ, (s.runs run).record.published.countP (fun m => m.stage = σ ∧ m.attempt = 1) ≤ 1) ∧
      (∀ t ∈ (s.runs run).tokens, ∀ w phase, t.place = .inHand w phase →
        (phase = .received ∨ ∃ h, phase = .handling h) →
          ((s.runs run).record.detected = none ∧ t.message.stage = "detect") ∨
            ∃ family, (s.runs run).record.detected = some family ∧
              ∃ stage ∈ stagesFor PIPELINE family, stage.name = t.message.stage ∧
                ∀ dep ∈ effectiveDeps PIPELINE family stage,
                  (s.runs run).record.rows.status dep = some .succeeded) ∧
      ((s.runs run).record.published ≠ [] →
        (∀ t ∈ (s.runs run).tokens, ∃ reason, t.place = .dead reason) →
          (∃ family, (s.runs run).record.detected = some family ∧
              ∀ stage ∈ stagesFor PIPELINE family,
                (s.runs run).record.rows.status stage.name = some .succeeded) ∨
            ∃ t ∈ (s.runs run).tokens,
              (s.runs run).record.rows.status t.message.stage = some .failed) := by
  rcases dispatched_of_reachable h run with hempty | ⟨-, b, hb⟩
  · rw [hempty]
    simp
  · refine ⟨hb.published_once, fun t ht w phase hplace hphase => ?_, fun _ => hb.finished⟩
    have hbusy : b t.message.stage ≠ .idle := by
      have hduty : (t.message.stage, Duty.wait) ∈ agenda t ∨ (t.message.stage, Duty.act) ∈ agenda t := by
        rcases hphase with rfl | ⟨h', rfl⟩ <;> simp [agenda, hplace]
      intro hidle
      rcases hduty with hduty | hduty
      · simpa [hidle, modeDuties] using hb.shows.duties_eq ht hduty
      · simpa [hidle, modeDuties] using hb.shows.duties_eq ht hduty
    cases hdetected : (s.runs run).record.detected with
    | none =>
      refine Or.inl ⟨rfl, ?_⟩
      by_contra hstage
      have := (hb.knows t ht).1 hstage
      simp [hdetected] at this
    | some family => exact Or.inr ⟨family, rfl, hb.deps_succeeded hdetected hbusy⟩

end

def stageTurns : List (Event Unit) :=
  [.act "run" 0 (.deliver 0), .act "run" 0 .call, .act "run" 0 .finish, .act "run" 0 .call,
    .act "run" 0 .call, .act "run" 0 .call, .act "run" 0 .call]

theorem a_text_file_is_dispatched_once :
    ∃ s, Reachable Initial (exec (prompt .flow)) (fun _ e => CrashFree e) s ∧
      (s.runs "run").record.published.length = 5 ∧
      (∀ σ, (s.runs "run").record.published.countP (fun m => m.stage = σ ∧ m.attempt = 1) ≤ 1) ∧
      ∃ family, (s.runs "run").record.detected = some family ∧
        ∀ stage ∈ stagesFor PIPELINE family,
          (s.runs "run").record.rows.status stage.name = some .succeeded := by
  let events : List (Event Unit) :=
    [.upload "document" "run" "v1" "trace", .start 0 everyStage] ++
      (List.replicate 4 stageTurns).flatten ++ stageTurns.take 5
  have hend : (run (exec (prompt .flow)) fresh events).map (fun s =>
      ((s.runs "run").tokens.length, (s.runs "run").record.published.length)) = some (0, 5) := by
    decide +kernel
  obtain ⟨s, hrun, heq⟩ := Option.map_eq_some_iff.mp hend
  obtain ⟨htokens, hpublished⟩ := Prod.mk.inj heq
  have hreach : Reachable Initial (exec (prompt .flow)) (fun _ e => CrashFree e) s := by
    refine reachable_of_run (.start ⟨rfl, rfl⟩) ?_ hrun
    intro e he _
    have hturns : ∀ e ∈ stageTurns, CrashFree e := by
      simp [stageTurns, CrashFree]
    simp only [events, List.mem_append, List.mem_flatten, List.mem_replicate] at he
    rcases he with (he | ⟨turns, ⟨-, rfl⟩, he⟩) | he
    · simp only [List.mem_cons, List.not_mem_nil, or_false] at he
      rcases he with rfl | rfl <;> trivial
    · exact hturns e he
    · exact hturns e (List.mem_of_mem_take he)
  have hnil := List.length_eq_zero_iff.mp htokens
  obtain ⟨honce, -, hrest⟩ := dispatched_exactly_once hreach "run"
  refine ⟨s, hreach, hpublished, honce, ?_⟩
  have hsome : (s.runs "run").record.published ≠ [] := fun h => by simp [h] at hpublished
  rcases hrest hsome (by simp [hnil]) with hdone | ⟨t, ht, -⟩
  · exact hdone
  · simp [hnil] at ht

end Ragent.Dispatch
