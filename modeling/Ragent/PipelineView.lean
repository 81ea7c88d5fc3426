import Ragent.DocumentOutcomes

set_option autoImplicit false

/-!
# What the pipeline view shows

`document_detail` of `ragent/api/main.py`, and the column `format_family` that `set_document_format`
writes. The endpoint reads the row of the document and the rows of its stages in two statements, and
the workers go on between them.
-/
namespace Ragent.PipelineView
open Formats Stages StageStores Runner GuardedRuns Consumer LayeredDispatch Dispatch PyNumbers
  DocumentTables StageHandlers DocumentMarks DocumentOutcomes

/-- An entry of `stages`, without its metrics. -/
structure StageState where
  name : String
  status : StageStatus
  error : Option String
  deriving DecidableEq, Repr

structure DocumentDetail where
  status : DocStatus
  formatFamily : Option FormatFamily
  stages : List StageState
  deriving DecidableEq

/-- `by_name.get(name)`, where the last row for a stage counts. -/
def byName (rows : List (String × StageRow)) (name : String) : Option StageRow :=
  rows.reverse.lookup name

def stageState (rows : List (String × StageRow)) (name : String) : StageState where
  name := name
  status := (byName rows name).elim .pending (·.status)
  error := (byName rows name).bind (·.error)

def expected (family : Option FormatFamily) : List String :=
  (family.elim PIPELINE (stagesFor PIPELINE)).map (·.name)

/-- The answer for the row of the document, if there is one, and the rows of its stages. -/
def documentDetail (row : Option (DocStatus × Option FormatFamily))
    (rows : List (String × StageRow)) : Option DocumentDetail :=
  row.map fun row =>
    { status := row.1, formatFamily := row.2, stages := (expected row.2).map (stageState rows) }

abbrev IngestState := System World Execution × (String → Option FormatFamily)

/-- `set_document_format` -/
def noteFormat (s : System World Execution) (e : Event Choice)
    (formats : String → Option FormatFamily) : String → Option FormatFamily :=
  match e with
  | .act run i (.work (.format (some family))) => ((s.runs run).tokens[i]?).elim formats fun t =>
      Function.update formats t.message.documentId (some family)
  | _ => formats

section
variable {F : Type} [PyFloat F] (settings : Settings F)

def exec : IngestState → Event Choice → Option IngestState :=
  recorded (Consumer.exec (handlers settings)) noteFormat

end

def Start (s : IngestState) : Prop :=
  Initial s.1 ∧ s.2 = fun _ => none

/-- No worker dies, no call raises, a document is uploaded once, and a format found in it is the one
    it has. -/
def Steady (kind : String → FormatFamily) (s : IngestState) (e : Event Choice) : Prop :=
  Allowed s.1 e ∧ ∀ run i family, e = .act run i (.work (.format (some family))) →
    ∀ t, (s.1.runs run).tokens[i]? = some t → family = kind t.message.documentId

/-- What the query on the stages of the document may return. -/
def Lists (s : System World Execution) (d : String) (rows : List (String × StageRow)) : Prop :=
  ∀ stage row, (stage, row) ∈ rows ↔
    ∃ run, Of s run d ∧ (s.runs run).record.rows.lookup stage = some row

/-- The request gets the row of the document in one state and the rows of its stages in a later
    one. -/
structure Answered {F : Type} [PyFloat F] (settings : Settings F) (kind : String → FormatFamily)
    (d : String) (s t : IngestState)
    (detail : DocumentDetail) : Prop where
  later : Reachable (fun u => u = s) (exec settings) (Steady kind) t
  answer : ∃ rows, Lists t.1 d rows ∧
    documentDetail ((s.1.world.db.documents d).map fun status => (status, s.2 d)) rows = some detail

section
variable {rows : List (String × StageRow)} {name run d : String} {s : System World Execution}
  {family : Option FormatFamily}

theorem mem_of_byName {row : StageRow} (h : byName rows name = some row) : (name, row) ∈ rows := by
  obtain ⟨before, after, heq, -⟩ := List.lookup_eq_some_iff.mp h
  rw [← List.mem_reverse, heq]
  simp

theorem exists_row (h : (stageState rows name).status ≠ .pending) :
    ∃ row, byName rows name = some row := by
  cases hfound : byName rows name with
  | none => exact absurd (by rw [stageState, hfound]; rfl) h
  | some row => exact ⟨row, rfl⟩

theorem byName_eq (hsingle : ∀ run', Of s run' d → run' = run) (hof : Of s run d)
    (h : Lists s d rows) (name : String) :
    byName rows name = (s.runs run).record.rows.lookup name := by
  cases hfound : byName rows name with
  | some row =>
    obtain ⟨run', hof', hlookup⟩ := (h name row).mp (mem_of_byName hfound)
    rw [← hsingle run' hof', hlookup]
  | none =>
    cases hlookup : (s.runs run).record.rows.lookup name with
    | none => rfl
    | some row =>
      have hmem : (name, row) ∈ rows.reverse :=
        List.mem_reverse.mpr ((h name row).mpr ⟨run, hof, hlookup⟩)
      simpa using List.lookup_eq_none_iff.mp hfound _ hmem

theorem mem_expected : name ∈ expected family ↔
    ∃ stage ∈ PIPELINE, (∀ f, family = some f → f ∈ stage.families) ∧ stage.name = name := by
  cases family with
  | none => simp [expected]
  | some f => simp [expected, mem_stagesFor, and_assoc]

theorem expected_of_route {f : FormatFamily} (hfamily : ∀ f', family = some f' → f' = f)
    (h : name ∈ (route f).members) : name ∈ expected family := by
  obtain ⟨stage, hstage, hmem, hname⟩ := mem_stageNamesFor.mp h
  refine mem_expected.mpr ⟨stage, hstage, fun f' hf' => ?_, hname⟩
  rwa [hfamily f' hf']

end

def Noted (formats : String → Option FormatFamily) (t : Token Execution) : Prop :=
  match t.place with
  | .inHand _ (.handling (.detected family)) => formats t.message.documentId = some family
  | .inHand _ (.completing m) =>
    t.message.stage = "detect" → formats t.message.documentId = some m.family
  | _ => True

structure Told (formats : String → Option FormatFamily) (r : RunState Execution) : Prop where
  tokens : ∀ t ∈ r.tokens, Noted formats t
  detected : ∀ family, r.record.detected = some family →
    ∀ m ∈ r.record.published, formats m.documentId = some family

section
variable {F : Type} [PyFloat F] {settings : Settings F} {kind : String → FormatFamily}
  {formats formats' : String → Option FormatFamily} {r : RunState Execution} {record : Record}
  {world : World} {live : WorkerId → Option (List String)} {t : Token Execution} {a : Act Choice}
  {e : Effect World Execution} {d : String} {i : ℕ}

theorem Noted.mono (h : Noted formats t)
    (hkept : ∀ d family, formats d = some family → formats' d = some family) :
    Noted formats' t := by
  obtain ⟨m, place⟩ := t
  cases place with
  | inHand w phase =>
    cases phase with
    | handling k =>
      cases k with
      | detected family => exact hkept _ _ h
      | _ => trivial
    | completing m' => exact fun hstage => hkept _ _ (h hstage)
    | _ => trivial
  | _ => trivial

theorem noted_reserve (m : StageMessage) (w : WorkerId) (followers : List StageMessage) :
    Noted formats ⟨m, .inHand w (reserve followers)⟩ := by
  cases followers <;> trivial

theorem noted_publish (m : StageMessage) (w : WorkerId) (followers : List StageMessage) :
    Noted formats ⟨m, .inHand w (Consumer.publish followers)⟩ := by
  cases followers <;> trivial

theorem noted_of_call {m : StageMessage} {w : WorkerId} {phase : Phase Execution}
    (h : callReturns (handlers settings) m w record world phase = some e) :
    ∀ t ∈ e.own.toList ++ e.sent, Noted formats t := by
  cases phase with
  | received =>
    cases h
    exact List.forall_mem_singleton.mpr trivial
  | handling k => cases h
  | completing m' =>
    cases h
    exact List.forall_mem_singleton.mpr (noted_reserve _ _ _)
  | reserving follower rest =>
    cases h
    exact List.forall_mem_singleton.mpr trivial
  | publishing follower rest =>
    cases h
    exact List.forall_mem_cons.mpr ⟨noted_publish _ _ _, List.forall_mem_singleton.mpr trivial⟩
  | acking =>
    cases h
    exact List.forall_mem_nil _
  | failing exc =>
    obtain ⟨_, _, _, -, rfl⟩ | ⟨_, -, rfl⟩ := callReturns_failing h
    · exact List.forall_mem_singleton.mpr trivial
    · exact List.forall_mem_singleton.mpr trivial
  | condemning reason =>
    cases h
    exact List.forall_mem_singleton.mpr trivial
  | deadLettering reason =>
    cases h
    exact List.forall_mem_cons.mpr ⟨trivial, List.forall_mem_singleton.mpr trivial⟩
  | retrying delayMs =>
    cases h
    exact List.forall_mem_cons.mpr ⟨trivial, List.forall_mem_singleton.mpr trivial⟩

theorem noted_of_turn (h : Turn (handlers settings) live record world t a e)
    (hcalls : ∀ done, a ≠ .callRaises done) (hold : Noted formats t)
    (hkept : ∀ d family, formats d = some family → formats' d = some family)
    (hnew : ∀ family, a = .work (.format (some family)) →
      formats' t.message.documentId = some family) :
    ∀ t' ∈ e.own.toList ++ e.sent, Noted formats' t' := by
  cases h with
  | @deliver m w stages =>
    refine List.forall_mem_singleton.mpr ?_
    unfold pickUp
    split_ifs <;> trivial
  | @work m w c k k' world' hmove =>
    refine List.forall_mem_singleton.mpr ?_
    cases step_of_move hmove with
    | detects hstage family => exact hnew family rfl
    | _ => trivial
  | @finish m w k family hresult =>
    refine List.forall_mem_singleton.mpr fun hstage => ?_
    change m.stage = "detect" at hstage
    cases k with
    | detected found =>
      have hfamily : some found = family := by simpa [handlers, result, hstage] using hresult
      rw [← hfamily]
      exact hkept _ _ hold
    | returned => simp [handlers, result, hstage] at hresult
    | _ => cases hresult
  | fail exc => exact List.forall_mem_singleton.mpr trivial
  | call hcall => exact noted_of_call hcall
  | raises done => exact absurd rfl (hcalls done)
  | expire => exact List.forall_mem_singleton.mpr trivial

theorem detected_of_turn (h : Turn (handlers settings) live record world t a e)
    (hcalls : ∀ done, a ≠ .callRaises done) (hnoted : Noted formats t)
    (hdocument : t.message.documentId = d)
    (hold : ∀ family, record.detected = some family → formats d = some family)
    {family : FormatFamily} (hdetected : e.record.detected = some family) :
    formats d = some family := by
  cases h with
  | @call m w phase e hcall =>
    by_cases hcompleting : ∃ m', phase = .completing m'
    · obtain ⟨m', rfl⟩ := hcompleting
      cases hcall
      by_cases hstage : m.stage = "detect"
      · rw [if_pos hstage] at hdetected
        rw [← hdocument, ← hdetected]
        exact hnoted hstage
      · rw [if_neg hstage] at hdetected
        exact hold _ hdetected
    · apply hold
      rw [← hdetected]
      cases phase with
      | completing m' => exact absurd ⟨m', rfl⟩ hcompleting
      | handling k => cases hcall
      | failing exc => obtain ⟨_, _, _, -, rfl⟩ | ⟨_, -, rfl⟩ := callReturns_failing hcall <;> rfl
      | _ => cases hcall; rfl
  | raises done => exact absurd rfl (hcalls done)
  | _ => exact hold _ hdetected

theorem Told.turn (h : Told formats r)
    (hmessages : ∀ t ∈ r.tokens, ∀ m ∈ messages t, m.documentId = d)
    (hpublished : ∀ m ∈ r.record.published, m.documentId = d) (hne : r.record.published ≠ [])
    (ht : r.tokens[i]? = some t) (hturn : Turn (handlers settings) live r.record world t a e)
    (hcalls : ∀ done, a ≠ .callRaises done)
    (hkept : ∀ d family, formats d = some family → formats' d = some family)
    (hnew : ∀ family, a = .work (.format (some family)) →
      formats' t.message.documentId = some family) : Told formats' (r.replace i e) := by
  have hmem := List.mem_of_getElem? ht
  have hold : ∀ family, r.record.detected = some family → formats d = some family := by
    intro family hfamily
    obtain ⟨m, hm⟩ := List.exists_mem_of_ne_nil _ hne
    rw [← hpublished m hm]
    exact h.detected family hfamily m hm
  obtain ⟨-, new, hgrown, hdocuments⟩ := turn_stays hturn hcalls (hmessages t hmem)
  constructor
  · intro t' ht'
    obtain hfresh | ⟨j, -, hj⟩ := mem_replace.mp ht'
    · exact noted_of_turn hturn hcalls (h.tokens t hmem) hkept hnew t' hfresh
    · exact (h.tokens t' (List.mem_of_getElem? hj)).mono hkept
  · intro family hfamily m hm
    have hm' : m.documentId = d := by
      change m ∈ e.record.published at hm
      rw [hgrown] at hm
      obtain hbefore | hfresh := List.mem_append.mp hm
      · exact hpublished m hbefore
      · exact hdocuments m hfresh
    rw [hm']
    have hown : t.message.documentId = d := hmessages t hmem _ List.mem_cons_self
    exact hkept _ _ (detected_of_turn hturn hcalls (h.tokens t hmem) hown hold hfamily)

theorem Told.frame (h : Told formats r)
    (hkept : ∀ d family, formats d = some family → formats' d = some family) : Told formats' r where
  tokens t ht := (h.tokens t ht).mono hkept
  detected family hfamily m hm := hkept _ _ (h.detected family hfamily m hm)

end

section
variable {F : Type} [PyFloat F] {settings : Settings F} {kind : String → FormatFamily}
  {s t : IngestState} {d run : String}

theorem allowed_of_steady (h : Reachable Start (exec settings) (Steady kind) s) :
    Reachable Initial (Consumer.exec (handlers settings)) Allowed s.1 :=
  reachable_of_recorded (fun _ h => h.1) (fun _ _ h => h.1) h

theorem dispatched_of_steady (h : Reachable Start (exec settings) (Steady kind) s)
    (hof : Of s.1 run d) : ∃ b, Dispatched (s.1.runs run) b := by
  obtain hempty | ⟨-, hb⟩ :=
    dispatched_of_reachable ((allowed_of_steady h).mono fun _ _ h => h.1) run
  · obtain ⟨m, hm, -⟩ := hof
    rw [hempty] at hm
    cases hm
  · exact hb

theorem noteFormat_spec {e : Event Choice} (hok : Steady kind s e)
    (hold : ∀ d family, s.2 d = some family → family = kind d) :
    (∀ d family, s.2 d = some family → noteFormat s.1 e s.2 d = some family) ∧
      (∀ d family, noteFormat s.1 e s.2 d = some family → family = kind d) ∧
      ∀ run i family t, e = .act run i (.work (.format (some family))) →
        (s.1.runs run).tokens[i]? = some t →
          noteFormat s.1 e s.2 t.message.documentId = some family := by
  by_cases hformat : ∃ run i family t, e = .act run i (.work (.format (some family))) ∧
      (s.1.runs run).tokens[i]? = some t
  · obtain ⟨run, i, family, t, rfl, ht⟩ := hformat
    have hfamily := hok.2 run i family rfl t ht
    have hnote : noteFormat s.1 (.act run i (.work (.format (some family)))) s.2 =
        Function.update s.2 t.message.documentId (some family) := by
      simp only [noteFormat, ht, Option.elim_some]
    rw [hnote]
    refine ⟨fun d found hfound => ?_, fun d found hfound => ?_, ?_⟩
    · by_cases hd : d = t.message.documentId
      · rw [hd, Function.update_self, hfamily, hold d found hfound, hd]
      · rwa [Function.update_of_ne hd]
    · by_cases hd : d = t.message.documentId
      · rw [hd, Function.update_self] at hfound
        rw [← Option.some.inj hfound, hfamily, hd]
      · rw [Function.update_of_ne hd] at hfound
        exact hold d found hfound
    · rintro run' i' family' t' heq ht'
      cases heq
      rw [ht] at ht'
      cases ht'
      exact Function.update_self ..
  · have hnote : noteFormat s.1 e s.2 = s.2 := by
      unfold noteFormat
      split
      · rename_i run i family
        cases ht : (s.1.runs run).tokens[i]? with
        | none => rfl
        | some t => exact absurd ⟨run, i, family, t, rfl, ht⟩ hformat
      · rfl
    rw [hnote]
    exact ⟨fun _ _ h => h, hold, fun run i family t heq ht =>
      absurd ⟨run, i, family, t, heq, ht⟩ hformat⟩

/-- The column has the format of each document, and every run carries what the column has. -/
theorem told_of_reachable (h : Reachable Start (exec settings) (Steady kind) s) :
    (∀ d family, s.2 d = some family → family = kind d) ∧ ∀ run, Told s.2 (s.1.runs run) := by
  induction h with
  | @start s hstart =>
    rw [hstart.2]
    refine ⟨fun d family h => absurd h (by simp), fun run => ?_⟩
    rw [hstart.1.2]
    exact ⟨List.forall_mem_nil _, fun family hfamily => absurd hfamily (by simp)⟩
  | @next s u e hreach hok hexec ih =>
    obtain ⟨hformats, htold⟩ := ih
    obtain ⟨u', hu', rfl⟩ := Option.map_eq_some_iff.mp hexec
    obtain ⟨hkept, hsteady, hnew⟩ := noteFormat_spec hok hformats
    refine ⟨hsteady, fun run => ?_⟩
    have hallowed := allowed_of_steady hreach
    change Told (noteFormat s.1 e s.2) (u'.runs run)
    obtain ⟨heq, -⟩ | ⟨documentId, pipelineVersion, traceId, -, hempty, heq⟩ | ⟨w, rfl, -⟩ |
      ⟨i, a, t, eff, rfl, ht, hturn, heq⟩ := run_cases hu' run
    · rw [heq]
      exact (htold run).frame hkept
    · -- nothing has been detected in a run without a message
      have hnone : s.1.runs run = {} := by
        obtain hnone | ⟨hne, -⟩ :=
          dispatched_of_reachable (hallowed.mono fun _ _ h => h.1) run
        · exact hnone
        · exact absurd hempty hne
      rw [heq, hnone]
      exact ⟨List.forall_mem_singleton.mpr trivial, fun family hfamily => nomatch hfamily⟩
    · exact hok.1.1.elim
    · have hcalls : ∀ done, a ≠ .callRaises done := by
        rintro done rfl
        exact hok.1.1
      obtain hempty | ⟨hne, -⟩ := dispatched_of_reachable (hallowed.mono fun _ _ h => h.1) run
      · rw [hempty] at ht
        cases ht
      · obtain ⟨m, hm⟩ := List.exists_mem_of_ne_nil _ hne
        have hfollows := (tracked_of_reachable hallowed).follows run _ ⟨m, hm, rfl⟩
        rw [heq]
        apply (htold run).turn hfollows.tokens hfollows.published hne ht hturn hcalls hkept
        rintro family rfl
        exact hnew run i family t rfl ht

theorem busy_of_row {H : Type} {r : RunState H} {b : Board String} (hb : Dispatched r b)
    {σ : String} {row : StageRow} (h : r.record.rows.lookup σ = some row) : b σ ≠ .idle := by
  intro hidle
  have hrow := hb.shows.row σ
  rw [hidle, StageRows.status, h] at hrow
  cases hrow

theorem sound_of_reachable (h : Reachable Start (exec settings) (Steady kind) s)
    (hof : Of s.1 run d) :
    ∃ b, Dispatched (s.1.runs run) b ∧ Sound (route (kind d)) b := by
  obtain ⟨b, hb⟩ := dispatched_of_steady h hof
  refine ⟨b, hb, hb.sound _ fun found hfound => ?_⟩
  obtain ⟨hformats, htold⟩ := told_of_reachable h
  obtain ⟨m, hm, rfl⟩ := hof
  exact hformats _ _ ((htold run).detected found hfound m hm)

end

section
variable {F : Type} [PyFloat F] {settings : Settings F} {kind : String → FormatFamily}
  {s t u v : IngestState} {d run : String}
  {detail detail' : DocumentDetail}

theorem byName_of_lists (h : Reachable Start (exec settings) (Steady kind) t) (hof : Of t.1 run d)
    {rows : List (String × StageRow)} (hrows : Lists t.1 d rows) (name : String) :
    byName rows name = (t.1.runs run).record.rows.lookup name := by
  refine byName_eq (fun run' hof' => ?_) hof hrows name
  exact (tracked_of_reachable (allowed_of_steady h)).single run' run d hof' hof

theorem stages_of_answered (h : Reachable Start (exec settings) (Steady kind) s)
    (hanswered : Answered settings kind d s t detail) :
    ∃ rows, Lists t.1 d rows ∧ (∀ family, s.2 d = some family → family = kind d) ∧
      detail.stages = (expected (s.2 d)).map (stageState rows) := by
  obtain ⟨rows, hrows, heq⟩ := hanswered.answer
  obtain ⟨row, hrow, rfl⟩ := Option.map_eq_some_iff.mp heq
  obtain ⟨status, -, rfl⟩ := Option.map_eq_some_iff.mp hrow
  exact ⟨rows, hrows, (told_of_reachable h).1 d, rfl⟩

theorem mem_stages_of_route {rows : List (String × StageRow)} {family : Option FormatFamily}
    {name : String} (hfamily : ∀ f, family = some f → f = kind d)
    (hname : name ∈ (route (kind d)).members) :
    stageState rows name ∈ (expected family).map (stageState rows) :=
  List.mem_map.mpr ⟨name, expected_of_route hfamily hname, rfl⟩

theorem shown_of_lookup (h : Reachable Start (exec settings) (Steady kind) s)
    (hanswered : Answered settings kind d s t detail) (hof : Of t.1 run d) {σ : String}
    {row : StageRow} (hlookup : (t.1.runs run).record.rows.lookup σ = some row) :
    ⟨σ, row.status, row.error⟩ ∈ detail.stages := by
  obtain ⟨rows, hrows, hfamily, hstages⟩ := stages_of_answered h hanswered
  have hreach := h.trans hanswered.later
  obtain ⟨b, hb, hsound⟩ := sound_of_reachable hreach hof
  have hstate : stageState rows σ = ⟨σ, row.status, row.error⟩ := by
    simp only [stageState, byName_of_lists hreach hof hrows, hlookup, Option.elim_some,
      Option.bind_some]
  rw [hstages, ← hstate]
  exact mem_stages_of_route hfamily (hsound.mem (busy_of_row hb hlookup))

/-- A request shows every row that there is of the stages, and no stage ahead of what it depends on,
    even where the document has moved on between its two statements. -/
theorem detail_follows_the_route (h : Reachable Start (exec settings) (Steady kind) s)
    (hanswered : Answered settings kind d s t detail) :
    (∀ run, Of t.1 run d → ∀ stage row, (t.1.runs run).record.rows.lookup stage = some row →
        ⟨stage, row.status, row.error⟩ ∈ detail.stages) ∧
      ∀ x ∈ detail.stages, x.status ≠ .pending →
        ∃ stage ∈ stagesFor PIPELINE (kind d), stage.name = x.name ∧
          ∀ dep ∈ effectiveDeps PIPELINE (kind d) stage,
            ∃ y ∈ detail.stages, y.name = dep ∧ y.status = .succeeded := by
  refine ⟨fun run hof σ row hlookup => shown_of_lookup h hanswered hof hlookup, ?_⟩
  obtain ⟨rows, hrows, hfamily, hstages⟩ := stages_of_answered h hanswered
  have hreach := h.trans hanswered.later
  rw [hstages]
  intro x hx hstatus
  obtain ⟨σ, hσ, rfl⟩ := List.mem_map.mp hx
  obtain ⟨row, hrow⟩ := exists_row hstatus
  obtain ⟨run, hof, hlookup⟩ := (hrows σ row).mp (mem_of_byName hrow)
  obtain ⟨b, hb, hsound⟩ := sound_of_reachable hreach hof
  have hshown : ∀ τ, b τ = .succeeded → (stageState rows τ).status = .succeeded := by
    intro τ hτ
    have hstatus := hb.shows.row τ
    rw [hτ] at hstatus
    obtain ⟨row', hrow', hsucceeded⟩ := Option.map_eq_some_iff.mp hstatus
    simp only [stageState, byName_of_lists hreach hof hrows, hrow', Option.elim_some, hsucceeded]
  have hbusy : b σ ≠ .idle := busy_of_row hb hlookup
  obtain ⟨stage, hstage, hmem, rfl⟩ := mem_stageNamesFor.mp (hsound.mem hbusy)
  refine ⟨stage, mem_stagesFor.mpr ⟨hstage, hmem⟩, rfl, fun dep hdep => ?_⟩
  rw [← depsOf_eq hstage] at hdep
  have hdone : b dep = .succeeded := hsound.closed stage.name hbusy dep hdep
  refine ⟨stageState rows dep, ?_, rfl, hshown dep hdone⟩
  exact mem_stages_of_route hfamily (hsound.mem (by simp [hdone]))

def Settled (status : StageStatus) : Prop := status = .succeeded ∨ status = .failed

theorem lookup_markDispatched {rows : StageRows} {σ : String} {row : StageRow}
    (h : rows.lookup σ = some row) (stages : List String) :
    (rows.markDispatched stages).lookup σ = some row := by
  unfold StageRows.markDispatched
  induction stages generalizing rows with
  | nil => exact h
  | cons stage stages ih =>
    apply ih
    rw [StageRows.lookup_upsert, h]
    split_ifs <;> rfl

section
variable {H W C : Type} {handlers : Handlers W H C} {r : RunState H} {b : Board String}
  {x : Token H} {live : WorkerId → Option (List String)} {world : W} {a : Act C} {e : Effect W H}
  {σ : String} {row : StageRow}

theorem ne_of_settled (hb : Dispatched r b) (hx : x ∈ r.tokens) {duty : Duty}
    (hagenda : (x.message.stage, duty) ∈ agenda x) (hduty : duty = .wait ∨ duty = .act)
    (hrow : r.record.rows.lookup σ = some row) (hsettled : Settled row.status) :
    σ ≠ x.message.stage := by
  rintro rfl
  have hmode := hb.shows.duties_eq hx hagenda
  have hstatus := hb.shows.row x.message.stage
  rw [StageRows.status, hrow] at hstatus
  rcases hduty with rfl | rfl <;> rcases hsettled with hrow | hrow <;>
    cases hb' : b x.message.stage <;> simp [hb', modeDuties, modeRow, hrow] at hmode hstatus

theorem row_kept (hb : Dispatched r b) (hx : x ∈ r.tokens)
    (hturn : Turn handlers live r.record world x a e) (hcalls : ∀ done, a ≠ .callRaises done)
    (hrow : r.record.rows.lookup σ = some row) (hsettled : Settled row.status) :
    e.record.rows.lookup σ = some row := by
  cases hturn with
  | @call m w phase e hcall =>
    have hne : ∀ duty, (m.stage, duty) ∈ agenda ⟨m, Place.inHand w phase⟩ →
        duty = .wait ∨ duty = .act → σ ≠ m.stage :=
      fun duty hagenda hduty => ne_of_settled hb hx hagenda hduty hrow hsettled
    cases phase with
    | received =>
      cases hcall
      have hother := hne .wait (List.mem_singleton_self _) (.inl rfl)
      simpa only [StageRows.beginStage, StageRows.lookup_upsert, if_neg hother] using hrow
    | handling k => cases hcall
    | completing m' =>
      cases hcall
      have hother := hne .act (List.mem_singleton_self _) (.inr rfl)
      simpa only [StageRows.completeStage, StageRows.lookup_upsert, if_neg hother] using hrow
    | reserving follower rest =>
      cases hcall
      exact lookup_markDispatched hrow _
    | failing exc =>
      have hother := hne .act (List.mem_singleton_self _) (.inr rfl)
      obtain ⟨_, _, _, -, rfl⟩ | ⟨_, -, rfl⟩ := callReturns_failing hcall
      · simpa only [StageRows.failStage, StageRows.lookup_upsert, if_neg hother] using hrow
      · simpa only [StageRows.failStage, StageRows.lookup_upsert, if_neg hother] using hrow
    | _ =>
      cases hcall
      exact hrow
  | raises done => exact absurd rfl (hcalls done)
  | _ => exact hrow

end

/-- A run goes on, and what is settled in it stays as it is. -/
theorem kept_of_later (h : Reachable Start (exec settings) (Steady kind) s)
    (hlater : Reachable (fun u => u = s) (exec settings) (Steady kind) t) (hof : Of s.1 run d) :
    Of t.1 run d ∧ ∀ σ row, (s.1.runs run).record.rows.lookup σ = some row → Settled row.status →
      (t.1.runs run).record.rows.lookup σ = some row := by
  induction hlater with
  | start heq =>
    rw [heq]
    exact ⟨hof, fun _ _ hrow _ => hrow⟩
  | @next t u e hreach hok hexec ih =>
    obtain ⟨hof', hkept⟩ := ih
    obtain ⟨u', hu', rfl⟩ := Option.map_eq_some_iff.mp hexec
    have hallowed := allowed_of_steady (h.trans hreach)
    change Of u' run d ∧ ∀ σ row, _ → _ → (u'.runs run).record.rows.lookup σ = some row
    obtain ⟨heq, -⟩ | ⟨_, _, _, -, hempty, -⟩ | ⟨w, rfl, -⟩ | ⟨i, a, x, eff, rfl, hx, hturn, heq⟩ :=
      run_cases hu' run
    · unfold Of
      rw [heq]
      exact ⟨hof', hkept⟩
    · obtain ⟨m, hm, -⟩ := hof'
      rw [hempty] at hm
      cases hm
    · exact hok.1.1.elim
    · have hcalls : ∀ done, a ≠ .callRaises done := by
        rintro done rfl
        exact hok.1.1
      have hmem := List.mem_of_getElem? hx
      obtain ⟨b, hb⟩ := dispatched_of_steady (h.trans hreach) hof'
      have hfollows := (tracked_of_reachable hallowed).follows run d hof'
      obtain ⟨-, new, hgrown, -⟩ := turn_stays hturn hcalls (hfollows.tokens x hmem)
      unfold Of
      rw [heq]
      constructor
      · obtain ⟨m, hm, hd⟩ := hof'
        refine ⟨m, ?_, hd⟩
        change m ∈ eff.record.published
        rw [hgrown]
        exact List.mem_append_left _ hm
      · intro σ row hrow hsettled
        exact row_kept hb hmem hturn hcalls (hkept σ row hrow hsettled) hsettled

/-- A stage that a request shows as succeeded or failed is shown so by every later one. -/
theorem settled_stages_stay (h : Reachable Start (exec settings) (Steady kind) s)
    (hfirst : Answered settings kind d s t detail)
    (hbetween : Reachable (fun u => u = t) (exec settings) (Steady kind) u)
    (hsecond : Answered settings kind d u v detail') :
    ∀ x ∈ detail.stages, Settled x.status → x ∈ detail'.stages := by
  obtain ⟨rows, hrows, -, hstages⟩ := stages_of_answered h hfirst
  have ht := h.trans hfirst.later
  obtain ⟨rows', hrows', hfamily, hstages'⟩ := stages_of_answered (ht.trans hbetween) hsecond
  rw [hstages, hstages']
  intro x hx hsettled
  obtain ⟨σ, -, rfl⟩ := List.mem_map.mp hx
  obtain ⟨row, hrow⟩ : ∃ row, byName rows σ = some row := by
    apply exists_row
    rcases hsettled with hstatus | hstatus <;> simp [hstatus]
  obtain ⟨run, hof, hlookup⟩ := (hrows σ row).mp (mem_of_byName hrow)
  have hsettledRow : Settled row.status := by simpa [stageState, hrow] using hsettled
  obtain ⟨hof', hkept⟩ := kept_of_later ht (hbetween.trans hsecond.later) hof
  have hv := (ht.trans hbetween).trans hsecond.later
  have hsame : stageState rows' σ = stageState rows σ := by
    simp only [stageState, byName_of_lists hv hof' hrows', hkept σ row hlookup hsettledRow, hrow]
  rw [← hsame]
  obtain ⟨b, hb, hsound⟩ := sound_of_reachable ht hof
  exact mem_stages_of_route hfamily (hsound.mem (busy_of_row hb hlookup))

end

theorem exists_lists {s : System World Execution} {run d : String} (hof : Of s run d)
    (hsingle : ∀ run', Of s run' d → run' = run) : ∃ rows, Lists s d rows := by
  refine ⟨(s.runs run).record.rows.entries.toList.map fun x => (x.1, x.2), fun stage row => ?_⟩
  have hmem : (stage, row) ∈ (s.runs run).record.rows.entries.toList.map (fun x => (x.1, x.2)) ↔
      (s.runs run).record.rows.lookup stage = some row := by
    rw [Finmap.lookup_eq_some_iff, List.mem_map]
    constructor
    · rintro ⟨⟨stage', row'⟩, hentry, heq⟩
      cases heq
      exact Multiset.mem_toList.mp hentry
    · exact fun hentry => ⟨_, Multiset.mem_toList.mpr hentry, rfl⟩
  rw [hmem]
  constructor
  · exact fun hlookup => ⟨run, hof, hlookup⟩
  · rintro ⟨run', hof', hlookup⟩
    rwa [hsingle run' hof'] at hlookup

theorem exists_answered {F : Type} [PyFloat F] {settings : Settings F}
    {kind : String → FormatFamily} {s t : IngestState}
    {run d : String} (h : Reachable Start (exec settings) (Steady kind) s)
    (hlater : Reachable (fun u => u = s) (exec settings) (Steady kind) t) (hof : Of t.1 run d)
    {status : DocStatus} (hstatus : s.1.world.db.documents d = some status) :
    ∃ detail, Answered settings kind d s t detail ∧ detail.formatFamily = s.2 d := by
  have hsingle := (tracked_of_reachable (allowed_of_steady (h.trans hlater))).single
  obtain ⟨rows, hrows⟩ := exists_lists hof fun run' hof' => hsingle run' run d hof' hof
  refine ⟨⟨status, s.2 d, (expected (s.2 d)).map (stageState rows)⟩, ⟨hlater, rows, hrows, ?_⟩, rfl⟩
  rw [hstatus]
  rfl

def textual (e : Event Choice) : Bool :=
  harmless e && match e with
    | .act _ _ (.work (.format (some family))) => family = .flow
    | _ => true

theorem steady_of_textual {s : IngestState}
    {e : Event Choice} (h : textual e) : Steady (fun _ => .flow) s e := by
  obtain ⟨hharmless, hformat⟩ := Bool.and_eq_true_iff.mp h
  refine ⟨allowed_of_harmless hharmless, ?_⟩
  rintro run i family rfl t -
  exact of_decide_eq_true hformat

theorem steady_upload {s : IngestState}
    (h : exec oneStrategy (uploaded, fun _ => none)
      (.upload "document" "run" "v1" "trace") = some s) :
    Reachable Start (exec oneStrategy) (Steady fun _ => .flow) s := by
  have hstart : Reachable Start (exec oneStrategy) (Steady fun _ => .flow)
      (uploaded, fun _ => none) := .start ⟨uploaded_untouched.1, rfl⟩
  have hnew : New uploaded "document" := ⟨rfl, fun _ _ hm => absurd hm List.not_mem_nil⟩
  have hok : Steady (fun _ => .flow) (uploaded, fun _ => none)
      (.upload "document" "run" "v1" "trace") := by
    refine ⟨⟨trivial, ?_⟩, nofun⟩
    intro documentId run pipelineVersion traceId heq
    cases heq
    exact hnew
  exact hstart.next hok h

def untilParsing : List (Event Choice) :=
  .start 0 everyStage :: detected ++ onMessage 0 [.deliver 0, .call]

def unreadable : List (Event Choice) :=
  onMessage 0 [.fail ⟨"PermanentError", "", true⟩, .call, .call, .call, .call]

theorem steady_run {s t : IngestState}
    {events : List (Event Choice)} (hevents : events.all textual)
    (hrun : GuardedRuns.run (exec oneStrategy) s events = some t) :
    Reachable (fun u => u = s) (exec oneStrategy) (Steady fun _ => .flow) t :=
  reachable_of_run (.start rfl) (fun e he _ => steady_of_textual (List.all_eq_true.mp hevents e he))
    hrun

theorem of_published {s : IngestState}
    (h : ((s.1.runs "run").record.published.any fun m => m.documentId = "document") = true) :
    Of s.1 "run" "document" := by
  obtain ⟨m, hm, hd⟩ := List.any_eq_true.mp h
  exact ⟨m, hm, of_decide_eq_true hd⟩

theorem a_text_is_shown_parsing : ∃ s t detail,
    Reachable Start (exec oneStrategy) (Steady fun _ => .flow) s ∧
      Answered oneStrategy (fun _ => .flow) "document" s t detail ∧ detail.formatFamily = none ∧
      ⟨"parse_flow", .running, none⟩ ∈ detail.stages ∧
      ∃ y ∈ detail.stages, y.name = "detect" ∧ y.status = .succeeded := by
  have hend : ((exec oneStrategy (uploaded, fun _ => none)
      (.upload "document" "run" "v1" "trace")).bind fun s =>
        (GuardedRuns.run (exec oneStrategy) s untilParsing).map fun t =>
          (s.2 "document", s.1.world.db.documents "document",
            (t.1.runs "run").record.rows.lookup "parse_flow",
            (t.1.runs "run").record.published.any fun m => m.documentId = "document")) =
      some (none, some .pending, some ⟨.running, 1, none⟩, true) := by
    decide +kernel
  obtain ⟨s, hs, hrest⟩ := Option.bind_eq_some_iff.mp hend
  obtain ⟨t, ht, heq⟩ := Option.map_eq_some_iff.mp hrest
  simp only [Prod.mk.injEq] at heq
  obtain ⟨hformat, hstatus, hrow, hpublished⟩ := heq
  have hreach := steady_upload hs
  have hof := of_published hpublished
  obtain ⟨detail, hanswered, hfamily⟩ :=
    exists_answered hreach (steady_run (by decide) ht) hof hstatus
  obtain ⟨hshown, hdeps⟩ := detail_follows_the_route hreach hanswered
  have hrunning := hshown "run" hof "parse_flow" _ hrow
  refine ⟨s, t, detail, hreach, hanswered, hfamily.trans hformat, hrunning, ?_⟩
  obtain ⟨stage, hstage, hname, hall⟩ := hdeps _ hrunning (by simp)
  apply hall "detect"
  have hdep : ∀ stage ∈ stagesFor PIPELINE .flow, stage.name = "parse_flow" →
      "detect" ∈ effectiveDeps PIPELINE .flow stage := by
    decide +kernel
  exact hdep stage hstage hname

theorem a_found_format_stays_shown : ∃ s t v detail detail',
    Reachable Start (exec oneStrategy) (Steady fun _ => .flow) s ∧
      Answered oneStrategy (fun _ => .flow) "document" s t detail ∧
      Answered oneStrategy (fun _ => .flow) "document" t v detail' ∧
      ⟨"parse_flow", .failed, some "PermanentError: "⟩ ∈ detail'.stages ∧
      ⟨"detect", .succeeded, none⟩ ∈ detail'.stages := by
  have hend : ((exec oneStrategy (uploaded, fun _ => none)
      (.upload "document" "run" "v1" "trace")).bind fun s =>
        (GuardedRuns.run (exec oneStrategy) s untilParsing).bind fun t =>
          (GuardedRuns.run (exec oneStrategy) t unreadable).map fun v =>
            (s.1.world.db.documents "document", t.1.world.db.documents "document",
              (t.1.runs "run").record.rows.lookup "detect",
              (v.1.runs "run").record.rows.lookup "parse_flow",
              [t, v].all fun u =>
                (u.1.runs "run").record.published.any fun m => m.documentId = "document")) =
      some (some .pending, some .processing, some ⟨.succeeded, 1, none⟩,
        some ⟨.failed, 1, some "PermanentError: "⟩, true) := by
    decide +kernel
  obtain ⟨s, hs, hrest⟩ := Option.bind_eq_some_iff.mp hend
  obtain ⟨t, ht, hrest⟩ := Option.bind_eq_some_iff.mp hrest
  obtain ⟨v, hv, heq⟩ := Option.map_eq_some_iff.mp hrest
  simp only [Prod.mk.injEq, List.all_cons, List.all_nil, Bool.and_true, Bool.and_eq_true] at heq
  obtain ⟨hpending, hprocessing, hdetect, hfailed, hpublished, hpublished'⟩ := heq
  have hreach := steady_upload hs
  have hlater := steady_run (by decide) ht
  have hof := of_published hpublished
  have hof' := of_published hpublished'
  obtain ⟨detail, hfirst, -⟩ := exists_answered hreach hlater hof hpending
  obtain ⟨detail', hsecond, -⟩ :=
    exists_answered (hreach.trans hlater) (steady_run (by decide) hv) hof' hprocessing
  refine ⟨s, t, v, detail, detail', hreach, hfirst, hsecond, ?_, ?_⟩
  · exact shown_of_lookup (hreach.trans hlater) hsecond hof' hfailed
  · have hshown := shown_of_lookup hreach hfirst hof hdetect
    exact settled_stages_stay hreach hfirst (.start rfl) hsecond _ hshown (.inl rfl)

end Ragent.PipelineView
