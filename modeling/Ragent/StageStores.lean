import Mathlib.Data.Finmap

set_option autoImplicit false

/-!
# The two stage stores

`PostgresStageStore` keeps one row of `ingest_stages` for each stage of a run, and every call is an
upsert. `InMemoryStageStore` keeps two sets that only grow.
-/
namespace Ragent.StageStores

inductive StageStatus
  | pending
  | running
  | succeeded
  | failed
  | skipped
  deriving DecidableEq, Repr

/-- A row of `ingest_stages`, without its timestamps and metrics, which no store reads back. -/
structure StageRow where
  status : StageStatus
  attempt : ℕ := 0
  error : Option String := none
  deriving DecidableEq, Repr

/-- The rows of one run, which `UNIQUE (run_id, stage)` keys by the stage. -/
abbrev StageRows := Finmap fun _ : String => StageRow

structure StageSnapshot where
  completed : Finset String
  dispatched : Finset String
  deriving DecidableEq

namespace StageRows

/-- `INSERT ... ON CONFLICT (run_id, stage) DO UPDATE` -/
def upsert (rows : StageRows) (stage : String) (fresh : StageRow)
    (onConflict : StageRow → StageRow) : StageRows :=
  rows.insert stage ((rows.lookup stage).elim fresh onConflict)

def markDispatched (rows : StageRows) (stages : List String) : StageRows :=
  stages.foldl (fun rows stage => rows.upsert stage { status := .pending } id) rows

def beginStage (rows : StageRows) (stage : String) (attempt : ℕ) : StageRows :=
  rows.upsert stage { status := .running, attempt := attempt }
    fun row => { row with status := .running, attempt := attempt }

def completeStage (rows : StageRows) (stage : String) : StageRows :=
  rows.upsert stage { status := .succeeded }
    fun row => { row with status := .succeeded, error := none }

def failStage (rows : StageRows) (stage error : String) (permanent : Bool) : StageRows :=
  let status := if permanent then StageStatus.failed else .pending
  let error := some (String.ofList (error.toList.take 4000))
  rows.upsert stage { status := status, error := error }
    fun row => { row with status := status, error := error }

def snapshot (rows : StageRows) : StageSnapshot where
  completed := rows.keys.filter fun stage => (rows.lookup stage).any (·.status = .succeeded)
  dispatched := rows.keys.filter fun stage =>
    (rows.lookup stage).any (·.status ∈ [StageStatus.pending, .running, .succeeded, .failed])

def status (rows : StageRows) (stage : String) : Option StageStatus :=
  (rows.lookup stage).map (·.status)

theorem lookup_upsert (rows : StageRows) (stage : String) (fresh : StageRow)
    (onConflict : StageRow → StageRow) (s : String) :
    (rows.upsert stage fresh onConflict).lookup s =
      if s = stage then some ((rows.lookup s).elim fresh onConflict) else rows.lookup s := by
  unfold upsert
  by_cases h : s = stage
  · subst h
    rw [if_pos rfl]
    exact Finmap.lookup_insert rows
  · rw [if_neg h]
    exact Finmap.lookup_insert_of_ne rows h

theorem status_empty (s : String) : (∅ : StageRows).status s = none := rfl

theorem status_markDispatched (rows : StageRows) (stages : List String) (s : String) :
    (rows.markDispatched stages).status s =
      if s ∈ stages then some ((rows.status s).getD .pending) else rows.status s := by
  unfold markDispatched
  induction stages generalizing rows with
  | nil => rfl
  | cons stage stages ih =>
    rw [List.foldl_cons, ih]
    unfold status
    rw [lookup_upsert]
    by_cases h : s = stage <;> by_cases h' : s ∈ stages <;> cases rows.lookup s <;> simp [h, h']

theorem status_beginStage (rows : StageRows) (stage : String) (attempt : ℕ) (s : String) :
    (rows.beginStage stage attempt).status s =
      if s = stage then some .running else rows.status s := by
  unfold beginStage status
  rw [lookup_upsert]
  split_ifs
  · cases rows.lookup s <;> rfl
  · rfl

theorem status_completeStage (rows : StageRows) (stage s : String) :
    (rows.completeStage stage).status s =
      if s = stage then some .succeeded else rows.status s := by
  unfold completeStage status
  rw [lookup_upsert]
  split_ifs
  · cases rows.lookup s <;> rfl
  · rfl

theorem status_failStage (rows : StageRows) (stage error : String) (permanent : Bool) (s : String) :
    (rows.failStage stage error permanent).status s =
      if s = stage then some (if permanent then .failed else .pending) else rows.status s := by
  unfold failStage status
  rw [lookup_upsert]
  split_ifs <;> cases rows.lookup s <;> rfl

theorem mem_keys_filter (rows : StageRows) (p : StageStatus → Bool) (s : String) :
    (s ∈ rows.keys.filter fun stage => (rows.lookup stage).any fun row => p row.status) ↔
      ∃ status, rows.status s = some status ∧ p status = true := by
  rw [Finset.mem_filter, Finmap.mem_keys, Finmap.mem_iff, status]
  cases rows.lookup s <;> simp

theorem mem_completed {rows : StageRows} {s : String} :
    s ∈ rows.snapshot.completed ↔ rows.status s = some .succeeded := by
  apply (mem_keys_filter rows (fun status => status = .succeeded) s).trans
  simp

theorem mem_dispatched {rows : StageRows} {s : String} :
    s ∈ rows.snapshot.dispatched ↔ ∃ status, rows.status s = some status ∧ status ≠ .skipped := by
  have hstatus : ∀ status : StageStatus,
      status ∈ [StageStatus.pending, .running, .succeeded, .failed] ↔ status ≠ .skipped := by
    intro status
    cases status <;> decide
  apply (mem_keys_filter rows
    (fun status => status ∈ [StageStatus.pending, .running, .succeeded, .failed]) s).trans
  simp only [decide_eq_true_eq, hstatus]

end StageRows

/-- The run ids are those that `uuid.UUID` reads out of the texts the callers pass. -/
inductive StoreCall (RunId : Type)
  | markDispatched (run : RunId) (stages : List String)
  | beginStage (run : RunId) (stage : String) (attempt : ℕ)
  | completeStage (run : RunId) (stage : String)
  | failStage (run : RunId) (stage error : String) (permanent : Bool)
  deriving DecidableEq

section
variable {RunId : Type} [DecidableEq RunId]

/-- `known` are the rows of `ingest_runs`, which `ingest_stages.run_id` references. -/
structure PostgresStageStore (RunId : Type) where
  known : RunId → Bool
  rows : RunId → StageRows

namespace PostgresStageStore

/-- A statement about one run, with `none` for a foreign key violation. -/
def execute (db : PostgresStageStore RunId) (run : RunId) (f : StageRows → StageRows) :
    Option (PostgresStageStore RunId) :=
  if db.known run then some { db with rows := Function.update db.rows run (f (db.rows run)) }
  else none

def call (db : PostgresStageStore RunId) : StoreCall RunId → Option (PostgresStageStore RunId)
  | .markDispatched run stages =>
    if stages = [] then some db else db.execute run (·.markDispatched stages)
  | .beginStage run stage attempt => db.execute run (·.beginStage stage attempt)
  | .completeStage run stage => db.execute run (·.completeStage stage)
  | .failStage run stage error permanent => db.execute run (·.failStage stage error permanent)

/-- A call that raises leaves the table as it was. -/
def run (known : RunId → Bool) (calls : List (StoreCall RunId)) : PostgresStageStore RunId :=
  calls.foldl (fun db c => (db.call c).getD db) ⟨known, fun _ => ∅⟩

def snapshot (db : PostgresStageStore RunId) (run : RunId) : StageSnapshot := (db.rows run).snapshot

end PostgresStageStore

/-- A run that is no key of a dictionary reads as an empty one. -/
structure InMemoryStageStore (RunId : Type) where
  completed : RunId → Finset String := fun _ => ∅
  dispatched : RunId → Finset String := fun _ => ∅
  errors : RunId → String → Option String := fun _ _ => none
  attempts : RunId → String → Option ℕ := fun _ _ => none

namespace InMemoryStageStore

def announce (store : InMemoryStageStore RunId) (run : RunId) (stages : Finset String) :
    InMemoryStageStore RunId :=
  { store with dispatched := Function.update store.dispatched run (store.dispatched run ∪ stages) }

def call (store : InMemoryStageStore RunId) : StoreCall RunId → InMemoryStageStore RunId
  | .markDispatched run stages => store.announce run stages.toFinset
  | .beginStage run stage attempt =>
    { store.announce run {stage} with
      attempts := Function.update store.attempts run
        (Function.update (store.attempts run) stage (some attempt)) }
  | .completeStage run stage =>
    { store.announce run {stage} with
      completed := Function.update store.completed run (store.completed run ∪ {stage}) }
  | .failStage run stage error permanent =>
    let store := { store with
      errors := Function.update store.errors run
        (Function.update (store.errors run) stage (some error)) }
    -- a permanent failure stays dispatched, so that the scheduler does not retry it
    if permanent then store.announce run {stage} else store

def run (calls : List (StoreCall RunId)) : InMemoryStageStore RunId := calls.foldl call {}

def snapshot (store : InMemoryStageStore RunId) (run : RunId) : StageSnapshot :=
  ⟨store.completed run, store.dispatched run⟩

end InMemoryStageStore

namespace StoreCall
variable (r : RunId) (s : String)

def Completes : StoreCall RunId → Prop
  | completeStage run stage => run = r ∧ stage = s
  | _ => False

/-- Writes another status over the one of a succeeded stage. -/
def Reopens : StoreCall RunId → Prop
  | beginStage run stage _ => run = r ∧ stage = s
  | failStage run stage _ _ => run = r ∧ stage = s
  | _ => False

/-- Adds the stage to the set of the reference store. -/
def Announces : StoreCall RunId → Prop
  | markDispatched run stages => run = r ∧ s ∈ stages
  | beginStage run stage _ => run = r ∧ stage = s
  | completeStage run stage => run = r ∧ stage = s
  | failStage run stage _ permanent => run = r ∧ stage = s ∧ permanent = true

def FailsTransiently : StoreCall RunId → Prop
  | failStage run stage _ permanent => run = r ∧ stage = s ∧ permanent = false
  | _ => False

def FailsPermanently : StoreCall RunId → Prop
  | failStage run stage _ permanent => run = r ∧ stage = s ∧ permanent = true
  | _ => False

def runOf : StoreCall RunId → RunId
  | markDispatched run _ | beginStage run _ _ | completeStage run _ | failStage run _ _ _ => run

end StoreCall

/-- A stage that is begun or failed again behind its completion is completed again later. -/
def Recompleted (r : RunId) (s : String) (calls : List (StoreCall RunId)) : Prop :=
  ∀ front c back, calls = front ++ c :: back → c.Reopens r s → (∃ d ∈ front, d.Completes r s) →
    ∃ d ∈ back, d.Completes r s

omit [DecidableEq RunId] in
theorem not_reopens_of_completes {r : RunId} {s : String} {c : StoreCall RunId}
    (h : c.Completes r s) : ¬ c.Reopens r s := by
  cases c <;> simp_all [StoreCall.Completes, StoreCall.Reopens]

omit [DecidableEq RunId] in
theorem announces_of_completes {r : RunId} {s : String} {c : StoreCall RunId}
    (h : c.Completes r s) : c.Announces r s := by
  cases c <;> simp_all [StoreCall.Completes, StoreCall.Announces]

omit [DecidableEq RunId] in
theorem recompleted_snoc {r : RunId} {s : String} {calls : List (StoreCall RunId)}
    {d : StoreCall RunId} :
    ((∃ c ∈ calls ++ [d], c.Completes r s) ∧ Recompleted r s (calls ++ [d])) ↔
      d.Completes r s ∨
        (((∃ c ∈ calls, c.Completes r s) ∧ Recompleted r s calls) ∧ ¬ d.Reopens r s) := by
  constructor
  · rintro ⟨⟨c, hc, hcompletes⟩, hagain⟩
    by_cases hd : d.Completes r s
    · exact Or.inl hd
    have hmem : c ∈ calls := by
      rcases List.mem_append.mp hc with hc | hc
      · exact hc
      · exact absurd (List.mem_singleton.mp hc ▸ hcompletes) hd
    refine Or.inr ⟨⟨⟨c, hmem, hcompletes⟩, ?_⟩, fun hreopens => ?_⟩
    · intro front b back heq hreopens hbefore
      obtain ⟨e, he, hagain'⟩ :=
        hagain front b (back ++ [d]) (by rw [heq, List.append_assoc]; rfl) hreopens hbefore
      rcases List.mem_append.mp he with he | he
      · exact ⟨e, he, hagain'⟩
      · exact absurd (List.mem_singleton.mp he ▸ hagain') hd
    · obtain ⟨e, he, -⟩ := hagain calls d [] rfl hreopens ⟨c, hmem, hcompletes⟩
      exact absurd he List.not_mem_nil
  · intro h
    -- whatever stands behind a call, the last call does too
    have hlast : ∀ front b back, calls ++ [d] = front ++ b :: back → b ≠ d ∨ back ≠ [] →
        ∃ back', back = back' ++ [d] ∧ calls = front ++ b :: back' := by
      intro front b back heq hne
      rcases List.eq_nil_or_concat back with rfl | ⟨back', e, rfl⟩
      · have hsplit := List.append_inj' heq rfl
        rcases hne with hne | hne
        · exact absurd (List.singleton_inj.mp hsplit.2).symm hne
        · exact absurd rfl hne
      · rw [List.concat_eq_append, ← List.cons_append, ← List.append_assoc] at heq
        obtain ⟨hcalls, hd⟩ := List.append_inj' heq rfl
        exact ⟨back', by rw [List.concat_eq_append, List.singleton_inj.mp hd], hcalls⟩
    rcases h with hd | ⟨⟨⟨c, hc, hcompletes⟩, hagain⟩, hd⟩
    · refine ⟨⟨d, by simp, hd⟩, fun front b back heq hreopens hbefore => ?_⟩
      have hne : b ≠ d := fun h => not_reopens_of_completes hd (h ▸ hreopens)
      obtain ⟨back', rfl, -⟩ := hlast front b back heq (Or.inl hne)
      exact ⟨d, by simp, hd⟩
    · refine ⟨⟨c, List.mem_append_left _ hc, hcompletes⟩, fun front b back heq hreopens hbefore => ?_⟩
      have hne : b ≠ d := fun h => hd (h ▸ hreopens)
      obtain ⟨back', rfl, heq'⟩ := hlast front b back heq (Or.inl hne)
      obtain ⟨e, he, hagain'⟩ := hagain front b back' heq' hreopens hbefore
      exact ⟨e, List.mem_append_left _ he, hagain'⟩

def StoreCall.write (r : RunId) (s : String) (old : Option StageStatus) :
    StoreCall RunId → Option StageStatus
  | markDispatched run stages => if run = r ∧ s ∈ stages then some (old.getD .pending) else old
  | beginStage run stage _ => if run = r ∧ stage = s then some .running else old
  | completeStage run stage => if run = r ∧ stage = s then some .succeeded else old
  | failStage run stage _ permanent =>
    if run = r ∧ stage = s then some (if permanent then .failed else .pending) else old

theorem write_succeeded_iff {r : RunId} {s : String} {old : Option StageStatus}
    {c : StoreCall RunId} : c.write r s old = some .succeeded ↔
      c.Completes r s ∨ (old = some .succeeded ∧ ¬ c.Reopens r s) := by
  cases c with
  | markDispatched run stages =>
    cases old <;> by_cases h : run = r ∧ s ∈ stages <;>
      simp [StoreCall.write, StoreCall.Completes, StoreCall.Reopens, h]
  | beginStage run stage attempt =>
    by_cases h : run = r ∧ stage = s <;>
      simp [StoreCall.write, StoreCall.Completes, StoreCall.Reopens, h]
  | completeStage run stage =>
    by_cases h : run = r ∧ stage = s <;>
      simp [StoreCall.write, StoreCall.Completes, StoreCall.Reopens, h]
  | failStage run stage error permanent =>
    by_cases h : run = r ∧ stage = s <;> cases permanent <;>
      simp [StoreCall.write, StoreCall.Completes, StoreCall.Reopens, h]

theorem write_ne_skipped {r : RunId} {s : String} {old : Option StageStatus}
    (h : old ≠ some .skipped) (c : StoreCall RunId) : c.write r s old ≠ some .skipped := by
  cases c with
  | markDispatched run stages =>
    cases old <;> simp only [StoreCall.write] <;> split_ifs <;> simp_all
  | beginStage run stage attempt => simp only [StoreCall.write]; split_ifs <;> simp_all
  | completeStage run stage => simp only [StoreCall.write]; split_ifs <;> simp_all
  | failStage run stage error permanent =>
    cases permanent <;> simp only [StoreCall.write] <;> split_ifs <;> simp_all

theorem write_isSome_iff {r : RunId} {s : String} {old : Option StageStatus}
    {c : StoreCall RunId} : (c.write r s old).isSome ↔
      old.isSome ∨ c.Announces r s ∨ c.FailsTransiently r s := by
  cases c with
  | markDispatched run stages =>
    by_cases h : run = r ∧ s ∈ stages <;>
      simp [StoreCall.write, StoreCall.Announces, StoreCall.FailsTransiently, h]
  | beginStage run stage attempt =>
    by_cases h : run = r ∧ stage = s <;>
      simp [StoreCall.write, StoreCall.Announces, StoreCall.FailsTransiently, h]
  | completeStage run stage =>
    by_cases h : run = r ∧ stage = s <;>
      simp [StoreCall.write, StoreCall.Announces, StoreCall.FailsTransiently, h]
  | failStage run stage error permanent =>
    by_cases h : run = r ∧ stage = s <;> cases permanent <;>
      simp [StoreCall.write, StoreCall.Announces, StoreCall.FailsTransiently, h]

namespace PostgresStageStore

theorem execute_rows (db : PostgresStageStore RunId) (r run : RunId) (f : StageRows → StageRows) :
    ((db.execute run f).getD db).rows r =
      if run = r ∧ db.known r = true then f (db.rows r) else db.rows r := by
  unfold execute
  by_cases h : run = r
  · subst h
    cases hknown : db.known run <;> simp
  · cases db.known run <;> simp [h, Function.update_of_ne (Ne.symm h)]

theorem call_known (db : PostgresStageStore RunId) (c : StoreCall RunId) :
    ((db.call c).getD db).known = db.known := by
  have hexecute : ∀ run f, ((db.execute run f).getD db).known = db.known := by
    intro run f
    unfold execute
    split_ifs <;> rfl
  cases c with
  | markDispatched run stages =>
    unfold call
    simp only
    split_ifs
    · rfl
    · exact hexecute run _
  | beginStage run stage attempt => exact hexecute run _
  | completeStage run stage => exact hexecute run _
  | failStage run stage error permanent =>
    unfold call
    exact hexecute run _

theorem call_status (db : PostgresStageStore RunId) {r : RunId} (hr : db.known r = true)
    (c : StoreCall RunId) (s : String) :
    (((db.call c).getD db).rows r).status s = c.write r s ((db.rows r).status s) := by
  cases c with
  | markDispatched run stages =>
    unfold call
    simp only
    by_cases hnil : stages = []
    · simp [hnil, StoreCall.write]
    · rw [if_neg hnil, execute_rows]
      by_cases h : run = r <;> simp [h, hr, StoreCall.write, StageRows.status_markDispatched]
  | beginStage run stage attempt =>
    rw [call, execute_rows]
    by_cases h : run = r <;>
      simp [h, hr, StoreCall.write, StageRows.status_beginStage, eq_comm]
  | completeStage run stage =>
    rw [call, execute_rows]
    by_cases h : run = r <;>
      simp [h, hr, StoreCall.write, StageRows.status_completeStage, eq_comm]
  | failStage run stage error permanent =>
    rw [call, execute_rows]
    by_cases h : run = r <;>
      simp [h, hr, StoreCall.write, StageRows.status_failStage, eq_comm]

theorem call_unknown (db : PostgresStageStore RunId) {r : RunId} (hr : db.known r = false)
    (c : StoreCall RunId) : ((db.call c).getD db).rows r = db.rows r := by
  cases c with
  | markDispatched run stages =>
    unfold call
    simp only
    split_ifs
    · rfl
    · simp [execute_rows, hr]
  | beginStage run stage attempt => simp [call, execute_rows, hr]
  | completeStage run stage => simp [call, execute_rows, hr]
  | failStage run stage error permanent => simp [call, execute_rows, hr]

theorem run_snoc (known : RunId → Bool) (calls : List (StoreCall RunId)) (c : StoreCall RunId) :
    run known (calls ++ [c]) = ((run known calls).call c).getD (run known calls) := by
  rw [run, List.foldl_append]
  rfl

theorem run_known (known : RunId → Bool) (calls : List (StoreCall RunId)) :
    (run known calls).known = known := by
  induction calls using List.reverseRecOn with
  | nil => rfl
  | append_singleton calls c ih => rw [run_snoc, call_known, ih]

variable {known : RunId → Bool} {r : RunId}

theorem run_unknown (hr : known r = false) (calls : List (StoreCall RunId)) :
    (run known calls).rows r = ∅ := by
  induction calls using List.reverseRecOn with
  | nil => rfl
  | append_singleton calls c ih =>
    rw [run_snoc, call_unknown _ (by rw [run_known, hr]), ih]

theorem run_status (hr : known r = true) (calls : List (StoreCall RunId)) (s : String) :
    (((run known calls).rows r).status s = some .succeeded ↔
        (∃ c ∈ calls, c.Completes r s) ∧ Recompleted r s calls) ∧
      ((((run known calls).rows r).status s).isSome ↔
        ∃ c ∈ calls, c.Announces r s ∨ c.FailsTransiently r s) ∧
      ((run known calls).rows r).status s ≠ some .skipped := by
  induction calls using List.reverseRecOn with
  | nil => simp [run, StageRows.status_empty]
  | append_singleton calls c ih =>
    obtain ⟨hcompleted, hsome, hskipped⟩ := ih
    rw [run_snoc, call_status _ (by rw [run_known, hr]), write_succeeded_iff, write_isSome_iff,
      recompleted_snoc, hcompleted, hsome]
    refine ⟨Iff.rfl, ?_, write_ne_skipped hskipped c⟩
    simp only [List.mem_append, List.mem_singleton, or_and_right, exists_or, exists_eq_left]

end PostgresStageStore

namespace InMemoryStageStore

theorem mem_announce {store : InMemoryStageStore RunId} {run r : RunId} {stages : Finset String}
    {s : String} : s ∈ (store.announce run stages).dispatched r ↔
      s ∈ store.dispatched r ∨ (run = r ∧ s ∈ stages) := by
  unfold announce
  by_cases h : run = r
  · subst h
    simp
  · simp [h, Function.update_of_ne (Ne.symm h)]

theorem mem_update_insert {sets : RunId → Finset String} {run r : RunId} {stage s : String} :
    s ∈ Function.update sets run (sets run ∪ {stage}) r ↔ s ∈ sets r ∨ (run = r ∧ stage = s) := by
  by_cases h : run = r
  · subst h
    simp [eq_comm, or_comm]
  · simp [h, Function.update_of_ne (Ne.symm h)]

theorem mem_call {store : InMemoryStageStore RunId} {c : StoreCall RunId} {r : RunId} {s : String} :
    (s ∈ (store.call c).completed r ↔ s ∈ store.completed r ∨ c.Completes r s) ∧
      (s ∈ (store.call c).dispatched r ↔ s ∈ store.dispatched r ∨ c.Announces r s) := by
  cases c with
  | markDispatched run stages =>
    refine ⟨(or_iff_left id).symm, ?_⟩
    exact mem_announce.trans (by simp [StoreCall.Announces])
  | beginStage run stage attempt =>
    refine ⟨(or_iff_left id).symm, ?_⟩
    exact mem_announce.trans (by simp [StoreCall.Announces, eq_comm])
  | completeStage run stage =>
    refine ⟨mem_update_insert, ?_⟩
    exact mem_announce.trans (by simp [StoreCall.Announces, eq_comm])
  | failStage run stage error permanent =>
    cases permanent
    · exact ⟨(or_iff_left id).symm, (or_iff_left fun h => by simp [StoreCall.Announces] at h).symm⟩
    · refine ⟨(or_iff_left id).symm, ?_⟩
      exact mem_announce.trans (by simp [StoreCall.Announces, eq_comm])

theorem run_sets (calls : List (StoreCall RunId)) (r : RunId) (s : String) :
    (s ∈ (run calls).completed r ↔ ∃ c ∈ calls, c.Completes r s) ∧
      (s ∈ (run calls).dispatched r ↔ ∃ c ∈ calls, c.Announces r s) := by
  induction calls using List.reverseRecOn with
  | nil => simp [run]
  | append_singleton calls c ih =>
    obtain ⟨hcompleted, hdispatched⟩ := ih
    have hrun : run (calls ++ [c]) = (run calls).call c := by
      rw [run, List.foldl_append]
      rfl
    rw [hrun, mem_call.1, mem_call.2, hcompleted, hdispatched]
    simp only [List.mem_append, List.mem_singleton, or_and_right, exists_or, exists_eq_left,
      and_self]

end InMemoryStageStore

theorem snapshot_eq_iff {a b : StageSnapshot} :
    a = b ↔ ∀ s, (s ∈ a.completed ↔ s ∈ b.completed) ∧ (s ∈ a.dispatched ↔ s ∈ b.dispatched) := by
  cases a
  cases b
  simp only [StageSnapshot.mk.injEq, Finset.ext_iff]
  exact forall_and.symm

/-- Both stores give the same snapshots exactly if no stage is left reopened behind its completion,
    none is known by a transient failure alone, and nothing is announced for a run without a row. -/
theorem snapshots_agree_iff (known : RunId → Bool) (calls : List (StoreCall RunId)) :
    (∀ r, (PostgresStageStore.run known calls).snapshot r =
        (InMemoryStageStore.run calls).snapshot r) ↔
      ∀ r s, if known r then
          Recompleted r s calls ∧
            ((∃ c ∈ calls, c.FailsTransiently r s) → ∃ c ∈ calls, c.Announces r s)
        else ∀ c ∈ calls, ¬ c.Announces r s := by
  apply forall_congr'
  intro r
  rw [snapshot_eq_iff]
  apply forall_congr'
  intro s
  obtain ⟨hcompleted, hdispatched⟩ := InMemoryStageStore.run_sets calls r s
  simp only [PostgresStageStore.snapshot, InMemoryStageStore.snapshot, hcompleted, hdispatched,
    StageRows.mem_completed, StageRows.mem_dispatched]
  by_cases hr : known r = true
  · obtain ⟨hstatus, hsome, hskipped⟩ := PostgresStageStore.run_status hr calls s
    have hrow : (∃ status, ((PostgresStageStore.run known calls).rows r).status s = some status ∧
        status ≠ .skipped) ↔ ∃ c ∈ calls, c.Announces r s ∨ c.FailsTransiently r s := by
      rw [← hsome, Option.isSome_iff_exists]
      apply exists_congr
      intro status
      exact and_iff_left_of_imp fun h hskip => hskipped (hskip ▸ h)
    rw [if_pos hr, hstatus, hrow]
    refine and_congr ⟨fun h => ?_, fun h => and_iff_left h⟩ ⟨fun h hfails => ?_, fun h => ?_⟩
    · by_cases hdone : ∃ c ∈ calls, c.Completes r s
      · exact (h.mpr hdone).2
      · intro front c back heq _ ⟨d, hd, hcompletes⟩
        exact absurd ⟨d, by simp [heq, hd], hcompletes⟩ hdone
    · obtain ⟨c, hc, hfails⟩ := hfails
      exact h.mp ⟨c, hc, Or.inr hfails⟩
    · constructor
      · rintro ⟨c, hc, hannounces | hfails⟩
        · exact ⟨c, hc, hannounces⟩
        · exact h ⟨c, hc, hfails⟩
      · rintro ⟨c, hc, hannounces⟩
        exact ⟨c, hc, Or.inl hannounces⟩
  · have hunknown : known r = false := by simpa using hr
    rw [if_neg hr, PostgresStageStore.run_unknown hunknown]
    simp only [StageRows.status_empty, reduceCtorEq, false_and, exists_false, false_iff, not_exists,
      not_and]
    exact ⟨fun h => h.2, fun h => ⟨fun c hc hcompletes => h c hc (announces_of_completes hcompletes), h⟩⟩

/-- A message delivered again begins a stage that has succeeded: the table forgets the success. -/
theorem redelivery_forgets_a_completion :
    let calls : List (StoreCall ℕ) :=
      [.beginStage 0 "detect" 1, .completeStage 0 "detect", .beginStage 0 "detect" 1]
    (PostgresStageStore.run (fun _ => true) calls).snapshot 0 ≠
      (InMemoryStageStore.run calls).snapshot 0 := by
  decide +kernel

end
end Ragent.StageStores
