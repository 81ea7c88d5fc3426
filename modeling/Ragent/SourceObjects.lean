import Ragent.ObjectStore
import Ragent.StageContracts
import Ragent.TextSniffing

set_option autoImplicit false

/-!
# What the stages read

`detect_stage`, `convert_stage` and `_load_source` of the parse stages, over the rows of the
documents and the object store, one statement or request at a time. LibreOffice is a parameter: it
tells which PDFs it may make of a file. The stages behind the parse stages read no objects.
-/
namespace Ragent.SourceObjects
open Formats Stages Runner GuardedRuns Consumer StageOrder StageContracts ObjectStore

structure DocumentRow where
  sourceUri : String
  originalName : String
  convertedUri : Option String := none
  deriving DecidableEq

/-- `row["converted_uri"] or row["source_uri"]` -/
def DocumentRow.uri (row : DocumentRow) : String :=
  match row.convertedUri with
  | some uri => if uri = "" then row.sourceUri else uri
  | none => row.sourceUri

structure World where
  documents : String → Option DocumentRow
  objects : String → Option Bytes

structure Settings where
  platform : Platform
  bucket : String
  /-- Whether LibreOffice may make the PDF of a file with that name and content. -/
  soffice : String → Bytes → Bytes → Bool

def SNIFF_BYTES : ℕ := 1 <<< 20

inductive Execution
  | started
  | located (uri name : String)
  | fetched (data : Bytes) (name : String)
  | rendered (pdf : Bytes)
  | stored (uri : String)
  | detected (family : FormatFamily)
  | returned
  deriving DecidableEq

inductive Choice
  | next
  | render (pdf : Bytes)

/-- `row["original_name"] or "input"` -/
def inputName (name : String) : String := if name = "" then "input" else name

section
variable (settings : Settings)

namespace World

def getObject (w : World) (uri : String) : Option Bytes := w.objects (keyOf settings.bucket uri)

def putObject (w : World) (key : String) (data : Bytes) : World :=
  { w with objects := Function.update w.objects key (some data) }

/-- `UPDATE documents SET converted_uri = $2` -/
def setConvertedUri (w : World) (documentId uri : String) : World :=
  { w with
    documents := Function.update w.documents documentId
      ((w.documents documentId).map fun row => { row with convertedUri := some uri }) }

variable {w : World} {key key' d d' : String} {data : Bytes} {uri : String}

theorem putObject_self : (w.putObject key data).objects key = some data := Function.update_self _ _ _

theorem putObject_of_ne (h : key' ≠ key) : (w.putObject key data).objects key' = w.objects key' :=
  Function.update_of_ne h _ _

theorem setConvertedUri_self : (w.setConvertedUri d uri).documents d =
    (w.documents d).map fun row => { row with convertedUri := some uri } :=
  Function.update_self _ _ _

theorem setConvertedUri_of_ne (h : d' ≠ d) :
    (w.setConvertedUri d uri).documents d' = w.documents d' :=
  Function.update_of_ne h _ _

end World

def detectStage (documentId : String) : Choice → Execution × World → Option (Execution × World)
  | .next, (.started, w) =>
    (w.documents documentId).map fun row => (.located row.sourceUri row.originalName, w)
  | .next, (.located uri name, w) => (w.getObject settings uri).map fun data => (.fetched data name, w)
  | .next, (.fetched data name, w) =>
    match detectFormat settings.platform (data.take SNIFF_BYTES) name with
    | .ok fmt => some (.detected fmt.family, w)
    | .error _ => none
  | _, _ => none

def convertStage (documentId : String) : Choice → Execution × World → Option (Execution × World)
  | .next, (.started, w) =>
    (w.documents documentId).map fun row => (.located row.sourceUri row.originalName, w)
  | .next, (.located uri name, w) => (w.getObject settings uri).map fun data => (.fetched data name, w)
  | .render pdf, (.fetched data name, w) =>
    if settings.soffice (inputName name) data pdf then some (.rendered pdf, w) else none
  | .next, (.rendered pdf, w) =>
    let key := convertedKey documentId
    some (.stored (objectUri settings.bucket key), w.putObject key pdf)
  | .next, (.stored uri, w) => some (.returned, w.setConvertedUri documentId uri)
  | _, _ => none

/-- Both parse stages. What they make of the bytes is not modelled here. -/
def parseStage (documentId : String) : Choice → Execution × World → Option (Execution × World)
  -- `_load_source`
  | .next, (.started, w) =>
    (w.documents documentId).map fun row => (.located row.uri row.originalName, w)
  | .next, (.located uri name, w) => (w.getObject settings uri).map fun data => (.fetched data name, w)
  | .next, (.fetched _ _, w) => some (.returned, w)
  | _, _ => none

def passStage : Choice → Execution × World → Option (Execution × World)
  | .next, (.started, w) => some (.returned, w)
  | _, _ => none

def move (m : StageMessage) (c : Choice) (x : Execution × World) : Option (Execution × World) :=
  match m.stage with
  | "detect" => detectStage settings m.documentId c x
  | "convert" => convertStage settings m.documentId c x
  | "parse" => parseStage settings m.documentId c x
  | "parse_flow" => parseStage settings m.documentId c x
  | _ => passStage c x

def result (m : StageMessage) : Execution → Option (Option FormatFamily)
  | .detected family => if m.stage = "detect" then some (some family) else none
  | .returned => if m.stage = "detect" then none else some none
  | _ => none

def handlers : Handlers World Execution Choice where
  start _ := .started
  move := move settings
  result := result
  family_iff := by
    intro m h family heq
    cases h with
    | detected found =>
      obtain ⟨hstage, rfl⟩ := by simpa [result] using heq
      simp [hstage]
    | returned =>
      obtain ⟨hstage, rfl⟩ := by simpa [result] using heq
      simp [hstage]
    | _ => cases heq
  -- the status of a document is no part of this world
  failDocument _ w := w

inductive Step (m : StageMessage) (w : World) : Execution → Execution → World → Prop
  | locates {row : DocumentRow} (hrow : w.documents m.documentId = some row)
      (hstage : m.stage = "detect" ∨ m.stage = "convert") :
      Step m w .started (.located row.sourceUri row.originalName) w
  | loads {row : DocumentRow} (hrow : w.documents m.documentId = some row)
      (hstage : m.stage = "parse" ∨ m.stage = "parse_flow") :
      Step m w .started (.located row.uri row.originalName) w
  | fetches {uri name : String} {data : Bytes} (hdata : w.getObject settings uri = some data) :
      Step m w (.located uri name) (.fetched data name) w
  | detects {data : Bytes} {name : String} {fmt : DetectedFormat} (hstage : m.stage = "detect")
      (hfmt : detectFormat settings.platform (data.take SNIFF_BYTES) name = .ok fmt) :
      Step m w (.fetched data name) (.detected fmt.family) w
  | renders {data pdf : Bytes} {name : String} (hstage : m.stage = "convert")
      (hpdf : settings.soffice (inputName name) data pdf = true) :
      Step m w (.fetched data name) (.rendered pdf) w
  | stores {pdf : Bytes} (hstage : m.stage = "convert") :
      Step m w (.rendered pdf) (.stored (objectUri settings.bucket (convertedKey m.documentId)))
        (w.putObject (convertedKey m.documentId) pdf)
  | converts {uri : String} (hstage : m.stage = "convert") :
      Step m w (.stored uri) .returned (w.setConvertedUri m.documentId uri)
  | parses {data : Bytes} {name : String} (hstage : m.stage = "parse" ∨ m.stage = "parse_flow") :
      Step m w (.fetched data name) .returned w
  | passes (hstage : m.stage ≠ "detect" ∧ m.stage ≠ "convert") : Step m w .started .returned w

variable {settings} {m : StageMessage} {w w' : World} {c : Choice} {k k' : Execution}

theorem step_of_detectStage (hstage : m.stage = "detect")
    (h : detectStage settings m.documentId c (k, w) = some (k', w')) :
    Step settings m w k k' w' := by
  unfold detectStage at h
  split at h
  · rename_i heq
    cases heq
    obtain ⟨row, hrow, heq⟩ := Option.map_eq_some_iff.mp h
    cases heq
    exact .locates hrow (.inl hstage)
  · rename_i heq
    cases heq
    obtain ⟨data, hdata, heq⟩ := Option.map_eq_some_iff.mp h
    cases heq
    exact .fetches hdata
  · rename_i heq
    cases heq
    split at h
    · rename_i hfmt
      cases h
      exact .detects hstage hfmt
    · cases h
  · cases h

theorem step_of_convertStage (hstage : m.stage = "convert")
    (h : convertStage settings m.documentId c (k, w) = some (k', w')) :
    Step settings m w k k' w' := by
  unfold convertStage at h
  split at h
  · rename_i heq
    cases heq
    obtain ⟨row, hrow, heq⟩ := Option.map_eq_some_iff.mp h
    cases heq
    exact .locates hrow (.inr hstage)
  · rename_i heq
    cases heq
    obtain ⟨data, hdata, heq⟩ := Option.map_eq_some_iff.mp h
    cases heq
    exact .fetches hdata
  · rename_i heq
    cases heq
    rw [Option.ite_none_right_eq_some] at h
    obtain ⟨hpdf, h⟩ := h
    cases h
    exact .renders hstage hpdf
  · rename_i heq
    cases heq
    cases h
    exact .stores hstage
  · rename_i heq
    cases heq
    cases h
    exact .converts hstage
  · cases h

theorem step_of_parseStage (hstage : m.stage = "parse" ∨ m.stage = "parse_flow")
    (h : parseStage settings m.documentId c (k, w) = some (k', w')) :
    Step settings m w k k' w' := by
  unfold parseStage at h
  split at h
  · rename_i heq
    cases heq
    obtain ⟨row, hrow, heq⟩ := Option.map_eq_some_iff.mp h
    cases heq
    exact .loads hrow hstage
  · rename_i heq
    cases heq
    obtain ⟨data, hdata, heq⟩ := Option.map_eq_some_iff.mp h
    cases heq
    exact .fetches hdata
  · rename_i heq
    cases heq
    cases h
    exact .parses hstage
  · cases h

theorem step_of_move (h : move settings m c (k, w) = some (k', w')) : Step settings m w k k' w' := by
  unfold move at h
  split at h
  · rename_i hstage
    exact step_of_detectStage hstage h
  · rename_i hstage
    exact step_of_convertStage hstage h
  · rename_i hstage
    exact step_of_parseStage (.inl hstage) h
  · rename_i hstage
    exact step_of_parseStage (.inr hstage) h
  · rename_i hdetect hconvert _ _
    unfold passStage at h
    split at h
    · rename_i heq
      cases heq
      cases h
      exact .passes ⟨hdetect, hconvert⟩
    · cases h

variable (settings)

def sourceOf (w : World) (documentId : String) : Option (String × Bytes) :=
  (w.documents documentId).bind fun row =>
    (w.getObject settings row.sourceUri).map fun data => (row.originalName, data)

def formatOf (w : World) (documentId : String) : Option DetectedFormat :=
  (sourceOf settings w documentId).bind fun source =>
    (detectFormat settings.platform (source.2.take SNIFF_BYTES) source.1).toOption

/-- Every document has the object that `upload` put, and nothing has been converted. -/
structure Uploaded (w : World) : Prop where
  sources : ∀ d row, w.documents d = some row → row.convertedUri = none ∧
    ∃ digest extension, row.sourceUri = objectUri settings.bucket (rawKey digest extension) ∧
      (w.objects (rawKey digest extension)).isSome
  unconverted : ∀ d, w.objects (convertedKey d) = none

def Converts (w₀ : World) (documentId : String) : Prop :=
  ∃ fmt, formatOf settings w₀ documentId = some fmt ∧ fmt.needsConversion = true

/-- The bytes a stage is to work on: what was uploaded, or for `parse` a PDF made of it. -/
def Reads (w₀ : World) (stage documentId : String) (data : Bytes) (name : String) : Prop :=
  ∃ source, sourceOf settings w₀ documentId = some (name, source) ∧
    ((stage = "parse" ∧ Converts settings w₀ documentId) ∧
        settings.soffice (inputName name) source data = true ∨
      ¬(stage = "parse" ∧ Converts settings w₀ documentId) ∧ data = source)

def Detected (w₀ : World) (m : StageMessage) : Prop :=
  ∃ fmt, formatOf settings w₀ m.documentId = some fmt ∧ fmt.family = m.family

def HasConverted (w : World) (documentId : String) : Prop :=
  ∃ row, w.documents documentId = some row ∧ row.convertedUri ≠ none

structure Sound (w₀ w : World) : Prop where
  rows : ∀ d, (w.documents d).map (fun row => (row.sourceUri, row.originalName)) =
    (w₀.documents d).map fun row => (row.sourceUri, row.originalName)
  sources : ∀ digest extension,
    w.objects (rawKey digest extension) = w₀.objects (rawKey digest extension)
  converted : ∀ d row uri, w.documents d = some row → row.convertedUri = some uri →
    uri = objectUri settings.bucket (convertedKey d) ∧ (w.objects (convertedKey d)).isSome ∧
      Converts settings w₀ d
  renderings : ∀ d pdf, w.objects (convertedKey d) = some pdf → ∃ source,
    sourceOf settings w₀ d = some source ∧
      settings.soffice (inputName source.1) source.2 pdf = true

def Locates (w₀ w : World) (m : StageMessage) (uri name : String) : Prop :=
  (w.getObject settings uri).isSome ∧ ∃ source,
    sourceOf settings w₀ m.documentId = some (name, source) ∧
      ((m.stage = "parse" ∧ Converts settings w₀ m.documentId) ∧
          uri = objectUri settings.bucket (convertedKey m.documentId) ∨
        ¬(m.stage = "parse" ∧ Converts settings w₀ m.documentId) ∧ ∃ digest extension,
          uri = objectUri settings.bucket (rawKey digest extension) ∧
            w₀.objects (rawKey digest extension) = some source)

def Stands (w₀ w : World) (m : StageMessage) : Execution → Prop
  | .started => m.stage = "parse" → Converts settings w₀ m.documentId → HasConverted w m.documentId
  | .located uri name => Locates settings w₀ w m uri name
  | .fetched data name => Reads settings w₀ m.stage m.documentId data name
  | .rendered pdf => ∃ source, sourceOf settings w₀ m.documentId = some source ∧
      settings.soffice (inputName source.1) source.2 pdf = true
  | .stored uri => uri = objectUri settings.bucket (convertedKey m.documentId) ∧
      (w.objects (convertedKey m.documentId)).isSome
  | .detected family => ∃ fmt, formatOf settings w₀ m.documentId = some fmt ∧ fmt.family = family
  | .returned => m.stage = "convert" → HasConverted w m.documentId

structure Routed (w₀ : World) (m : StageMessage) : Prop where
  detected : m.stage ≠ "detect" → Detected settings w₀ m
  convert : m.stage = "convert" → Converts settings w₀ m.documentId
  parse : m.stage = "parse" → m.family ≠ .flow
  parseFlow : m.stage = "parse_flow" → m.family = .flow

def terms (w₀ : World) : Terms World Execution where
  Holds := Sound settings w₀
  Given _ m := m.stage ≠ "detect" → Detected settings w₀ m
  During w m k := Routed settings w₀ m ∧ Stands settings w₀ w m k
  Done w m := Detected settings w₀ m ∧ (m.stage = "convert" → HasConverted w m.documentId)

variable {settings} {w₀ : World} {d : String}

theorem sound_of_uploaded (h : Uploaded settings w₀) : Sound settings w₀ w₀ where
  rows _ := rfl
  sources _ _ := rfl
  converted d row uri hrow huri := by
    rw [(h.sources d row hrow).1] at huri
    cases huri
  renderings d pdf hpdf := by
    rw [h.unconverted d] at hpdf
    cases hpdf

theorem needsConversion_iff {fmt : DetectedFormat} :
    fmt.needsConversion = true ↔ fmt.family = .office ∨ fmt.family = .web := by
  simp [DetectedFormat.needsConversion]

theorem converts_iff (h : Detected settings w₀ m) :
    Converts settings w₀ m.documentId ↔ m.family = .office ∨ m.family = .web := by
  obtain ⟨fmt, hfmt, hfamily⟩ := h
  rw [← hfamily, ← needsConversion_iff]
  constructor
  · rintro ⟨fmt', hfmt', hneeds⟩
    rw [hfmt] at hfmt'
    cases hfmt'
    exact hneeds
  · exact fun hneeds => ⟨fmt, hfmt, hneeds⟩

theorem routes {family : FormatFamily} {stage : Stage} (h : stage ∈ stagesFor PIPELINE family) :
    (stage.name = "convert" → family = .office ∨ family = .web) ∧
      (stage.name = "parse" → family ≠ .flow ∧
        (family = .office ∨ family = .web → "convert" ∈ effectiveDeps PIPELINE family stage)) ∧
      (stage.name = "parse_flow" → family = .flow) := by
  revert stage
  cases family <;> decide

theorem routed_of_restsOn {log : List StageMessage} (hgiven : m.stage ≠ "detect" → Detected settings w₀ m)
    (hrests : RestsOn log m) : Routed settings w₀ m := by
  have hroutes : ∀ {name : String}, m.stage = name → name ≠ "detect" →
      ∃ stage ∈ stagesFor PIPELINE m.family, stage.name = name := by
    rintro _ rfl hne
    rcases hrests hne with ⟨stage, hmem, hname, -⟩
    exact ⟨stage, hmem, hname⟩
  refine ⟨hgiven, fun hstage => ?_, fun hstage => ?_, fun hstage => ?_⟩
  · obtain ⟨stage, hmem, hname⟩ := hroutes hstage (by decide)
    have hdetected := hgiven (by rw [hstage]; decide)
    exact (converts_iff hdetected).mpr ((routes hmem).1 hname)
  · obtain ⟨stage, hmem, hname⟩ := hroutes hstage (by decide)
    exact ((routes hmem).2.1 hname).1
  · obtain ⟨stage, hmem, hname⟩ := hroutes hstage (by decide)
    exact (routes hmem).2.2 hname

/-- `parse` starts behind a conversion of what needs one. -/
theorem converted_before_parse {log : List StageMessage}
    (hgiven : m.stage ≠ "detect" → Detected settings w₀ m) (hrests : RestsOn log m)
    (hlog : ∀ c ∈ log, (terms settings w₀).Done w c ∧ c.documentId = m.documentId)
    (hstage : m.stage = "parse") (hconverts : Converts settings w₀ m.documentId) :
    HasConverted w m.documentId := by
  have hne : m.stage ≠ "detect" := by rw [hstage]; decide
  rcases hrests hne with ⟨stage, hmem, hname, hdeps⟩
  have hdep := ((routes hmem).2.1 (hname.trans hstage)).2 ((converts_iff (hgiven hne)).mp hconverts)
  rcases hdeps "convert" hdep with ⟨c, hc, heq⟩
  obtain ⟨⟨-, hdone⟩, hdocument⟩ := hlog c hc
  exact hdocument ▸ hdone heq

structure Grows (w w' : World) : Prop where
  objects : ∀ key, (w.objects key).isSome → (w'.objects key).isSome
  converted : ∀ d, HasConverted w d → HasConverted w' d

theorem kept_of_grows (hsound : Sound settings w₀ w') (h : Grows w w') :
    (terms settings w₀).Kept w w' where
  holds := hsound
  given _ h := h
  during m k := by
    rintro ⟨hrouted, hstands⟩
    refine ⟨hrouted, ?_⟩
    cases k with
    | started => exact fun hstage hconverts => h.converted _ (hstands hstage hconverts)
    | located uri name => exact ⟨h.objects _ hstands.1, hstands.2⟩
    | stored uri => exact ⟨hstands.1, h.objects _ hstands.2⟩
    | returned => exact fun hstage => h.converted _ (hstands hstage)
    | _ => exact hstands
  done m hdone := ⟨hdone.1, fun hstage => h.converted _ (hdone.2 hstage)⟩

theorem grows_putObject (key : String) (data : Bytes) : Grows w (w.putObject key data) where
  objects key' h := by
    by_cases heq : key' = key
    · rw [heq, World.putObject_self]
      rfl
    · rwa [World.putObject_of_ne heq]
  converted _ h := h

theorem hasConverted_setConvertedUri {row : DocumentRow} (hrow : w.documents d = some row)
    (uri : String) : HasConverted (w.setConvertedUri d uri) d := by
  refine ⟨{ row with convertedUri := some uri }, ?_, by simp⟩
  rw [World.setConvertedUri_self, hrow]
  rfl

theorem grows_setConvertedUri (documentId uri : String) : Grows w (w.setConvertedUri documentId uri) where
  objects _ h := h
  converted d h := by
    rcases h with ⟨row, hrow, hconverted⟩
    by_cases heq : d = documentId
    · subst heq
      exact hasConverted_setConvertedUri hrow uri
    · exact ⟨row, by rwa [World.setConvertedUri_of_ne heq], hconverted⟩

theorem Sound.putObject (h : Sound settings w₀ w) {pdf : Bytes} {source : String × Bytes}
    (hsource : sourceOf settings w₀ d = some source)
    (hpdf : settings.soffice (inputName source.1) source.2 pdf = true) :
    Sound settings w₀ (w.putObject (convertedKey d) pdf) where
  rows := h.rows
  sources digest extension := by
    rw [World.putObject_of_ne (rawKey_ne_convertedKey digest extension d)]
    exact h.sources digest extension
  converted d' row uri hrow huri := by
    obtain ⟨heq, hobject, hconverts⟩ := h.converted d' row uri hrow huri
    exact ⟨heq, (grows_putObject _ _).objects _ hobject, hconverts⟩
  renderings d' pdf' hpdf' := by
    by_cases heq : d' = d
    · subst heq
      rw [World.putObject_self] at hpdf'
      cases hpdf'
      exact ⟨source, hsource, hpdf⟩
    · rw [World.putObject_of_ne fun hkey => heq (convertedKey_injective hkey)] at hpdf'
      exact h.renderings d' pdf' hpdf'

theorem Sound.setConvertedUri (h : Sound settings w₀ w) (hconverts : Converts settings w₀ d)
    (hobject : (w.objects (convertedKey d)).isSome) :
    Sound settings w₀ (w.setConvertedUri d (objectUri settings.bucket (convertedKey d))) where
  rows d' := by
    rw [← h.rows d']
    by_cases heq : d' = d
    · subst heq
      rw [World.setConvertedUri_self, Option.map_map]
      rfl
    · rw [World.setConvertedUri_of_ne heq]
  sources := h.sources
  converted d' row uri hrow huri := by
    by_cases heq : d' = d
    · subst heq
      rw [World.setConvertedUri_self] at hrow
      obtain ⟨row', -, rfl⟩ := Option.map_eq_some_iff.mp hrow
      cases huri
      exact ⟨rfl, hobject, hconverts⟩
    · rw [World.setConvertedUri_of_ne heq] at hrow
      exact h.converted d' row uri hrow huri
  renderings := h.renderings

theorem row_of_converts (h : Sound settings w₀ w) (hconverts : Converts settings w₀ d) :
    ∃ row, w.documents d = some row := by
  obtain ⟨fmt, hfmt, -⟩ := hconverts
  obtain ⟨source, hsource, -⟩ := Option.bind_eq_some_iff.mp hfmt
  obtain ⟨row₀, hrow₀, -⟩ := Option.bind_eq_some_iff.mp hsource
  have hrows := h.rows d
  rw [hrow₀] at hrows
  obtain ⟨row, hrow, -⟩ := Option.map_eq_some_iff.mp hrows
  exact ⟨row, hrow⟩

/-- A row still has the object behind it that was uploaded. -/
theorem source_of_row (hw₀ : Uploaded settings w₀) (h : Sound settings w₀ w) {row : DocumentRow}
    (hrow : w.documents d = some row) : ∃ source digest extension,
      sourceOf settings w₀ d = some (row.originalName, source) ∧
        row.sourceUri = objectUri settings.bucket (rawKey digest extension) ∧
          w₀.objects (rawKey digest extension) = some source := by
  have hrows := h.rows d
  rw [hrow] at hrows
  obtain ⟨row₀, hrow₀, heq⟩ := Option.map_eq_some_iff.mp hrows.symm
  obtain ⟨huri, hname⟩ := Prod.mk.inj heq
  obtain ⟨-, digest, extension, hsourceUri, hsome⟩ := hw₀.sources d row₀ hrow₀
  obtain ⟨source, hsource⟩ := Option.isSome_iff_exists.mp hsome
  refine ⟨source, digest, extension, ?_, huri ▸ hsourceUri, hsource⟩
  unfold sourceOf World.getObject
  rw [hrow₀, Option.bind_some, hsourceUri, keyOf_objectUri, hsource, ← hname]
  rfl

theorem locates_source (hw₀ : Uploaded settings w₀) (h : Sound settings w₀ w) {row : DocumentRow}
    (hrow : w.documents m.documentId = some row)
    (hplain : ¬(m.stage = "parse" ∧ Converts settings w₀ m.documentId)) :
    Locates settings w₀ w m row.sourceUri row.originalName := by
  obtain ⟨source, digest, extension, hsource, huri, hobject⟩ := source_of_row hw₀ h hrow
  refine ⟨?_, source, hsource, .inr ⟨hplain, digest, extension, huri, hobject⟩⟩
  unfold World.getObject
  rw [huri, keyOf_objectUri, h.sources, hobject]
  rfl

theorem locates_uri (hw₀ : Uploaded settings w₀) (h : Sound settings w₀ w)
    (hrouted : Routed settings w₀ m) (hstage : m.stage = "parse" ∨ m.stage = "parse_flow")
    (hbefore : m.stage = "parse" → Converts settings w₀ m.documentId → HasConverted w m.documentId)
    {row : DocumentRow} (hrow : w.documents m.documentId = some row) :
    Locates settings w₀ w m row.uri row.originalName := by
  have hdetected : Detected settings w₀ m := by
    apply hrouted.detected
    rcases hstage with h | h <;> rw [h] <;> decide
  cases hconverted : row.convertedUri with
  | none =>
    have huri : row.uri = row.sourceUri := by rw [DocumentRow.uri, hconverted]
    rw [huri]
    apply locates_source hw₀ h hrow
    rintro ⟨hparse, hconverts⟩
    obtain ⟨row', hrow', hsome⟩ := hbefore hparse hconverts
    rw [hrow] at hrow'
    cases hrow'
    exact hsome hconverted
  | some uri =>
    obtain ⟨rfl, hobject, hconverts⟩ := h.converted _ row uri hrow hconverted
    have huri : row.uri = objectUri settings.bucket (convertedKey m.documentId) := by
      rw [DocumentRow.uri, hconverted]
      exact if_neg (objectUri_ne_empty _ _)
    obtain ⟨source, _, _, hsource, -, -⟩ := source_of_row hw₀ h hrow
    have hparse : m.stage = "parse" := by
      rcases hstage with hparse | hflow
      · exact hparse
      · have hfamily := (converts_iff hdetected).mp hconverts
        rw [hrouted.parseFlow hflow] at hfamily
        rcases hfamily with hfamily | hfamily <;> cases hfamily
    rw [huri]
    refine ⟨?_, source, hsource, .inl ⟨⟨hparse, hconverts⟩, rfl⟩⟩
    unfold World.getObject
    rwa [keyOf_objectUri]

theorem reads_of_locates (h : Sound settings w₀ w) {uri name : String} {data : Bytes}
    (hlocates : Locates settings w₀ w m uri name) (hdata : w.getObject settings uri = some data) :
    Reads settings w₀ m.stage m.documentId data name := by
  unfold World.getObject at hdata
  obtain ⟨-, source, hsource, ⟨hconverted, rfl⟩ | ⟨hplain, digest, extension, rfl, hobject⟩⟩ := hlocates
  · rw [keyOf_objectUri] at hdata
    obtain ⟨source', hsource', hpdf⟩ := h.renderings _ _ hdata
    rw [hsource] at hsource'
    cases hsource'
    exact ⟨source, hsource, .inl ⟨hconverted, hpdf⟩⟩
  · rw [keyOf_objectUri, h.sources, hobject] at hdata
    obtain rfl := Option.some.inj hdata
    exact ⟨_, hsource, .inr ⟨hplain, rfl⟩⟩

theorem source_of_reads {data : Bytes} {name : String} (hstage : m.stage ≠ "parse")
    (h : Reads settings w₀ m.stage m.documentId data name) :
    sourceOf settings w₀ m.documentId = some (name, data) := by
  obtain ⟨source, hsource, ⟨⟨hparse, -⟩, -⟩ | ⟨-, rfl⟩⟩ := h
  · exact absurd hparse hstage
  · exact hsource

theorem kept_of_step (hw₀ : Uploaded settings w₀) (h : Sound settings w₀ w)
    (hrouted : Routed settings w₀ m) (hstands : Stands settings w₀ w m k)
    (hstep : Step settings m w k k' w') :
    (terms settings w₀).Kept w w' ∧ Stands settings w₀ w' m k' := by
  have hsame : (terms settings w₀).Kept w w := .refl h
  cases hstep with
  | locates hrow hstage =>
    refine ⟨hsame, locates_source hw₀ h hrow ?_⟩
    rintro ⟨hparse, -⟩
    rcases hstage with hdetect | hconvert
    · exact absurd (hparse.symm.trans hdetect) (by decide)
    · exact absurd (hparse.symm.trans hconvert) (by decide)
  | loads hrow hstage => exact ⟨hsame, locates_uri hw₀ h hrouted hstage hstands hrow⟩
  | fetches hdata => exact ⟨hsame, reads_of_locates h hstands hdata⟩
  | @detects data name fmt hstage hfmt =>
    have hsource := source_of_reads (by rw [hstage]; decide) hstands
    refine ⟨hsame, fmt, ?_, rfl⟩
    unfold formatOf
    rw [hsource, Option.bind_some, hfmt]
    rfl
  | renders hstage hpdf =>
    exact ⟨hsame, _, source_of_reads (by rw [hstage]; decide) hstands, hpdf⟩
  | stores hstage =>
    obtain ⟨source, hsource, hpdf⟩ := hstands
    refine ⟨kept_of_grows (h.putObject hsource hpdf) (grows_putObject _ _), rfl, ?_⟩
    rw [World.putObject_self]
    rfl
  | converts hstage =>
    obtain ⟨rfl, hobject⟩ := hstands
    have hsound := h.setConvertedUri (hrouted.convert hstage) hobject
    obtain ⟨row, hrow⟩ := row_of_converts h (hrouted.convert hstage)
    exact ⟨kept_of_grows hsound (grows_setConvertedUri _ _), fun _ =>
      hasConverted_setConvertedUri hrow _⟩
  | parses hstage =>
    refine ⟨hsame, fun hconvert => ?_⟩
    rcases hstage with hparse | hflow
    · exact absurd (hconvert.symm.trans hparse) (by decide)
    · exact absurd (hconvert.symm.trans hflow) (by decide)
  | passes hstage => exact ⟨hsame, fun hconvert => absurd hconvert hstage.2⟩

def contract (hw₀ : Uploaded settings w₀) : Contract (handlers settings) where
  toTerms := terms settings w₀
  uploaded _ _ _ _ _ _ hstage := absurd rfl hstage
  start world log m _ hgiven hlog hrests :=
    ⟨routed_of_restsOn hgiven hrests, converted_before_parse hgiven hrests hlog⟩
  move world m c k k' world' hholds hduring hmove := by
    obtain ⟨hkept, hstands⟩ := kept_of_step hw₀ hholds hduring.1 hduring.2 (step_of_move hmove)
    exact ⟨hkept, hduring.1, hstands⟩
  finish world m k family _ hduring hresult := by
    obtain ⟨hrouted, hstands⟩ := hduring
    cases k with
    | detected found =>
      obtain ⟨hstage, rfl⟩ : m.stage = "detect" ∧ some found = family := by
        simpa [handlers, result] using hresult
      refine ⟨hstands, fun hconvert => absurd (hstage.symm.trans hconvert) (by decide)⟩
    | returned =>
      obtain ⟨hstage, rfl⟩ : m.stage ≠ "detect" ∧ none = family := by
        simpa [handlers, result] using hresult
      exact ⟨hrouted.detected hstage, hstands⟩
    | _ => cases hresult
  follow _ _ _ hdone _ := hdone.1
  retry _ _ hgiven := hgiven
  condemn _ _ hholds := .refl hholds

/-- Whatever is retried, redelivered or interleaved, a stage that fetches an object finds it, and
    works on the bytes that were uploaded and classified; `parse` works on a PDF that LibreOffice
    made of them if they are an Office or HTML file, and only then. -/
theorem stages_read_what_was_uploaded (hw₀ : Uploaded settings w₀)
    {s : System World Execution × (String → List StageMessage)}
    (h : Reachable (fun s => Start s ∧ s.1.world = w₀) (StageOrder.exec (handlers settings))
      (fun _ _ => True) s) {run : String} {m : StageMessage} {worker : WorkerId} {k : Execution}
    (ht : ⟨m, .inHand worker (.handling k)⟩ ∈ (s.1.runs run).tokens) :
    (∀ uri name, k = .located uri name → (s.1.world.getObject settings uri).isSome) ∧
      (∀ data name, k = .fetched data name →
        Reads settings w₀ m.stage m.documentId data name) ∧
      (m.stage = "parse" ∨ m.stage = "parse_flow" → ∃ fmt,
        formatOf settings w₀ m.documentId = some fmt ∧
          (fmt.family = .flow ↔ m.stage = "parse_flow")) := by
  have hinit : ∀ s : System World Execution × (String → List StageMessage),
      Start s ∧ s.1.world = w₀ → Start s ∧ (contract hw₀).Holds s.1.world := by
    rintro s ⟨hstart, hworld⟩
    exact ⟨hstart, hworld.symm ▸ sound_of_uploaded hw₀⟩
  have hkeeps := (agreed_of_reachable hinit h).2.tokens run _ ht
  obtain ⟨hrouted, hstands⟩ := hkeeps.handling worker k rfl
  refine ⟨?_, ?_, ?_⟩
  · rintro uri name rfl
    exact hstands.1
  · rintro data name rfl
    exact hstands
  · rintro (hparse | hflow)
    · obtain ⟨fmt, hfmt, hfamily⟩ := hrouted.detected (by rw [hparse]; decide)
      refine ⟨fmt, hfmt, fun h => absurd (hfamily.symm.trans h) (hrouted.parse hparse), fun h => ?_⟩
      exact absurd (hparse.symm.trans h) (by decide)
    · obtain ⟨fmt, hfmt, hfamily⟩ := hrouted.detected (by rw [hflow]; decide)
      exact ⟨fmt, hfmt, fun _ => hflow, fun _ => hfamily.trans (hrouted.parseFlow hflow)⟩

end

def plainPlatform : Platform where
  zip := TextSniffing.noArchives.zip
  lower := id
  repr := id

def oneRendering : Settings where
  platform := plainPlatform
  bucket := "ragent"
  soffice _ _ pdf := pdf = bytes "%PDF-"

def uploadedPage : World where
  documents d := if d = "document" then
    some { sourceUri := objectUri "ragent" (rawKey "0" ".html"), originalName := "page.html" }
  else none
  objects key := if key = rawKey "0" ".html" then some (bytes "<html>") else none

theorem uploadedPage_uploaded : Uploaded oneRendering uploadedPage where
  sources d row hrow := by
    unfold uploadedPage at hrow
    rw [Option.ite_none_right_eq_some] at hrow
    obtain ⟨-, heq⟩ := hrow
    cases heq
    exact ⟨rfl, "0", ".html", rfl, rfl⟩
  unconverted d := by
    have hne : convertedKey d ≠ rawKey "0" ".html" := (rawKey_ne_convertedKey "0" ".html" d).symm
    simp [uploadedPage, hne]

def underWay (t : Token Execution) : Option (StageMessage × Execution) :=
  match t.place with
  | .inHand 0 (.handling k) => some (t.message, k)
  | _ => none

theorem mem_of_underWay {t : Token Execution} {m : StageMessage} {k : Execution}
    (h : underWay t = some (m, k)) : t = ⟨m, .inHand 0 (.handling k)⟩ := by
  obtain ⟨message, place⟩ := t
  unfold underWay at h
  split at h
  · rename_i heq
    cases heq
    cases h
    rfl
  · cases h

def onMessage (i : ℕ) (acts : List (Act Choice)) : List (Event Choice) := acts.map (.act "run" i)

def untilParsed : List (Event Choice) :=
  [.upload "document" "run" "v1" "trace", .start 0 everyStage] ++
    onMessage 0 ([.deliver 0, .call] ++ List.replicate 3 (.work .next) ++ [.finish] ++
      List.replicate 4 .call) ++
    onMessage 0 ([.deliver 0, .call, .work .next, .work .next, .work (.render (bytes "%PDF-")),
      .work .next, .work .next, .finish] ++ List.replicate 4 .call) ++
    onMessage 0 [.deliver 0, .call, .work .next, .work .next]

theorem a_page_is_parsed_from_its_rendering :
    ∃ s, Reachable (fun s => Start s ∧ s.1.world = uploadedPage)
        (StageOrder.exec (handlers oneRendering)) (fun _ _ => True) s ∧
      ∃ m : StageMessage, m.stage = "parse" ∧
        Reads oneRendering uploadedPage m.stage m.documentId (bytes "%PDF-") "page.html" := by
  have hend : (run (StageOrder.exec (handlers oneRendering))
      (⟨fun _ => none, fun _ => {}, uploadedPage⟩, fun _ => []) untilParsed).map (fun s =>
        (s.1.runs "run").tokens.map fun t => (underWay t).map fun x => (x.1.stage, x.2)) =
        some [some ("parse", .fetched (bytes "%PDF-") "page.html")] := by
    decide +kernel
  obtain ⟨s, hrun, heq⟩ := Option.map_eq_some_iff.mp hend
  have hreach : Reachable (fun s => Start s ∧ s.1.world = uploadedPage)
      (StageOrder.exec (handlers oneRendering)) (fun _ _ => True) s :=
    reachable_of_run (.start ⟨⟨⟨rfl, rfl⟩, rfl⟩, rfl⟩) (fun _ _ _ => trivial) hrun
  obtain ⟨t, ht, hmap⟩ := List.mem_map.mp (heq ▸ List.mem_singleton_self _)
  obtain ⟨⟨m, k⟩, hunderWay, hpair⟩ := Option.map_eq_some_iff.mp hmap
  obtain ⟨hstage, rfl⟩ := Prod.mk.inj hpair
  rw [mem_of_underWay hunderWay] at ht
  exact ⟨s, hreach, m, hstage,
    (stages_read_what_was_uploaded uploadedPage_uploaded hreach ht).2.1 _ _ rfl⟩

end Ragent.SourceObjects
