import Ragent.Exceptions
import Ragent.PyJson
import Ragent.Runner
import Ragent.TextSniffing

set_option autoImplicit false

/-!
# The envelope on the wire

`ragent/pipeline/messages.py` with every field of the envelope and every error of its decoder.
-/
namespace Ragent.Messages
open Exceptions Formats PyJson

/-- An `int`; `True` is one too. -/
inductive PyInt
  | int (n : ℤ)
  | bool (b : Bool)
  deriving DecidableEq

def PyInt.val : PyInt → ℤ
  | .int n => n
  | .bool b => if b then 1 else 0

def PyInt.json {F : Type} : PyInt → Json F
  | .int n => .int n
  | .bool b => .bool b

/-- `isinstance(v, int)` -/
def PyInt.ofJson {F : Type} : Json F → Option PyInt
  | .int n => some (.int n)
  | .bool b => some (.bool b)
  | _ => none

structure StageMessage (F : Type) where
  documentId : String
  runId : String
  stage : String
  family : FormatFamily
  pipelineVersion : String
  tenantId : String := "default"
  /-- 1-based count of attempts already made, including the current one. -/
  attempt : PyInt := .int 1
  traceId : String
  metadata : Dict F := Dict.empty

inductive PyError
  | malformedMessageError (reason : String)
  | uncaught (typeName : String)
  deriving DecidableEq

/-- `str` of a member. -/
def familyName : FormatFamily → String
  | .pdf => "pdf"
  | .image => "image"
  | .office => "office"
  | .web => "web"
  | .flow => "flow"

/-- `FormatFamily(v)`, which raises `ValueError` for every other value. -/
def familyOf {F : Type} : Json F → Option FormatFamily
  | .str "pdf" => some .pdf
  | .str "image" => some .image
  | .str "office" => some .office
  | .str "web" => some .web
  | .str "flow" => some .flow
  | _ => none

section
variable {F : Type}

namespace StageMessage

def withFamily (m : StageMessage F) (family : FormatFamily) : StageMessage F :=
  { m with family := family }

def forStage (m : StageMessage F) (stage : String) : StageMessage F :=
  { m with stage := stage, attempt := .int 1 }

def retried (m : StageMessage F) : StageMessage F :=
  { m with attempt := .int (m.attempt.val + 1) }

/-- The dictionary that `to_bytes` writes. -/
def fields (m : StageMessage F) : Dict F := Dict.ofFields
  [("document_id", .str m.documentId),
    ("run_id", .str m.runId),
    ("stage", .str m.stage),
    ("family", .str (familyName m.family)),
    ("pipeline_version", .str m.pipelineVersion),
    ("tenant_id", .str m.tenantId),
    ("attempt", m.attempt.json),
    ("trace_id", .str m.traceId),
    ("meta", m.metadata.json)]

def toBytes (py : Platform F) (m : StageMessage F) : Bytes := Utf8.encode (py.dumps m.fields.json)

end StageMessage

/-- The fields without a default, in the order of `sorted`. -/
def required : List String := ["document_id", "family", "pipeline_version", "run_id", "stage"]

/-- `data[key]` -/
def subscript (data : Dict F) (key : String) : Except PyError (Json F) :=
  match data.get key with
  | some v => .ok v
  | none => .error (.uncaught "KeyError")

/-- `json.loads(raw.decode("utf-8"))`, with the text of the `UnicodeDecodeError` as a parameter. -/
def loadsBytes (py : Platform F) (unicodeError : Bytes → String) (raw : Bytes) :
    Except PyError (Json F) :=
  match decodeUtf8 raw with
  | none => .error (.malformedMessageError ("undecodable message: " ++ unicodeError raw))
  | some text => match py.loads text with
    | .ok v => .ok v
    | .error (.decodeError reason) =>
      .error (.malformedMessageError ("undecodable message: " ++ reason))
    | .error (.other typeName) => .error (.uncaught typeName)

/-- `isinstance(data, dict)` and the fields it must have. -/
def asDict (py : Platform F) : Json F → Except PyError (Dict F)
  | .dict keys item =>
    let missing := required.filter (· ∉ keys)
    if missing = [] then .ok ⟨keys, item⟩
    else .error (.malformedMessageError
      ("missing fields " ++ py.repr (.list (missing.map .str))))
  | v => .error (.malformedMessageError ("expected an object, got " ++ v.typeName))

def readFamily (py : Platform F) (data : Dict F) : Except PyError FormatFamily := do
  let given ← subscript data "family"
  match familyOf given with
  | some family => .ok family
  | none => .error (.malformedMessageError ("unknown family " ++ py.repr given))

def readAttempt (py : Platform F) (data : Dict F) : Except PyError PyInt :=
  let given := (data.get "attempt").getD (.int 1)
  match PyInt.ofJson given with
  | some attempt =>
    if attempt.val < 1 then
      .error (.malformedMessageError ("attempt must be a positive int, got " ++ py.repr given))
    else .ok attempt
  | none => .error (.malformedMessageError ("attempt must be a positive int, got " ++ py.repr given))

/-- `data.get(key) or default` -/
def getOr (py : Platform F) (data : Dict F) (key : String) (default : Json F) : Json F :=
  match data.get key with
  | some v => if v.truthy py.isZero then v else default
  | none => default

def readMeta (py : Platform F) (data : Dict F) : Except PyError (Dict F) :=
  match getOr py data "meta" Dict.empty.json with
  | .dict keys item => .ok ⟨keys, item⟩
  | _ => .error (.malformedMessageError "meta must be an object")

/-- `hex` is the `uuid.uuid4().hex` of a message without a trace. -/
def fromDict (py : Platform F) (hex : String) (data : Dict F) :
    Except PyError (StageMessage F) := do
  let family ← readFamily py data
  let attempt ← readAttempt py data
  let metadata ← readMeta py data
  let documentId ← subscript data "document_id"
  let runId ← subscript data "run_id"
  let stage ← subscript data "stage"
  let pipelineVersion ← subscript data "pipeline_version"
  return {
    documentId := py.str documentId
    runId := py.str runId
    stage := py.str stage
    family := family
    pipelineVersion := py.str pipelineVersion
    tenantId := py.str ((data.get "tenant_id").getD (.str "default"))
    attempt := attempt
    traceId := py.str (getOr py data "trace_id" (.str hex))
    metadata := metadata }

def fromBytes (py : Platform F) (unicodeError : Bytes → String) (hex : String) (raw : Bytes) :
    Except PyError (StageMessage F) := do
  let v ← loadsBytes py unicodeError raw
  let data ← asDict py v
  fromDict py hex data

section
variable {py : Platform F} {unicodeError : Bytes → String} {hex : String} {m : StageMessage F}
  {data : Dict F}

theorem familyOf_familyName (family : FormatFamily) :
    familyOf (.str (familyName family) : Json F) = some family := by
  cases family <;> rfl

theorem PyInt.ofJson_json (n : PyInt) : PyInt.ofJson (n.json : Json F) = some n := by
  cases n <;> rfl

theorem get_fields (m : StageMessage F) (key : String) :
    m.fields.get key = List.lookup key
      [("document_id", .str m.documentId), ("run_id", .str m.runId), ("stage", .str m.stage),
        ("family", .str (familyName m.family)), ("pipeline_version", .str m.pipelineVersion),
        ("tenant_id", .str m.tenantId), ("attempt", m.attempt.json), ("trace_id", .str m.traceId),
        ("meta", m.metadata.json)] :=
  Dict.get_ofFields _ key

theorem subscript_of_get {key : String} {v : Json F} (h : data.get key = some v) :
    subscript data key = .ok v := by
  rw [subscript, h]

theorem loadsBytes_toBytes (hcodec : py.loads (py.dumps m.fields.json) = .ok m.fields.json) :
    loadsBytes py unicodeError (m.toBytes py) = .ok m.fields.json := by
  unfold loadsBytes StageMessage.toBytes
  rw [TextSniffing.decodeUtf8_encode]
  simp only [hcodec]

theorem asDict_fields : asDict py m.fields.json = .ok m.fields := by
  have hkeys : required.filter (· ∉ m.fields.keys) = [] := by
    rw [List.filter_eq_nil_iff]
    intro key hkey
    have hget : (m.fields.get key).isSome := by
      rw [get_fields]
      simp only [required, List.mem_cons, List.not_mem_nil, or_false] at hkey
      obtain rfl | rfl | rfl | rfl | rfl := hkey <;> rfl
    simpa using Dict.mem_keys_iff.mpr hget
  unfold asDict Dict.json
  simp only [hkeys, if_true]

theorem readFamily_fields : readFamily py m.fields = .ok m.family := by
  have hget : m.fields.get "family" = some (.str (familyName m.family)) := get_fields m "family"
  simp only [readFamily, subscript_of_get hget, Except.bind, bind, familyOf_familyName]

theorem readAttempt_fields (h : 1 ≤ m.attempt.val) : readAttempt py m.fields = .ok m.attempt := by
  have hget : m.fields.get "attempt" = some m.attempt.json := get_fields m "attempt"
  simp only [readAttempt, hget, Option.getD_some, PyInt.ofJson_json, if_neg (not_lt.mpr h)]

theorem getOr_of_truthy {key : String} {v default : Json F} (hget : data.get key = some v)
    (h : v.truthy py.isZero = true) : getOr py data key default = v := by
  simp only [getOr, hget, h, if_true]

theorem eq_empty_of_keys {d : Dict F} (h : d.keys = ∅) : d = Dict.empty := by
  cases d with
  | mk keys item =>
    obtain rfl : keys = ∅ := h
    have hitem : item = Dict.empty.item := by
      funext k
      exact absurd k.2 (Finset.notMem_empty _)
    rw [hitem]
    rfl

theorem readMeta_fields : readMeta py m.fields = .ok m.metadata := by
  have hget : m.fields.get "meta" = some m.metadata.json := get_fields m "meta"
  have hor : getOr py m.fields "meta" Dict.empty.json = m.metadata.json := by
    by_cases hkeys : m.metadata.keys = ∅
    · rw [eq_empty_of_keys hkeys] at hget ⊢
      simp only [getOr, hget, ite_self]
    · apply getOr_of_truthy hget
      simpa [Json.truthy, Dict.json] using hkeys
  rw [readMeta, hor]
  rfl

structure StrLaws (py : Platform F) : Prop where
  str_str : ∀ s, py.str (.str s) = s
  str_truthy : ∀ v, v.truthy py.isZero = true → py.str v ≠ ""

theorem fromDict_fields (laws : StrLaws py) (hattempt : 1 ≤ m.attempt.val) (htrace : m.traceId ≠ "") :
    fromDict py hex m.fields = .ok m := by
  have hdocument : m.fields.get "document_id" = some (.str m.documentId) := get_fields m "document_id"
  have hrun : m.fields.get "run_id" = some (.str m.runId) := get_fields m "run_id"
  have hstage : m.fields.get "stage" = some (.str m.stage) := get_fields m "stage"
  have hversion : m.fields.get "pipeline_version" = some (.str m.pipelineVersion) :=
    get_fields m "pipeline_version"
  have htenant : m.fields.get "tenant_id" = some (.str m.tenantId) := get_fields m "tenant_id"
  have htraceId : getOr py m.fields "trace_id" (.str hex) = .str m.traceId := by
    apply getOr_of_truthy (get_fields m "trace_id")
    simpa [Json.truthy] using htrace
  simp only [fromDict, readFamily_fields, readAttempt_fields hattempt, readMeta_fields,
    subscript_of_get hdocument, subscript_of_get hrun, subscript_of_get hstage,
    subscript_of_get hversion, htenant, htraceId, Option.getD_some, laws.str_str, bind, Except.bind,
    pure, Except.pure]

theorem fromBytes_toBytes (laws : StrLaws py) (hattempt : 1 ≤ m.attempt.val)
    (htrace : m.traceId ≠ "") (hcodec : py.loads (py.dumps m.fields.json) = .ok m.fields.json) :
    fromBytes py unicodeError hex (m.toBytes py) = .ok m := by
  simp only [fromBytes, loadsBytes_toBytes hcodec, asDict_fields, bind, Except.bind]
  exact fromDict_fields laws hattempt htrace

theorem readAttempt_pos {attempt : PyInt} (h : readAttempt py data = .ok attempt) :
    1 ≤ attempt.val := by
  unfold readAttempt at h
  cases hgiven : PyInt.ofJson ((data.get "attempt").getD (.int 1) : Json F) with
  | none =>
    simp only [hgiven] at h
    cases h
  | some given =>
    simp only [hgiven] at h
    by_cases hlt : given.val < 1
    · rw [if_pos hlt] at h
      cases h
    · rw [if_neg hlt] at h
      obtain rfl := Except.ok.inj h
      exact not_lt.mp hlt

theorem of_fromDict (h : fromDict py hex data = .ok m) :
    1 ≤ m.attempt.val ∧ m.traceId = py.str (getOr py data "trace_id" (.str hex)) := by
  obtain ⟨family, -, h⟩ := ok_of_bind h
  obtain ⟨attempt, hattempt, h⟩ := ok_of_bind h
  obtain ⟨metadata, -, h⟩ := ok_of_bind h
  obtain ⟨documentId, -, h⟩ := ok_of_bind h
  obtain ⟨runId, -, h⟩ := ok_of_bind h
  obtain ⟨stage, -, h⟩ := ok_of_bind h
  obtain ⟨pipelineVersion, -, h⟩ := ok_of_bind h
  obtain rfl := Except.ok.inj h
  exact ⟨readAttempt_pos hattempt, rfl⟩

theorem attempt_of_fromBytes {raw : Bytes} (h : fromBytes py unicodeError hex raw = .ok m) :
    1 ≤ m.attempt.val := by
  obtain ⟨read, -, h⟩ := ok_of_bind h
  obtain ⟨data, -, hfields⟩ := ok_of_bind h
  exact (of_fromDict hfields).1

theorem asDict_ok {v : Json F} (h : asDict py v = .ok data) :
    v = data.json ∧ ∀ key ∈ required, key ∈ data.keys := by
  cases v with
  | dict keys item =>
    unfold asDict at h
    by_cases hmissing : required.filter (· ∉ keys) = []
    · simp only [hmissing, if_true] at h
      obtain rfl := Except.ok.inj h
      refine ⟨rfl, fun key hkey => ?_⟩
      simpa using List.filter_eq_nil_iff.mp hmissing key hkey
    · simp only [hmissing, if_false] at h
      cases h
  | _ => cases h

def CarriesTraceId (py : Platform F) (raw : Bytes) : Prop :=
  ∃ text data v, decodeUtf8 raw = some text ∧ py.loads text = .ok (Dict.json data) ∧
    data.get "trace_id" = some v ∧ v.truthy py.isZero = true

theorem of_fromBytes {raw : Bytes} (laws : StrLaws py) (hcarries : CarriesTraceId py raw)
    (h : fromBytes py unicodeError hex raw = .ok m) : 1 ≤ m.attempt.val ∧ m.traceId ≠ "" := by
  obtain ⟨text, given, v, hdecode, hloads, hget, htruthy⟩ := hcarries
  obtain ⟨read, hread, h⟩ := ok_of_bind h
  obtain ⟨data, hdata, hfields⟩ := ok_of_bind h
  obtain ⟨rfl, -⟩ := asDict_ok hdata
  have hsame : given = data := by
    unfold loadsBytes at hread
    simp only [hdecode, hloads] at hread
    exact Dict.json_injective (Except.ok.inj hread)
  subst hsame
  obtain ⟨hattempt, htrace⟩ := of_fromDict hfields
  refine ⟨hattempt, ?_⟩
  rw [htrace, getOr_of_truthy hget htruthy]
  exact laws.str_truthy v htruthy

def Malformed : PyError → Prop
  | .malformedMessageError _ => True
  | .uncaught _ => False

theorem raisesOnly_subscript {key : String} (h : key ∈ data.keys) :
    RaisesOnly Malformed (subscript data key) := by
  obtain ⟨v, hv⟩ := Option.isSome_iff_exists.mp (Dict.mem_keys_iff.mp h)
  rw [subscript_of_get hv]
  exact .ok v

theorem raisesOnly_readFamily (h : "family" ∈ data.keys) :
    RaisesOnly Malformed (readFamily py data) := by
  apply (raisesOnly_subscript h).bind
  intro given _
  cases familyOf given with
  | none => exact .error trivial
  | some family => exact .ok family

theorem raisesOnly_readAttempt : RaisesOnly Malformed (readAttempt py data) := by
  unfold readAttempt
  cases hgiven : PyInt.ofJson ((data.get "attempt").getD (.int 1) : Json F) with
  | none =>
    simp only [hgiven]
    exact .error trivial
  | some attempt =>
    simp only [hgiven]
    by_cases hlt : attempt.val < 1
    · rw [if_pos hlt]
      exact .error trivial
    · rw [if_neg hlt]
      exact .ok attempt

theorem raisesOnly_readMeta : RaisesOnly Malformed (readMeta py data) := by
  unfold readMeta
  cases getOr py data "meta" Dict.empty.json with
  | dict keys item => exact .ok _
  | _ => exact .error trivial

theorem raisesOnly_fromDict (h : ∀ key ∈ required, key ∈ data.keys) :
    RaisesOnly Malformed (fromDict py hex data) := by
  have hsubscript : ∀ key ∈ required, RaisesOnly Malformed (subscript data key) :=
    fun key hkey => raisesOnly_subscript (h key hkey)
  apply (raisesOnly_readFamily (h "family" (by decide))).bind
  intro family _
  apply raisesOnly_readAttempt.bind
  intro attempt _
  apply raisesOnly_readMeta.bind
  intro metadata _
  apply (hsubscript "document_id" (by decide)).bind
  intro documentId _
  apply (hsubscript "run_id" (by decide)).bind
  intro runId _
  apply (hsubscript "stage" (by decide)).bind
  intro stage _
  apply (hsubscript "pipeline_version" (by decide)).bind
  intro pipelineVersion _
  exact .ok _

theorem raisesOnly_asDict (v : Json F) : RaisesOnly Malformed (asDict py v) := by
  cases v with
  | dict keys item =>
    unfold asDict
    by_cases hmissing : required.filter (· ∉ keys) = []
    · simp only [hmissing, if_true]
      exact .ok _
    · simp only [hmissing, if_false]
      exact .error trivial
  | _ => exact .error trivial

def Terminates (py : Platform F) (raw : Bytes) : Prop :=
  ∀ text typeName, decodeUtf8 raw = some text → py.loads text ≠ .error (.other typeName)

theorem raisesOnly_loadsBytes {raw : Bytes} (h : Terminates py raw) :
    RaisesOnly Malformed (loadsBytes py unicodeError raw) := by
  unfold loadsBytes
  cases hdecode : decodeUtf8 raw with
  | none => exact .error trivial
  | some text =>
    cases hloads : py.loads text with
    | ok v =>
      simp only [hloads]
      exact .ok v
    | error e =>
      cases e with
      | decodeError reason =>
        simp only [hloads]
        exact .error trivial
      | other typeName => exact absurd hloads (h text typeName hdecode)

theorem raisesOnly_fromBytes {raw : Bytes} (unicodeError : Bytes → String) (hex : String)
    (h : Terminates py raw) :
    RaisesOnly Malformed (fromBytes py unicodeError hex raw) := by
  apply (raisesOnly_loadsBytes h).bind
  intro v _
  apply (raisesOnly_asDict v).bind
  intro data hdata
  exact raisesOnly_fromDict (asDict_ok hdata).2

/-- What is written is read, what was read is written and read again, and what cannot be read
    raises a `MalformedMessageError`. -/
theorem stage_messages_survive_the_wire (unicodeError : Bytes → String) (laws : StrLaws py) :
    (∀ (m : StageMessage F) (hex : String), 1 ≤ m.attempt.val → m.traceId ≠ "" →
      py.loads (py.dumps m.fields.json) = .ok m.fields.json →
      fromBytes py unicodeError hex (m.toBytes py) = .ok m) ∧
    (∀ (raw : Bytes) (hex hex' : String) (m : StageMessage F), CarriesTraceId py raw →
      fromBytes py unicodeError hex raw = .ok m →
      py.loads (py.dumps m.fields.json) = .ok m.fields.json →
      fromBytes py unicodeError hex' (m.toBytes py) = .ok m) ∧
    ∀ (raw : Bytes) (hex : String), Terminates py raw →
      (∃ m, fromBytes py unicodeError hex raw = .ok m) ∨
        ∃ reason, fromBytes py unicodeError hex raw = .error (.malformedMessageError reason) := by
  refine ⟨fun m hex hattempt htrace => fromBytes_toBytes laws hattempt htrace, ?_, ?_⟩
  · intro raw hex hex' m hcarries hread hcodec
    obtain ⟨hattempt, htrace⟩ := of_fromBytes laws hcarries hread
    exact fromBytes_toBytes laws hattempt htrace hcodec
  · intro raw hex hterminates
    obtain ⟨m, hm⟩ | ⟨e, he, hmalformed⟩ :=
      (raisesOnly_fromBytes unicodeError hex hterminates).ok_or_error
    · exact .inl ⟨m, hm⟩
    · cases e with
      | malformedMessageError reason => exact .inr ⟨reason, he⟩
      | uncaught typeName => exact hmalformed.elim

end

namespace StageMessage

/-- The envelope without the hints that no decision looks at. -/
def envelope (m : StageMessage F) (h : 1 ≤ m.attempt.val) : Runner.StageMessage where
  documentId := m.documentId
  runId := m.runId
  stage := m.stage
  family := m.family
  pipelineVersion := m.pipelineVersion
  tenantId := m.tenantId
  attempt := m.attempt.val.toNat
  traceId := m.traceId
  positive := by omega

variable {m : StageMessage F}

theorem envelope_withFamily (h : 1 ≤ m.attempt.val) (family : FormatFamily) :
    (m.withFamily family).envelope h = (m.envelope h).withFamily family := rfl

theorem envelope_forStage (h : 1 ≤ m.attempt.val) (stage : String) :
    (m.forStage stage).envelope (Int.le_refl 1) = (m.envelope h).forStage stage := rfl

theorem retried_pos (h : 1 ≤ m.attempt.val) : 1 ≤ m.retried.attempt.val := by
  change 1 ≤ m.attempt.val + 1
  omega

theorem envelope_retried (h : 1 ≤ m.attempt.val) :
    m.retried.envelope (retried_pos h) = (m.envelope h).retried := by
  have hattempt : m.retried.attempt.val.toNat = m.attempt.val.toNat + 1 := by
    change (m.attempt.val + 1).toNat = m.attempt.val.toNat + 1
    omega
  simp only [envelope, Runner.StageMessage.retried, hattempt]
  rfl

end StageMessage
end

def firstParse : StageMessage Empty where
  documentId := "d1"
  runId := "r1"
  stage := "parse"
  family := .pdf
  pipelineVersion := "v1"
  traceId := "t1"

@[irreducible] def firstParseText : List Char :=
  ("\x7b\"attempt\":1,\"document_id\":\"d1\",\"family\":\"pdf\",\"meta\":\x7b\x7d," ++
    "\"pipeline_version\":\"v1\",\"run_id\":\"r1\",\"stage\":\"parse\"," ++
    "\"tenant_id\":\"default\",\"trace_id\":\"t1\"\x7d").toList

def firstParsePlatform : Platform Empty where
  loads text :=
    if text = firstParseText then .ok firstParse.fields.json
    else .error (.decodeError "Expecting value: line 1 column 1 (char 0)")
  dumps _ := firstParseText
  str
    | .null => "None"
    | .bool b => if b then "True" else "False"
    | .int n => n.repr
    | .float x => x.elim
    | .str s => s
    | .list _ => "[]"
    | .dict _ _ => "\x7b\x7d"
  repr v := v.typeName
  isZero x := x.elim

theorem int_repr_ne_empty (n : ℤ) : n.repr ≠ "" := by
  cases n with
  | ofNat n => exact Nat.repr_ne_empty
  | negSucc n =>
    intro h
    have hlength := congrArg String.length h
    simp [Int.repr] at hlength

theorem firstParse_strLaws : StrLaws firstParsePlatform where
  str_str _ := rfl
  str_truthy v h := by
    cases v with
    | null => exact absurd h (by decide)
    | bool b => cases b <;> decide
    | int n => exact int_repr_ne_empty n
    | float x => exact x.elim
    | str s => exact of_decide_eq_true h
    | list items => exact (by decide : "[]" ≠ "")
    | dict keys item => exact (by decide : "\x7b\x7d" ≠ "")

theorem loads_firstParse : firstParsePlatform.loads firstParseText = .ok firstParse.fields.json :=
  if_pos rfl

theorem decodeUtf8_firstParse :
    decodeUtf8 (firstParse.toBytes firstParsePlatform) = some firstParseText :=
  TextSniffing.decodeUtf8_encode firstParseText

theorem carriesTraceId_firstParse :
    CarriesTraceId firstParsePlatform (firstParse.toBytes firstParsePlatform) :=
  ⟨firstParseText, firstParse.fields, .str "t1", decodeUtf8_firstParse, loads_firstParse, rfl, rfl⟩

theorem terminates_firstParse :
    Terminates firstParsePlatform (firstParse.toBytes firstParsePlatform) := by
  intro text typeName hdecode h
  rw [decodeUtf8_firstParse] at hdecode
  obtain rfl := Option.some.inj hdecode
  rw [loads_firstParse] at h
  cases h

theorem first_parse_survives :
    let read := fromBytes firstParsePlatform (fun _ => "") "" (firstParse.toBytes firstParsePlatform)
    read = .ok firstParse ∧ ((∃ m, read = .ok m) ∨
      ∃ reason, read = .error (.malformedMessageError reason)) := by
  obtain ⟨hwritten, hread, hraises⟩ :=
    stage_messages_survive_the_wire (fun _ => "") firstParse_strLaws
  have hfirst := hwritten firstParse "" (by decide) (by decide) loads_firstParse
  exact ⟨hread _ "" "" firstParse carriesTraceId_firstParse hfirst loads_firstParse,
    hraises _ "" terminates_firstParse⟩

end Ragent.Messages
