import Ragent.PyText

set_option autoImplicit false

/-!
# Format detection

`ragent/ingest/formats.py`. `zipfile`, `str.lower` and `repr` are parameters.
-/
namespace Ragent.Formats
open SpacedWords PyText

abbrev Bytes := List UInt8

def bytes (s : String) : Bytes := s.toList.map fun c => UInt8.ofNat c.toNat

def startsWith (data sign : Bytes) : Bool := sign.isPrefixOf data

/-- `data.decode("utf-8")`, with `none` for a `UnicodeDecodeError`. -/
def decodeUtf8 (data : Bytes) : Option (List Char) :=
  (ByteArray.mk data.toArray).utf8Decode?.map Array.toList

/-- `data.decode("ascii", "ignore")` -/
def decodeAscii (data : Bytes) : List Char :=
  (data.filter (· < 128)).map fun b => Char.ofNat b.toNat

inductive ZipError
  | badZipFile
  | keyError
  | osError
  | other (name : String)
  deriving DecidableEq

/-- `except (zipfile.BadZipFile, KeyError, OSError)` -/
def ZipError.caught : ZipError → Bool
  | .other _ => false
  | _ => true

structure Archive where
  names : List String
  read : String → Except ZipError Bytes

def endSignature : Bytes := bytes "PK\x05\x06"

/-- The signature of an end-of-central-directory record stands where `zipfile` looks for it: behind
    it come at most the record itself and a comment of 64 KiB. -/
def HasEndRecord (data : Bytes) : Prop := endSignature <:+: data.drop (data.length - (1 <<< 16 + 22))

instance (data : Bytes) : Decidable (HasEndRecord data) :=
  inferInstanceAs (Decidable (_ <:+: _))

structure ZipModule where
  openZip : Bytes → Except ZipError Archive
  needsEndRecord : ∀ data, ¬ HasEndRecord data → openZip data = .error .badZipFile

inductive FormatFamily
  | pdf
  | image
  | office
  | web
  | flow
  deriving DecidableEq, Repr

inductive ProvenanceMode
  | paged
  | flow
  deriving DecidableEq, Repr

structure DetectedFormat where
  mime : String
  family : FormatFamily
  extension : String
  label : String
  deriving DecidableEq, Repr

namespace DetectedFormat

def provenance (f : DetectedFormat) : ProvenanceMode :=
  if f.family = .flow then .flow else .paged

def needsConversion (f : DetectedFormat) : Bool := f.family ∈ [FormatFamily.office, .web]

def alwaysOcr (f : DetectedFormat) : Bool := f.family = .image

end DetectedFormat

def pdf : DetectedFormat := ⟨"application/pdf", .pdf, "pdf", "PDF"⟩
def png : DetectedFormat := ⟨"image/png", .image, "png", "PNG image"⟩
def jpg : DetectedFormat := ⟨"image/jpeg", .image, "jpg", "JPEG image"⟩
def gif : DetectedFormat := ⟨"image/gif", .image, "gif", "GIF image"⟩
def tiff : DetectedFormat := ⟨"image/tiff", .image, "tiff", "TIFF image"⟩
def bmp : DetectedFormat := ⟨"image/bmp", .image, "bmp", "BMP image"⟩
def webp : DetectedFormat := ⟨"image/webp", .image, "webp", "WebP image"⟩
def rtf : DetectedFormat := ⟨"application/rtf", .office, "rtf", "Rich Text"⟩
def html : DetectedFormat := ⟨"text/html", .web, "html", "HTML page"⟩
def md : DetectedFormat := ⟨"text/markdown", .flow, "md", "Markdown"⟩
def txt : DetectedFormat := ⟨"text/plain", .flow, "txt", "Plain text"⟩

def docx : DetectedFormat :=
  ⟨"application/vnd.openxmlformats-officedocument.wordprocessingml.document", .office, "docx",
    "Word document"⟩

def xlsx : DetectedFormat :=
  ⟨"application/vnd.openxmlformats-officedocument.spreadsheetml.sheet", .office, "xlsx",
    "Excel workbook"⟩

def pptx : DetectedFormat :=
  ⟨"application/vnd.openxmlformats-officedocument.presentationml.presentation", .office, "pptx",
    "PowerPoint deck"⟩

/-- `_MAGIC`, in its order. -/
def magic : List (Bytes × DetectedFormat) :=
  [(bytes "%PDF-", pdf), (bytes "\x89PNG\r\n\x1a\n", png), (bytes "\xff\xd8\xff", jpg),
    (bytes "GIF87a", gif), (bytes "GIF89a", gif), (bytes "II*\x00", tiff), (bytes "MM\x00*", tiff),
    (bytes "BM", bmp), (bytes "\x7b\\rtf", rtf)]

def ole2 : Bytes := bytes "\xd0\xcf\x11\xe0\xa1\xb1\x1a\xe1"

def ole2ByExt : List (String × DetectedFormat) :=
  [("doc", ⟨"application/msword", .office, "doc", "Word 97-2003"⟩),
    ("xls", ⟨"application/vnd.ms-excel", .office, "xls", "Excel 97-2003"⟩),
    ("ppt", ⟨"application/vnd.ms-powerpoint", .office, "ppt", "PowerPoint 97-2003"⟩)]

def zipEntryMarkers : List (String × DetectedFormat) :=
  [("word/", docx), ("xl/", xlsx), ("ppt/", pptx)]

def odfMimetypes : List (String × DetectedFormat) :=
  [("application/vnd.oasis.opendocument.text",
      ⟨"application/vnd.oasis.opendocument.text", .office, "odt", "OpenDocument Text"⟩),
    ("application/vnd.oasis.opendocument.spreadsheet",
      ⟨"application/vnd.oasis.opendocument.spreadsheet", .office, "ods", "OpenDocument Sheet"⟩),
    ("application/vnd.oasis.opendocument.presentation",
      ⟨"application/vnd.oasis.opendocument.presentation", .office, "odp", "OpenDocument Slides"⟩)]

def byExtension : List (String × DetectedFormat) :=
  [("pdf", pdf), ("png", png), ("jpg", jpg), ("jpeg", jpg), ("tif", tiff), ("tiff", tiff),
    ("webp", webp), ("bmp", bmp), ("html", html), ("htm", html), ("md", md), ("markdown", md),
    ("txt", txt), ("text", txt), ("log", txt), ("csv", ⟨"text/csv", .flow, "csv", "CSV"⟩),
    ("tsv", ⟨"text/tab-separated-values", .flow, "tsv", "TSV"⟩),
    ("json", ⟨"application/json", .flow, "json", "JSON"⟩),
    ("xml", ⟨"application/xml", .flow, "xml", "XML"⟩)] ++ ole2ByExt ++
  [("docx", docx), ("xlsx", xlsx), ("pptx", pptx), ("rtf", rtf)]

structure Platform where
  zip : ZipModule
  /-- `str.lower` -/
  lower : String → String
  /-- `repr` of a string, as an f-string writes it for `!r`. -/
  repr : String → String

inductive DetectError
  | unsupportedFormat (text : String)
  /-- An error of `zipfile` that `_sniff_zip` does not catch. -/
  | uncaught (e : ZipError)
  deriving DecidableEq

def extensionOf (py : Platform) (filename : String) : String :=
  -- the last part of `rpartition`, which is the whole name if it has no dot
  let ext := (filename.toList.reverse.takeWhile (· ≠ '.')).reverse
  if ext ≠ [] ∧ ext ≠ filename.toList then py.lower (String.ofList ext) else ""

/-- The body of the `with` block of `_sniff_zip`. -/
def classify (archive : Archive) : Except ZipError (Option DetectedFormat) := do
  let declared ← if "mimetype" ∈ archive.names then
    (archive.read "mimetype").map fun data => some (String.ofList (strip (decodeAscii data)))
  else
    pure none
  match declared.bind fun d => odfMimetypes.lookup d with
  | some fmt => return some fmt
  | none =>
    return (zipEntryMarkers.find? fun m =>
      archive.names.any fun name => m.1.toList.isPrefixOf name.toList).map (·.2)

def sniffZip (zip : ZipModule) (data : Bytes) (extension : String) :
    Except ZipError (Option DetectedFormat) :=
  match zip.openZip data >>= classify with
  | .ok (some fmt) => .ok (some fmt)
  | .ok none => .ok (byExtension.lookup extension)
  | .error e => if e.caught then .ok none else .error e

/-- `bytes.lstrip` drops ASCII white space only. -/
def isAsciiSpace (b : UInt8) : Bool := b ∈ bytes " \t\n\r\x0b\x0c"

def lowerAscii (b : UInt8) : UInt8 := if 65 ≤ b ∧ b ≤ 90 then b + 32 else b

def looksLikeHtml (head : Bytes) : Bool :=
  let probe := ((head.take 1024).dropWhile isAsciiSpace).map lowerAscii
  [bytes "<!doctype html", bytes "<html", bytes "<?xml-stylesheet", bytes "<head"].any
    (startsWith probe)

def looksLikeText (data : Bytes) : Bool :=
  let sample := data.take 8192
  if 0 ∈ sample then false
  else match decodeUtf8 sample with
    | none => false
    | some decoded =>
      let control := decoded.countP fun c => c.toNat < 32 && c ∉ ['\t', '\n', '\r']
      -- the quotient of two integers this small is below the float 0.02 exactly if it is below 1/50
      50 * control < max decoded.length 1

def zipSignature : Bytes := bytes "PK\x03\x04"

/-- What `detect_format` makes of the answer of `_sniff_zip`. -/
def ofSniffed : Except ZipError (Option DetectedFormat) → Except DetectError DetectedFormat
  | .ok (some fmt) => .ok fmt
  | .ok none => .error (.unsupportedFormat "ZIP archive that is not a recognised document")
  | .error e => .error (.uncaught e)

def detectFormat (py : Platform) (data : Bytes) (filename : String) :
    Except DetectError DetectedFormat :=
  if data = [] then .error (.unsupportedFormat "empty file")
  else
    let extension := extensionOf py filename
    match magic.find? fun m => startsWith data m.1 with
    | some m => .ok m.2
    | none =>
      if startsWith data (bytes "RIFF") ∧ slice data 8 12 = bytes "WEBP" then .ok webp
      else if startsWith data zipSignature then ofSniffed (sniffZip py.zip data extension)
      else if startsWith data ole2 then
        match ole2ByExt.lookup extension with
        | some legacy => .ok legacy
        | none => .error (.unsupportedFormat
            ("legacy Microsoft container with an unrecognised extension " ++ py.repr extension ++
              "; expected one of ['doc', 'ppt', 'xls']"))
      else if looksLikeHtml data then .ok html
      else if looksLikeText data then
        match byExtension.lookup extension with
        | some fmt => .ok (if fmt.family = .flow then fmt else txt)
        | none => .ok txt
      else .error (.unsupportedFormat
        (if extension = "" then "unrecognised content"
        else "unrecognised content for ." ++ extension))

end Ragent.Formats
