import Mathlib.Data.List.Find
import Ragent.Formats

set_option autoImplicit false

/-!
# Sniffing a prefix

`detect_stage` and `parse_flow_stage` hand `detect_format` the first mebibyte of an upload. Every
test but the one of ZIP containers reads less than that; a container is told by its members, which
are listed at its end.
-/
namespace Ragent.PrefixSniffing
open SpacedWords PyText Formats

def sniffBytes : ℕ := 1 <<< 20

/-- `detect_format(data[:_SNIFF_BYTES], name)` -/
def sniffFormat (py : Platform) (data : Bytes) (filename : String) :
    Except DetectError DetectedFormat :=
  detectFormat py (data.take sniffBytes) filename

variable {py : Platform} {data : Bytes} {filename : String}

theorem startsWith_take {sign : Bytes} {n : ℕ} (h : sign.length ≤ n) :
    startsWith (data.take n) sign = startsWith data sign := by
  unfold startsWith
  rw [Bool.eq_iff_iff, List.isPrefixOf_iff_prefix, List.isPrefixOf_iff_prefix]
  constructor
  · intro hp
    exact hp.trans (List.take_prefix n data)
  · intro hp
    rw [List.prefix_iff_eq_take.mp hp]
    exact List.take_prefix_take_left h

theorem slice_take {s e n : ℕ} (h : e ≤ n) : slice (data.take n) s e = slice data s e := by
  rw [slice, slice, List.take_take, Nat.min_eq_left h]

theorem magic_take {n : ℕ} (h : 8 ≤ n) : (magic.find? fun m => startsWith (data.take n) m.1) =
    magic.find? fun m => startsWith data m.1 := by
  have hshort : ∀ m ∈ magic, m.1.length ≤ 8 := by decide
  apply List.find?_congr
  intro m hm
  exact startsWith_take ((hshort m hm).trans h)

theorem looksLikeHtml_take {n : ℕ} (h : 1024 ≤ n) :
    looksLikeHtml (data.take n) = looksLikeHtml data := by
  unfold looksLikeHtml
  rw [List.take_take, Nat.min_eq_left h]

theorem looksLikeText_take {n : ℕ} (h : 8192 ≤ n) :
    looksLikeText (data.take n) = looksLikeText data := by
  unfold looksLikeText
  rw [List.take_take, Nat.min_eq_left h]

/-- The ZIP signature is no other's, so a container is classified by its members alone. -/
theorem detectFormat_zip (h : startsWith data zipSignature = true) :
    detectFormat py data filename =
      ofSniffed (sniffZip py.zip data (extensionOf py filename)) := by
  obtain ⟨rest, rfl⟩ := List.isPrefixOf_iff_prefix.mp h
  rfl

theorem detectFormat_take_of_not_zip {n : ℕ} (hn : 8192 ≤ n)
    (h : startsWith data zipSignature = false) :
    detectFormat py (data.take n) filename = detectFormat py data filename := by
  have hempty : data.take n = [] ↔ data = [] := by
    rw [List.take_eq_nil_iff]
    exact or_iff_right (by omega)
  have hshort : (bytes "RIFF").length = 4 ∧ zipSignature.length = 4 ∧ ole2.length = 8 := by decide
  obtain ⟨hriff, hzip, hole⟩ := hshort
  unfold detectFormat
  simp only [hempty, magic_take (show 8 ≤ n by omega), slice_take (show 12 ≤ n by omega),
    startsWith_take (show (bytes "RIFF").length ≤ n by omega),
    startsWith_take (show zipSignature.length ≤ n by omega),
    startsWith_take (show ole2.length ≤ n by omega), h, looksLikeHtml_take (show 1024 ≤ n by omega),
    looksLikeText_take hn, Bool.false_eq_true, if_false]

theorem ofSniffed_injective : Function.Injective ofSniffed := by
  intro a b h
  rcases a with e | (_ | fmt) <;> rcases b with e' | (_ | fmt') <;> simp_all [ofSniffed]

def statedType (content : Bytes) : String := String.ofList (strip (decodeAscii content))

/-- The archive states an OpenDocument type. -/
def Declares (archive : Archive) (fmt : DetectedFormat) : Prop :=
  "mimetype" ∈ archive.names ∧ ∃ content, archive.read "mimetype" = .ok content ∧
    odfMimetypes.lookup (statedType content) = some fmt

/-- If it states a type, then no OpenDocument type. -/
def Undeclared (archive : Archive) : Prop :=
  "mimetype" ∈ archive.names → ∃ content, archive.read "mimetype" = .ok content ∧
    odfMimetypes.lookup (statedType content) = none

def HasMember (archive : Archive) (folder : String) : Prop :=
  ∃ name ∈ archive.names, folder.toList <+: name.toList

def NoFolders (archive : Archive) : Prop :=
  ¬ HasMember archive "word/" ∧ ¬ HasMember archive "xl/" ∧ ¬ HasMember archive "ppt/"

/-- The signs by which an archive is a document. -/
inductive Shows (archive : Archive) (extension : String) : DetectedFormat → Prop
  | declared {fmt : DetectedFormat} (h : Declares archive fmt) : Shows archive extension fmt
  | document (hstated : Undeclared archive) (h : HasMember archive "word/") :
      Shows archive extension docx
  | workbook (hstated : Undeclared archive) (hword : ¬ HasMember archive "word/")
      (h : HasMember archive "xl/") : Shows archive extension xlsx
  | deck (hstated : Undeclared archive) (hword : ¬ HasMember archive "word/")
      (hsheet : ¬ HasMember archive "xl/") (h : HasMember archive "ppt/") :
      Shows archive extension pptx
  | named {fmt : DetectedFormat} (hstated : Undeclared archive) (hfolders : NoFolders archive)
      (h : byExtension.lookup extension = some fmt) : Shows archive extension fmt

section
variable (zip : ZipModule) (data : Bytes) (extension : String)

def OpensAs (fmt : DetectedFormat) : Prop :=
  ∃ archive, zip.openZip data = .ok archive ∧ Shows archive extension fmt

/-- `zipfile` makes no archive of it, or one without a sign. -/
inductive NoDocument : Prop
  | unreadable {e : ZipError} (hopen : zip.openZip data = .error e) (hcaught : e.caught = true)
  | unreadableMember {archive : Archive} {e : ZipError} (hopen : zip.openZip data = .ok archive)
      (hmember : "mimetype" ∈ archive.names) (hread : archive.read "mimetype" = .error e)
      (hcaught : e.caught = true)
  | unknown {archive : Archive} (hopen : zip.openZip data = .ok archive)
      (hstated : Undeclared archive) (hfolders : NoFolders archive)
      (hextension : byExtension.lookup extension = none)

/-- `zipfile` raises what is not caught. -/
inductive Raises (e : ZipError) : Prop
  | opening (hopen : zip.openZip data = .error e) (hcaught : e.caught = false)
  | reading {archive : Archive} (hopen : zip.openZip data = .ok archive)
      (hmember : "mimetype" ∈ archive.names) (hread : archive.read "mimetype" = .error e)
      (hcaught : e.caught = false)

inductive SameSigns (data' : Bytes) : Prop
  | nothing (h : NoDocument zip data extension) (h' : NoDocument zip data' extension)
  | document {fmt : DetectedFormat} (h : OpensAs zip data extension fmt)
      (h' : OpensAs zip data' extension fmt)
  | error {e : ZipError} (h : Raises zip data e) (h' : Raises zip data' e)

end

section
variable {zip : ZipModule} {extension : String} {archive : Archive} {fmt : DetectedFormat}
  {e : ZipError}

theorem any_prefix_iff {folder : String} :
    (archive.names.any fun name => folder.toList.isPrefixOf name.toList) = true ↔
      HasMember archive folder := by
  simp only [List.any_eq_true, List.isPrefixOf_iff_prefix, HasMember]

theorem classify_of_undeclared (h : Undeclared archive) :
    classify archive = .ok ((zipEntryMarkers.find? fun m =>
      archive.names.any fun name => m.1.toList.isPrefixOf name.toList).map (·.2)) := by
  unfold classify
  by_cases hmember : "mimetype" ∈ archive.names
  · obtain ⟨content, hread, hlookup⟩ := h hmember
    unfold statedType at hlookup
    rw [if_pos hmember, hread]
    simp only [Except.map, bind, Except.bind, Option.bind, hlookup]
    rfl
  · rw [if_neg hmember]
    rfl

theorem classify_of_declares (h : Declares archive fmt) : classify archive = .ok (some fmt) := by
  obtain ⟨hmember, content, hread, hlookup⟩ := h
  unfold classify
  unfold statedType at hlookup
  rw [if_pos hmember, hread]
  simp only [Except.map, bind, Except.bind, Option.bind, hlookup]
  rfl

theorem classify_of_unreadable (hmember : "mimetype" ∈ archive.names)
    (hread : archive.read "mimetype" = .error e) : classify archive = .error e := by
  unfold classify
  rw [if_pos hmember, hread]
  rfl

theorem sniffZip_of_open (hopen : zip.openZip data = .ok archive) :
    sniffZip zip data extension = match classify archive with
      | .ok (some fmt) => .ok (some fmt)
      | .ok none => .ok (byExtension.lookup extension)
      | .error e => if e.caught then .ok none else .error e := by
  rw [sniffZip, hopen]
  rfl

theorem sniffZip_of_error (hopen : zip.openZip data = .error e) :
    sniffZip zip data extension = if e.caught then .ok none else .error e := by
  rw [sniffZip, hopen]
  rfl

theorem marker_eq {word sheet slides : Bool}
    (hword : (archive.names.any fun name => "word/".toList.isPrefixOf name.toList) = word)
    (hsheet : (archive.names.any fun name => "xl/".toList.isPrefixOf name.toList) = sheet)
    (hslides : (archive.names.any fun name => "ppt/".toList.isPrefixOf name.toList) = slides) :
    ((zipEntryMarkers.find? fun m =>
      archive.names.any fun name => m.1.toList.isPrefixOf name.toList).map (·.2)) =
      if word then some docx
      else if sheet then some xlsx
      else if slides then some pptx
      else none := by
  simp only [zipEntryMarkers, List.find?_cons, List.find?_nil, hword, hsheet, hslides]
  cases word <;> cases sheet <;> cases slides <;> rfl

theorem any_prefix_eq_false {folder : String} (h : ¬ HasMember archive folder) :
    (archive.names.any fun name => folder.toList.isPrefixOf name.toList) = false := by
  rw [← Bool.not_eq_true, any_prefix_iff]
  exact h

theorem sniffZip_of_opensAs (h : OpensAs zip data extension fmt) :
    sniffZip zip data extension = .ok (some fmt) := by
  obtain ⟨archive, hopen, hshows⟩ := h
  rw [sniffZip_of_open hopen]
  cases hshows with
  | declared h => rw [classify_of_declares h]
  | document hstated h =>
    rw [classify_of_undeclared hstated, marker_eq (any_prefix_iff.mpr h) rfl rfl]
    rfl
  | workbook hstated hword h =>
    rw [classify_of_undeclared hstated,
      marker_eq (any_prefix_eq_false hword) (any_prefix_iff.mpr h) rfl]
    rfl
  | deck hstated hword hsheet h =>
    rw [classify_of_undeclared hstated, marker_eq (any_prefix_eq_false hword)
      (any_prefix_eq_false hsheet) (any_prefix_iff.mpr h)]
    rfl
  | named hstated hfolders h =>
    rw [classify_of_undeclared hstated, marker_eq (any_prefix_eq_false hfolders.1)
      (any_prefix_eq_false hfolders.2.1) (any_prefix_eq_false hfolders.2.2)]
    exact congrArg Except.ok h

theorem sniffZip_of_noDocument (h : NoDocument zip data extension) :
    sniffZip zip data extension = .ok none := by
  cases h with
  | unreadable hopen hcaught => rw [sniffZip_of_error hopen, if_pos hcaught]
  | unreadableMember hopen hmember hread hcaught =>
    rw [sniffZip_of_open hopen, classify_of_unreadable hmember hread]
    exact if_pos hcaught
  | unknown hopen hstated hfolders hextension =>
    rw [sniffZip_of_open hopen, classify_of_undeclared hstated,
      marker_eq (any_prefix_eq_false hfolders.1) (any_prefix_eq_false hfolders.2.1)
        (any_prefix_eq_false hfolders.2.2)]
    exact congrArg Except.ok hextension

theorem sniffZip_of_raises (h : Raises zip data e) : sniffZip zip data extension = .error e := by
  cases h with
  | opening hopen hcaught => rw [sniffZip_of_error hopen, if_neg (by simp [hcaught])]
  | reading hopen hmember hread hcaught =>
    rw [sniffZip_of_open hopen, classify_of_unreadable hmember hread]
    exact if_neg (by simp [hcaught])

/-- An archive cut short of its end record is none. -/
theorem noDocument_of_cut (h : ¬ HasEndRecord data) : NoDocument zip data extension :=
  .unreadable (zip.needsEndRecord data h) rfl

theorem signs_cases (zip : ZipModule) (data : Bytes) (extension : String) :
    NoDocument zip data extension ∨ (∃ fmt, OpensAs zip data extension fmt) ∨
      ∃ e, Raises zip data e := by
  cases hopen : zip.openZip data with
  | error e =>
    cases hcaught : e.caught with
    | true => exact .inl (.unreadable hopen hcaught)
    | false => exact .inr (.inr ⟨e, .opening hopen hcaught⟩)
  | ok archive =>
    have hshown : Undeclared archive →
        NoDocument zip data extension ∨ ∃ fmt, OpensAs zip data extension fmt := by
      intro hstated
      by_cases hword : HasMember archive "word/"
      · exact .inr ⟨docx, archive, hopen, .document hstated hword⟩
      by_cases hsheet : HasMember archive "xl/"
      · exact .inr ⟨xlsx, archive, hopen, .workbook hstated hword hsheet⟩
      by_cases hslides : HasMember archive "ppt/"
      · exact .inr ⟨pptx, archive, hopen, .deck hstated hword hsheet hslides⟩
      have hfolders : NoFolders archive := ⟨hword, hsheet, hslides⟩
      cases hextension : byExtension.lookup extension with
      | none => exact .inl (.unknown hopen hstated hfolders hextension)
      | some fmt => exact .inr ⟨fmt, archive, hopen, .named hstated hfolders hextension⟩
    by_cases hmember : "mimetype" ∈ archive.names
    · cases hread : archive.read "mimetype" with
      | error e =>
        cases hcaught : e.caught with
        | true => exact .inl (.unreadableMember hopen hmember hread hcaught)
        | false => exact .inr (.inr ⟨e, .reading hopen hmember hread hcaught⟩)
      | ok content =>
        cases hlookup : odfMimetypes.lookup (statedType content) with
        | some fmt =>
          exact .inr (.inl ⟨fmt, archive, hopen, .declared ⟨hmember, content, hread, hlookup⟩⟩)
        | none => exact (hshown fun _ => ⟨content, hread, hlookup⟩).imp_right .inl
    · exact (hshown fun h => absurd h hmember).imp_right .inl

theorem sniffZip_cases (zip : ZipModule) (data : Bytes) (extension : String) :
    (sniffZip zip data extension = .ok none ∧ NoDocument zip data extension) ∨
      (∃ fmt, sniffZip zip data extension = .ok (some fmt) ∧ OpensAs zip data extension fmt) ∨
      ∃ e, sniffZip zip data extension = .error e ∧ Raises zip data e := by
  obtain h | ⟨fmt, h⟩ | ⟨e, h⟩ := signs_cases zip data extension
  · exact .inl ⟨sniffZip_of_noDocument h, h⟩
  · exact .inr (.inl ⟨fmt, sniffZip_of_opensAs h, h⟩)
  · exact .inr (.inr ⟨e, sniffZip_of_raises h, h⟩)

theorem noDocument_iff :
    sniffZip zip data extension = .ok none ↔ NoDocument zip data extension := by
  refine ⟨fun heq => ?_, sniffZip_of_noDocument⟩
  obtain ⟨-, h⟩ | ⟨fmt, hok, -⟩ | ⟨e, herror, -⟩ := sniffZip_cases zip data extension
  · exact h
  · cases hok.symm.trans heq
  · cases herror.symm.trans heq

theorem opensAs_iff :
    sniffZip zip data extension = .ok (some fmt) ↔ OpensAs zip data extension fmt := by
  refine ⟨fun heq => ?_, sniffZip_of_opensAs⟩
  obtain ⟨hnone, -⟩ | ⟨fmt', hok, h⟩ | ⟨e, herror, -⟩ := sniffZip_cases zip data extension
  · cases hnone.symm.trans heq
  · cases hok.symm.trans heq
    exact h
  · cases herror.symm.trans heq

theorem raises_iff : sniffZip zip data extension = .error e ↔ Raises zip data e := by
  refine ⟨fun heq => ?_, sniffZip_of_raises⟩
  obtain ⟨hnone, -⟩ | ⟨fmt', hok, -⟩ | ⟨e', herror, h⟩ := sniffZip_cases zip data extension
  · cases hnone.symm.trans heq
  · cases hok.symm.trans heq
  · cases herror.symm.trans heq
    exact h

theorem sniffZip_eq_iff {data' : Bytes} :
    sniffZip zip data extension = sniffZip zip data' extension ↔
      SameSigns zip data extension data' := by
  constructor
  · intro heq
    obtain ⟨hnone, h⟩ | ⟨fmt, hok, h⟩ | ⟨e, herror, h⟩ := sniffZip_cases zip data extension
    · exact .nothing h (noDocument_iff.mp (heq.symm.trans hnone))
    · exact .document h (opensAs_iff.mp (heq.symm.trans hok))
    · exact .error h (raises_iff.mp (heq.symm.trans herror))
  · intro h
    cases h with
    | nothing h h' => rw [sniffZip_of_noDocument h, sniffZip_of_noDocument h']
    | document h h' => rw [sniffZip_of_opensAs h, sniffZip_of_opensAs h']
    | error h h' => rw [sniffZip_of_raises h, sniffZip_of_raises h']

end

/-- A prefix is detected as the whole is but for a ZIP container beyond the cut. Where the prefix
    has no end record the container must be no document, and where one happens to stand there the
    two archives must show the same. -/
theorem prefix_detected_iff (py : Platform) (data : Bytes) (filename : String) :
    sniffFormat py data filename = detectFormat py data filename ↔
      data.length ≤ sniffBytes ∨ startsWith data zipSignature = false ∨
        (¬ HasEndRecord (data.take sniffBytes) ∧
          NoDocument py.zip data (extensionOf py filename)) ∨
        (HasEndRecord (data.take sniffBytes) ∧
          SameSigns py.zip (data.take sniffBytes) (extensionOf py filename) data) := by
  have hbytes : 8192 ≤ sniffBytes := by decide
  unfold sniffFormat
  by_cases hlen : data.length ≤ sniffBytes
  · simp [hlen, List.take_of_length_le hlen]
  by_cases hzip : startsWith data zipSignature = true
  · have hcut : startsWith (data.take sniffBytes) zipSignature = true := by
      rwa [startsWith_take (show zipSignature.length ≤ sniffBytes by decide)]
    rw [detectFormat_zip hzip, detectFormat_zip hcut, ofSniffed_injective.eq_iff]
    simp only [hlen, hzip, Bool.true_eq_false, false_or]
    by_cases hend : HasEndRecord (data.take sniffBytes)
    · simpa only [hend, not_true, false_and, true_and, false_or] using sniffZip_eq_iff
    · simp only [hend, not_false_iff, true_and, false_and, or_false]
      rw [sniffZip_of_noDocument (noDocument_of_cut hend), eq_comm]
      exact noDocument_iff
  · have hother : startsWith data zipSignature = false := by simpa using hzip
    simp only [hother, true_or, or_true, iff_true]
    exact detectFormat_take_of_not_zip hbytes hother

def documentHeader : Bytes :=
  [80, 75, 3, 4, 20, 0, 0, 0, 0, 0, 0, 0, 33, 0, 28, 234, 56, 167, 0, 0, 16, 0, 0, 0, 16, 0, 17, 0,
    0, 0, 119, 111, 114, 100, 47, 100, 111, 99, 117, 109, 101, 110, 116, 46, 120, 109, 108]

def centralDirectory : Bytes :=
  [80, 75, 1, 2, 20, 0, 20, 0, 0, 0, 0, 0, 0, 0, 33, 0, 28, 234, 56, 167, 0, 0, 16, 0, 0, 0, 16, 0,
    17, 0, 0, 0, 0, 0, 0, 0, 0, 0, 0, 0, 128, 1, 0, 0, 0, 0, 119, 111, 114, 100, 47, 100, 111, 99,
    117, 109, 101, 110, 116, 46, 120, 109, 108]

def endRecord : Bytes :=
  [80, 75, 5, 6, 0, 0, 0, 0, 1, 0, 1, 0, 63, 0, 0, 0, 47, 0, 16, 0, 0, 0]

/-- A ZIP archive whose only member is a stored `word/document.xml`. -/
def stored (content : Bytes) : Bytes := documentHeader ++ content ++ centralDirectory ++ endRecord

/-- A mebibyte, the size and the checksum the records of the archive give. -/
@[irreducible] def zeros : Bytes := List.replicate sniffBytes 0

def oneMemberArchive : Archive where
  names := ["word/document.xml"]
  read := fun name =>
    if name = "word/document.xml" then .ok zeros else .error .keyError

/-- Reads every archive with an end record as that one. -/
@[irreducible] def openOneMember (data : Bytes) : Except ZipError Archive :=
  if HasEndRecord data then .ok oneMemberArchive else .error .badZipFile

theorem openOneMember_of_end (h : HasEndRecord data) :
    openOneMember data = .ok oneMemberArchive := by
  unfold openOneMember
  rw [if_pos h]

theorem openOneMember_of_no_end (h : ¬ HasEndRecord data) :
    openOneMember data = .error .badZipFile := by
  unfold openOneMember
  rw [if_neg h]

def oneMember : Platform where
  zip := ⟨openOneMember, fun _ => openOneMember_of_no_end⟩
  lower := String.map Char.toLower
  repr := fun s => "'" ++ s ++ "'"

section
variable {content : Bytes}

theorem stored_length : (stored content).length = content.length + 132 := by
  have h1 : documentHeader.length = 47 := rfl
  have h2 : centralDirectory.length = 63 := rfl
  have h3 : endRecord.length = 22 := rfl
  rw [stored, List.length_append, List.length_append, List.length_append]
  omega

theorem stored_startsWith : startsWith (stored content) zipSignature = true := by
  have hheader : zipSignature <+: documentHeader := by decide
  rw [startsWith, List.isPrefixOf_iff_prefix, stored, List.append_assoc, List.append_assoc]
  exact hheader.trans (List.prefix_append _ _)

theorem stored_hasEndRecord : HasEndRecord (stored content) := by
  have hsign : endSignature <+: endRecord := by decide
  have hend : endRecord <:+ stored content := List.suffix_append _ _
  apply hsign.isInfix.trans
  refine (List.suffix_of_suffix_length_le hend (List.drop_suffix _ _) ?_).isInfix
  have h3 : endRecord.length = 22 := rfl
  rw [List.length_drop, stored_length]
  omega

theorem stored_cut (hlen : content.length = sniffBytes) (hzero : ∀ b ∈ content, b = 0) :
    ¬ HasEndRecord ((stored content).take sniffBytes) := by
  intro hend
  have hheader : documentHeader.length = 47 := rfl
  have hcut : ((stored content).take sniffBytes).length = sniffBytes := by
    rw [List.length_take, stored_length, hlen]
    rfl
  rw [HasEndRecord, hcut] at hend
  obtain ⟨p, hs, he, hp⟩ := mem_slice.mp (hend.subset (show (80 : UInt8) ∈ endSignature by decide))
  have hstart : 47 ≤ sniffBytes - (1 <<< 16 + 22) := by decide
  rw [stored, List.append_assoc, List.append_assoc, List.getElem?_append_right (by omega),
    List.getElem?_append_left (by omega)] at hp
  exact absurd (hzero _ (List.mem_of_getElem? hp)) (by decide)

end

theorem zeros_length : zeros.length = sniffBytes := by
  unfold zeros
  exact List.length_replicate

theorem eq_zero_of_mem_zeros : ∀ b ∈ zeros, b = 0 := by
  unfold zeros
  exact fun b hb => (List.mem_replicate.mp hb).2

/-- The whole is a Word document, its first mebibyte an unrecognised archive. -/
theorem large_document_is_refused :
    sniffFormat oneMember (stored zeros) "report.docx" ≠
      detectFormat oneMember (stored zeros) "report.docx" := by
  have hcut : startsWith ((stored zeros).take sniffBytes) zipSignature = true := by
    rw [startsWith_take (show zipSignature.length ≤ sniffBytes by decide), stored_startsWith]
  have hsniffed : sniffZip oneMember.zip (stored zeros) (extensionOf oneMember "report.docx") =
      .ok (some docx) := by
    have hopens : oneMember.zip.openZip (stored zeros) = .ok oneMemberArchive :=
      openOneMember_of_end stored_hasEndRecord
    rw [sniffZip, hopens]
    rfl
  have haccepted : detectFormat oneMember (stored zeros) "report.docx" = .ok docx :=
    (detectFormat_zip stored_startsWith).trans (congrArg ofSniffed hsniffed)
  have hrefused : sniffFormat oneMember (stored zeros) "report.docx" = ofSniffed (.ok none) :=
    (detectFormat_zip hcut).trans
      (congrArg ofSniffed (sniffZip_of_noDocument
        (noDocument_of_cut (stored_cut zeros_length eq_zero_of_mem_zeros))))
  intro h
  rw [haccepted, hrefused] at h
  cases h

end Ragent.PrefixSniffing
