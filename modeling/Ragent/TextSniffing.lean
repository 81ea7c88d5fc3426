import Ragent.PrefixSniffing
import Ragent.Utf8

set_option autoImplicit false

/-!
# Telling text by a sample

`_looks_like_text` decodes the first 8192 bytes. A character that straddles their end is no text,
and what lies behind them is not looked at, though `parse_flow_stage` decodes it too.
-/
namespace Ragent.TextSniffing
open SpacedWords PyText Formats PrefixSniffing

variable {py : Platform} {data : Bytes} {filename : String} {text : List Char}

theorem mk_toArray (data : Bytes) : ByteArray.mk data.toArray = data.toByteArray := by
  rw [← List.data_toByteArray]

theorem decodeUtf8_isSome_iff : (decodeUtf8 data).isSome ↔ Utf8.Valid data := by
  rw [decodeUtf8, Option.isSome_map, mk_toArray, ByteArray.isSome_utf8Decode?_iff]
  constructor
  · rintro ⟨text, htext⟩
    exact ⟨text, (List.toByteArray_inj.mp htext).symm⟩
  · rintro ⟨text, rfl⟩
    exact ByteArray.isValidUTF8_utf8Encode

theorem decodeUtf8_encode (text : List Char) : decodeUtf8 (Utf8.encode text) = some text := by
  rw [decodeUtf8, mk_toArray, Utf8.toByteArray_encode, List.utf8Decode?_utf8Encode]
  rfl

theorem decodeUtf8_eq_none (h : ¬ Utf8.Valid data) : decodeUtf8 data = none := by
  rwa [← Option.not_isSome_iff_eq_none, decodeUtf8_isSome_iff]

theorem encode_of_decodeUtf8 (h : decodeUtf8 data = some text) : Utf8.encode text = data := by
  obtain ⟨t, rfl⟩ := decodeUtf8_isSome_iff.mp (Option.isSome_of_mem h)
  rw [decodeUtf8_encode] at h
  rw [Option.some.inj h]

/-- No code points below U+0020 but tab, newline and carriage return. -/
def Clean (text : List Char) : Prop := ∀ c ∈ text, 32 ≤ c.toNat ∨ c ∈ ['\t', '\n', '\r']

instance (text : List Char) : Decidable (Clean text) :=
  List.decidableBAll (fun c : Char => 32 ≤ c.toNat ∨ c ∈ ['\t', '\n', '\r']) text

/-- Clean text passes exactly if no character straddles the end of the sample. -/
theorem looksLikeText_clean (hclean : Clean text) :
    looksLikeText (Utf8.encode text) = true ↔ Utf8.Valid ((Utf8.encode text).take 8192) := by
  have hzero : 0 ∉ (Utf8.encode text).take 8192 := by
    intro hmem
    refine Utf8.zero_notMem_encode (fun hnul => ?_) (List.mem_of_mem_take hmem)
    exact absurd (hclean _ hnul) (by decide)
  unfold looksLikeText
  simp only [if_neg hzero]
  constructor
  · intro h
    by_contra hinvalid
    rw [decodeUtf8_eq_none hinvalid] at h
    cases h
  · rintro ⟨sample, hsample⟩
    have hcontrol : sample.countP (fun c => c.toNat < 32 && c ∉ ['\t', '\n', '\r']) = 0 := by
      have hwhole : Utf8.Valid (Utf8.encode sample ++ (Utf8.encode text).drop 8192) := by
        rw [hsample, List.take_append_drop]
        exact ⟨text, rfl⟩
      obtain ⟨rest, hrest⟩ := Utf8.valid_encode_append.mp hwhole
      have htext : text = sample ++ rest := by
        apply Utf8.encode_injective
        rw [Utf8.encode_append, hsample, hrest, List.take_append_drop]
      rw [List.countP_eq_zero]
      intro c hc hbad
      have hgood := hclean c (htext ▸ List.mem_append_left rest hc)
      simp only [Bool.and_eq_true, decide_eq_true_eq] at hbad
      rcases hgood with hlarge | hspace
      · omega
      · exact hbad.2 hspace
    rw [← hsample, decodeUtf8_encode]
    simp only [hcontrol, decide_eq_true_eq]
    omega

theorem sample_valid (h : looksLikeText data = true) : Utf8.Valid (data.take 8192) := by
  by_contra hinvalid
  unfold looksLikeText at h
  simp only [decodeUtf8_eq_none hinvalid, ite_self] at h
  cases h

structure Unsigned (data : Bytes) : Prop where
  magic : ∀ m ∈ magic, startsWith data m.1 = false
  webp : ¬(startsWith data (bytes "RIFF") = true ∧ slice data 8 12 = bytes "WEBP")
  zip : startsWith data zipSignature = false
  ole2 : startsWith data ole2 = false
  html : looksLikeHtml data = false

def RoutedAsFlow : Except DetectError DetectedFormat → Prop
  | .ok fmt => fmt.family = .flow
  | .error _ => False

theorem routedAsFlow_unsigned (hne : data ≠ []) (h : Unsigned data) :
    RoutedAsFlow (detectFormat py data filename) ↔ looksLikeText data = true := by
  have hmagic : (magic.find? fun m => startsWith data m.1) = none := by
    rw [List.find?_eq_none]
    intro m hm
    simp [h.magic m hm]
  unfold detectFormat
  simp only [hne, hmagic, h.webp, h.zip, h.ole2, h.html, if_false, Bool.false_eq_true]
  cases htext : looksLikeText data with
  | false => simp [RoutedAsFlow]
  | true =>
    simp only [if_true, iff_true]
    split
    · split_ifs with hflow
      · exact hflow
      · rfl
    · rfl

/-- A clean text is routed as flow text exactly if the sample ends between two characters. -/
theorem clean_text_is_flow_iff (py : Platform) (filename : String)
    (hdecodes : decodeUtf8 data = some text) (hne : data ≠ []) (hclean : Clean text)
    (hunsigned : Unsigned data) :
    RoutedAsFlow (detectFormat py data filename) ↔
      ∀ b, data[8192]? = some b → b.IsUTF8FirstByte := by
  rw [routedAsFlow_unsigned hne hunsigned, ← encode_of_decodeUtf8 hdecodes,
    looksLikeText_clean hclean, Utf8.valid_take_iff]

def noArchives : Platform where
  zip := { openZip := fun _ => .error .badZipFile, needsEndRecord := fun _ _ => rfl }
  lower := String.toLower
  repr s := "'" ++ s ++ "'"

theorem unsigned_of_a (rest : Bytes) : Unsigned (97 :: rest) := by
  refine ⟨?_, fun h => absurd h.1 nofun, rfl, rfl, rfl⟩
  simp only [magic, List.forall_mem_cons]
  exact ⟨rfl, rfl, rfl, rfl, rfl, rfl, rfl, rfl, rfl, nofun⟩

theorem encode_as (n : ℕ) : Utf8.encode (List.replicate n 'a') = List.replicate n 97 := by
  induction n with
  | zero => rfl
  | succ n ih =>
    rw [List.replicate_succ, Utf8.encode_cons, ih]
    rfl

theorem clean_as (n : ℕ) : Clean (List.replicate n 'a') := by
  intro c hc
  rw [(List.mem_replicate.mp hc).2]
  decide

@[irreducible] def straddling : List Char := List.replicate 8191 'a' ++ ['é']

theorem encode_straddling : Utf8.encode straddling = List.replicate 8191 97 ++ [0xC3, 0xA9] := by
  rw [straddling, Utf8.encode_append, encode_as]
  rfl

theorem straddling_character_is_refused :
    ¬ ∀ (data : Bytes) (text : List Char) (filename : String), decodeUtf8 data = some text →
      data ≠ [] → Clean text → Unsigned data →
        RoutedAsFlow (detectFormat noArchives data filename) := by
  intro hall
  have hclean : Clean straddling := by
    intro c hc
    unfold straddling at hc
    rcases List.mem_append.mp hc with ha | he
    · exact clean_as 8191 c ha
    · rw [List.mem_singleton.mp he]
      decide
  have hunsigned : Unsigned (Utf8.encode straddling) := by
    rw [encode_straddling, List.replicate_succ]
    exact unsigned_of_a _
  have hne : Utf8.encode straddling ≠ [] := by
    rw [encode_straddling, List.replicate_succ]
    exact List.cons_ne_nil _ _
  have hflow := hall _ straddling "notes.txt" (decodeUtf8_encode straddling) hne hclean hunsigned
  rw [routedAsFlow_unsigned hne hunsigned, looksLikeText_clean hclean, Utf8.valid_take_iff,
    encode_straddling, List.getElem?_append_right (by rw [List.length_replicate]; omega),
    List.length_replicate] at hflow
  exact absurd (hflow 0xA9 rfl) (by decide)

theorem short_text_is_flow :
    RoutedAsFlow (detectFormat noArchives (bytes "a text") "notes.txt") := by
  have hcode : bytes "a text" = Utf8.encode "a text".toList := by decide
  have hdecodes : decodeUtf8 (bytes "a text") = some "a text".toList := by
    rw [hcode, decodeUtf8_encode]
  apply (clean_text_is_flow_iff noArchives "notes.txt" hdecodes (by decide) (by decide)
    (unsigned_of_a _)).mpr
  intro b hb
  have hshort : (bytes "a text").length ≤ 8192 := by simp [bytes]
  rw [List.getElem?_eq_none hshort] at hb
  cases hb

theorem magic_not_flow : ∀ m ∈ magic, m.2.family ≠ .flow := by decide

theorem ole2_not_flow : ∀ e ∈ ole2ByExt, e.2.family ≠ .flow := by decide

theorem looksLikeText_of_routed (hzip : startsWith data zipSignature = false)
    (h : RoutedAsFlow (detectFormat py data filename)) : looksLikeText data = true := by
  by_contra htext
  unfold detectFormat at h
  by_cases hempty : data = []
  · simp only [hempty, if_true] at h
    exact h
  simp only [hempty, hzip, htext, if_false, Bool.false_eq_true] at h
  split at h
  · rename_i m hm
    exact magic_not_flow m (List.mem_of_find?_eq_some hm) h
  split_ifs at h with hwebp hole hhtml
  · exact absurd (show webp.family = .flow from h) (by decide)
  · split at h
    · rename_i legacy hlegacy
      obtain ⟨before, after, heq, -⟩ := List.lookup_eq_some_iff.mp hlegacy
      exact ole2_not_flow (_, legacy) (heq ▸ List.mem_append_right _ List.mem_cons_self) h
    · exact h
  · exact absurd (show html.family = .flow from h) (by decide)
  all_goals exact h

/-- Content that is routed as flow text decodes exactly if the bytes behind the sample do; a ZIP
    container that only its extension routes is no sample at all. -/
theorem flow_content_decodes_iff (py : Platform) (data : Bytes) (filename : String) :
    (RoutedAsFlow (sniffFormat py data filename) → (decodeUtf8 data).isSome) ↔
      (RoutedAsFlow (sniffFormat py data filename) →
        if startsWith data zipSignature then (decodeUtf8 data).isSome
        else (decodeUtf8 (data.drop 8192)).isSome) := by
  apply forall_congr'
  intro hflow
  cases hzip : startsWith data zipSignature with
  | true => simp
  | false =>
    have htext : looksLikeText data = true := by
      unfold sniffFormat at hflow
      rw [detectFormat_take_of_not_zip (by decide) hzip] at hflow
      exact looksLikeText_of_routed hzip hflow
    obtain ⟨sample, hsample⟩ := sample_valid htext
    have hbehind : Utf8.Valid (Utf8.encode sample ++ data.drop 8192) ↔
        Utf8.Valid (data.drop 8192) := Utf8.valid_encode_append
    simp only [Bool.false_eq_true, if_false, decodeUtf8_isSome_iff]
    rwa [hsample, List.take_append_drop] at hbehind

@[irreducible] def strayByte : Bytes := List.replicate 8192 97 ++ [0xFF]

theorem stray_byte_is_not_decoded :
    ¬ ∀ (data : Bytes) (filename : String), RoutedAsFlow (sniffFormat noArchives data filename) →
      (decodeUtf8 data).isSome := by
  intro hall
  have hsample : strayByte.take 8192 = Utf8.encode (List.replicate 8192 'a') := by
    rw [strayByte, List.take_left' List.length_replicate, encode_as]
  have htext : looksLikeText strayByte = true := by
    rw [← looksLikeText_take (le_refl 8192), hsample, looksLikeText_clean (clean_as 8192), ← hsample,
      List.take_take, Nat.min_self, hsample]
    exact ⟨_, rfl⟩
  have hunsigned : Unsigned strayByte := by
    rw [strayByte, List.replicate_succ]
    exact unsigned_of_a _
  have hne : strayByte ≠ [] := by
    rw [strayByte, List.replicate_succ]
    exact List.cons_ne_nil _ _
  have hflow : RoutedAsFlow (sniffFormat noArchives strayByte "notes.txt") := by
    unfold sniffFormat
    rw [detectFormat_take_of_not_zip (by decide) hunsigned.zip]
    exact (routedAsFlow_unsigned hne hunsigned).mpr htext
  have hdecodes := hall strayByte "notes.txt" hflow
  rw [decodeUtf8_isSome_iff, strayByte, ← encode_as, Utf8.valid_encode_append] at hdecodes
  exact absurd (Utf8.first_byte_of_valid hdecodes) (by decide)

end Ragent.TextSniffing
