import Ragent.Answers

set_option autoImplicit false

/-!
# Citation markers

`build_prompt` prints a number in front of each passage, and `_MARKER_RE` reads at most two digits
back.
-/
namespace Ragent.CitationMarkers
open PyText FlattenedDocument FlowText PyNumbers PyJson HybridSearch Answers

def numeralValue (digits : List Char) : ℕ := digits.foldl (fun n d => 10 * n + digitValue d) 0

def Bracketed (marker : ℕ) (text : List Char) : Prop :=
  ∃ digits, digits ≠ [] ∧ (∀ d ∈ digits, isDecimal d = true) ∧ numeralValue digits = marker ∧
    '[' :: digits ++ [']'] <:+: text

/-- What `build_prompt` writes in front of a passage. -/
def printed (marker : ℕ) : List Char := ("[" ++ toString marker ++ "]").toList

theorem printed_eq (marker : ℕ) : printed marker = '[' :: Nat.toDigits 10 marker ++ [']'] := by
  simp [printed, Nat.toString_eq_repr, Nat.toList_repr]

theorem printed_prefix_promptBlock {F : Type} (i : ℕ) (p : Passage F) :
    printed i <+: promptBlock i p := by
  have hspace : "] ".toList = "]".toList ++ " ".toList := rfl
  unfold printed promptBlock
  simp only [String.toList_append, hspace, List.append_assoc, List.prefix_append_right_inj]
  exact List.prefix_append _ _

theorem digit_facts {c : Char} (h : c.isDigit = true) :
    isDecimal c = true ∧ digitValue c = c.toNat - '0'.toNat := by
  have hrange : 48 ≤ c.toNat ∧ c.toNat < 48 + 10 := by
    simp only [Char.isDigit, Bool.and_eq_true, decide_eq_true_eq, ge_iff_le, UInt32.le_iff_toNat_le]
      at h
    change 48 ≤ c.val.toNat ∧ c.val.toNat < 58
    exact ⟨h.1, Nat.lt_succ_of_le h.2⟩
  have hfirst : (decide (48 ≤ c.toNat) && decide (c.toNat < 48 + 10)) = true := by
    simpa using hrange
  constructor
  · unfold isDecimal decimalZeros
    rw [List.any_cons, hfirst, Bool.true_or]
  · unfold digitValue decimalZeros
    rw [List.find?_cons, hfirst]
    rfl

theorem numeralValue_toDigits (n : ℕ) : numeralValue (Nat.toDigits 10 n) = n := by
  have hvalue : ∀ (digits : List Char) (init : ℕ), (∀ d ∈ digits, d.isDigit = true) →
      digits.foldl (fun n d => 10 * n + digitValue d) init = Nat.ofDigitChars 10 digits init := by
    intro digits
    induction digits with
    | nil => exact fun _ _ => rfl
    | cons d digits ih =>
      intro init h
      rw [List.foldl_cons, Nat.ofDigitChars_cons, (digit_facts (h d List.mem_cons_self)).2]
      exact ih _ fun e he => h e (List.mem_cons_of_mem d he)
  unfold numeralValue
  rw [hvalue _ _ fun d hd => Nat.isDigit_of_mem_toDigits (by decide) (by decide) hd]
  exact Nat.ofDigitChars_ten_toDigits

def ShortNumeral (marker : ℕ) (digits : List Char) : Prop :=
  (digits ≠ [] ∧ digits.length ≤ 2) ∧ (∀ d ∈ digits, isDecimal d = true) ∧
    numeralValue digits = marker

theorem shortNumeral_cases {marker : ℕ} {digits : List Char} (h : ShortNumeral marker digits) :
    (∃ d, digits = [d] ∧ isDecimal d = true ∧ marker = digitValue d) ∨
      ∃ d e, digits = [d, e] ∧ isDecimal d = true ∧ isDecimal e = true ∧
        marker = 10 * digitValue d + digitValue e := by
  rcases h with ⟨⟨hne, hlength⟩, hdecimal, rfl⟩
  match digits, hne, hlength, hdecimal with
  | [d], _, _, hdecimal =>
    exact Or.inl ⟨d, rfl, hdecimal d (by simp), by simp [numeralValue]⟩
  | [d, e], _, _, hdecimal =>
    exact Or.inr ⟨d, e, rfl, hdecimal d (by simp), hdecimal e (by simp), by simp [numeralValue]⟩

theorem ne_bracket_of_isDecimal {c : Char} (h : isDecimal c = true) : c ≠ ']' := by
  intro heq
  rw [heq] at h
  exact absurd h (by decide)

theorem markerAt_eq_some_iff {text : List Char} {marker : ℕ} :
    markerAt text = some marker ↔
      ∃ digits, ShortNumeral marker digits ∧ '[' :: digits ++ [']'] <+: text := by
  constructor
  · intro h
    unfold markerAt at h
    split at h
    · next d rest =>
      rw [Option.ite_none_right_eq_some] at h
      refine ⟨[d], ⟨by simp, by simpa using h.1, ?_⟩, ⟨rest, rfl⟩⟩
      simpa [numeralValue] using h.2
    · next d e rest _ =>
      rw [Option.ite_none_right_eq_some, Bool.and_eq_true] at h
      refine ⟨[d, e], ⟨by simp, by simpa using h.1, ?_⟩, ⟨rest, rfl⟩⟩
      simpa [numeralValue] using h.2
    · cases h
  · intro h
    rcases h with ⟨digits, hdigits, rest, rfl⟩
    rcases shortNumeral_cases hdigits with ⟨d, rfl, hd, rfl⟩ | ⟨d, e, rfl, hd, he, rfl⟩
    · simp [markerAt, hd]
    · unfold markerAt
      split
      · next heq =>
        simp only [List.cons_append, List.nil_append, List.cons.injEq, true_and] at heq
        exact absurd heq.2.1 (ne_bracket_of_isDecimal he)
      · next heq =>
        simp only [List.cons_append, List.nil_append, List.cons.injEq, true_and] at heq
        rcases heq with ⟨rfl, rfl, -⟩
        simp [hd, he]
      · next hother =>
        exact absurd rfl (hother d e rest)

theorem mem_markers {text : List Char} {marker : ℕ} : marker ∈ markers text ↔
    ∃ digits, ShortNumeral marker digits ∧ '[' :: digits ++ [']'] <:+: text := by
  induction text with
  | nil => simp [markers]
  | cons c text ih =>
    rw [markers, List.mem_append, Option.mem_toList, markerAt_eq_some_iff, ih]
    simp only [List.infix_cons_iff]
    constructor
    · intro h
      rcases h with ⟨digits, hdigits, hat⟩ | ⟨digits, hdigits, hat⟩
      · exact ⟨digits, hdigits, Or.inl hat⟩
      · exact ⟨digits, hdigits, Or.inr hat⟩
    · intro h
      rcases h with ⟨digits, hdigits, hat | hat⟩
      · exact Or.inl ⟨digits, hdigits, hat⟩
      · exact Or.inr ⟨digits, hdigits, hat⟩

theorem digitValue_lt (c : Char) : digitValue c < 10 := by
  unfold digitValue
  split
  · next z hz =>
    have hrange := List.find?_some hz
    simp only [Bool.and_eq_true, decide_eq_true_eq] at hrange
    omega
  · decide

theorem lt_hundred_of_mem {text : List Char} {marker : ℕ} (h : marker ∈ markers text) :
    marker < 100 := by
  rcases mem_markers.mp h with ⟨digits, hdigits, -⟩
  rcases shortNumeral_cases hdigits with ⟨d, -, -, rfl⟩ | ⟨d, e, -, -, -, rfl⟩
  · have hd := digitValue_lt d
    omega
  · have hd := digitValue_lt d
    have he := digitValue_lt e
    omega

theorem bracketed_of_mem {text : List Char} {marker : ℕ} (h : marker ∈ markers text) :
    Bracketed marker text := by
  rcases mem_markers.mp h with ⟨digits, ⟨hlength, hdecimal, hvalue⟩, hat⟩
  exact ⟨digits, hlength.1, hdecimal, hvalue, hat⟩

theorem mem_markers_of_printed {text : List Char} {marker : ℕ} (hlt : marker < 100)
    (h : printed marker <:+: text) : marker ∈ markers text := by
  rw [printed_eq] at h
  apply mem_markers.mpr
  refine ⟨Nat.toDigits 10 marker, ⟨⟨Nat.toDigits_ne_nil, ?_⟩, ?_, numeralValue_toDigits marker⟩, h⟩
  · exact (Nat.length_toDigits_le_iff (by decide) (by decide)).mpr hlt
  · exact fun d hd => (digit_facts (Nat.isDigit_of_mem_toDigits (by decide) (by decide) hd)).1

section
variable {F : Type} {text : List Char} {passages : List (Passage F)}

theorem citedMarkers_nodup : (citedMarkers text passages).Nodup := by
  have hfold : ∀ ms seen : List ℕ, seen.Nodup → (ms.foldl (fun seen marker =>
      if marker < 1 ∨ passages.length < marker ∨ marker ∈ seen then seen else seen ++ [marker])
      seen).Nodup := by
    intro ms
    induction ms with
    | nil => exact fun _ h => h
    | cons m ms ih =>
      intro seen h
      rw [List.foldl_cons]
      apply ih
      split
      · exact h
      · next hnew =>
        rw [not_or, not_or] at hnew
        rw [List.nodup_append]
        refine ⟨h, List.nodup_singleton m, ?_⟩
        intro x hx y hy heq
        rw [List.mem_singleton.mp hy] at heq
        exact hnew.2.2 (heq ▸ hx)
  exact hfold (markers text) [] List.nodup_nil

/-- `sorted(seen)` -/
def resolved (text : List Char) (passages : List (Passage F)) : List ℕ :=
  (citedMarkers text passages).insertionSort (· ≤ ·)

theorem mem_resolved {marker : ℕ} : marker ∈ resolved text passages ↔
    marker ∈ markers text ∧ 1 ≤ marker ∧ marker ≤ passages.length := by
  unfold resolved
  rw [List.mem_insertionSort, mem_citedMarkers]

theorem resolved_increasing : (resolved text passages).Pairwise (· < ·) := by
  have hsorted : (resolved text passages).Pairwise (· ≤ ·) := List.pairwise_insertionSort _ _
  have hnodup : (resolved text passages).Nodup :=
    (List.perm_insertionSort _ _).nodup_iff.mpr citedMarkers_nodup
  exact (hsorted.and hnodup).imp fun h => lt_of_le_of_ne h.1 h.2

variable [PyFloat F] (round6 : F → F)

def EntryOf (passages : List (Passage F)) (marker : ℕ) (entry : Dict F) : Prop :=
  ∃ p, passages[marker - 1]? = some p ∧ entry = citation round6 marker p

theorem resolveCitations_entries :
    List.Forall₂ (EntryOf round6 passages) (resolved text passages)
      (resolveCitations round6 text passages) := by
  have hin : ∀ marker ∈ resolved text passages, ∃ p, passages[marker - 1]? = some p := by
    intro marker hmarker
    have hrange := (mem_resolved.mp hmarker).2
    exact ⟨_, List.getElem?_eq_getElem (by omega)⟩
  change List.Forall₂ _ _ ((resolved text passages).filterMap fun marker =>
    passages[marker - 1]?.map (citation round6 marker))
  generalize resolved text passages = ms at hin
  induction ms with
  | nil => exact List.Forall₂.nil
  | cons m ms ih =>
    rcases hin m List.mem_cons_self with ⟨p, hp⟩
    rw [List.filterMap_cons_some (by rw [hp]; rfl)]
    exact List.Forall₂.cons ⟨p, hp, rfl⟩ (ih fun n hn => hin n (List.mem_cons_of_mem m hn))

theorem marker_of_citation {marker marker' : ℕ} {p p' : Passage F}
    (h : citation round6 marker p = citation round6 marker' p') : marker = marker' := by
  have hget := congrArg (fun d => d.get "marker") h
  simp only [citation, Dict.get_ofFields, List.lookup_cons_self] at hget
  simpa using hget

/-- Entries strictly increasing in their marker, each with the passage of that number; the text has
    every such number in brackets, and no number that the prompt printed is missed. -/
def MarkersResolve (text : List Char) (passages : List (Passage F)) : Prop :=
  ∃ ms : List ℕ, ms.Pairwise (· < ·) ∧
    List.Forall₂ (EntryOf round6 passages) ms (resolveCitations round6 text passages) ∧
    (∀ marker ∈ ms, 1 ≤ marker ∧ marker ≤ passages.length ∧ Bracketed marker text) ∧
    ∀ marker, 1 ≤ marker → marker ≤ passages.length → printed marker <:+: text → marker ∈ ms

theorem exists_entry {ms : List ℕ} {entries : List (Dict F)} {marker : ℕ}
    (h : List.Forall₂ (EntryOf round6 passages) ms entries) (hmem : marker ∈ ms) :
    ∃ p, citation round6 marker p ∈ entries := by
  induction h with
  | nil => cases hmem
  | @cons m entry ms entries hentry _ ih =>
    cases List.mem_cons.mp hmem with
    | inl heq =>
      subst heq
      rcases hentry with ⟨p, -, rfl⟩
      exact ⟨p, List.mem_cons_self⟩
    | inr hmem =>
      rcases ih hmem with ⟨p, hp⟩
      exact ⟨p, List.mem_cons_of_mem entry hp⟩

/-- A number with three digits is never read back. -/
theorem not_markersResolve {marker : ℕ} (hlarge : 100 ≤ marker) (hle : marker ≤ passages.length)
    (hprinted : printed marker <:+: text) : ¬ MarkersResolve round6 text passages := by
  intro h
  rcases h with ⟨ms, -, hentries, -, hall⟩
  rcases exists_entry round6 hentries (hall marker (by omega) hle hprinted) with ⟨p, hp⟩
  rcases List.mem_filterMap.mp hp with ⟨marker', hmarker', hcitation⟩
  rcases Option.map_eq_some_iff.mp hcitation with ⟨p', -, heq⟩
  have hread := (mem_resolved.mp hmarker').1
  rw [marker_of_citation round6 heq] at hread
  exact absurd (lt_hundred_of_mem hread) (Nat.not_lt_of_le hlarge)

theorem markersResolve_of_small
    (hsmall : ∀ marker, 100 ≤ marker → marker ≤ passages.length → ¬ printed marker <:+: text) :
    MarkersResolve round6 text passages := by
  refine ⟨resolved text passages, resolved_increasing, resolveCitations_entries round6, ?_, ?_⟩
  · intro marker hmarker
    rcases mem_resolved.mp hmarker with ⟨hmem, hpos, hle⟩
    exact ⟨hpos, hle, bracketed_of_mem hmem⟩
  · intro marker hpos hle hprinted
    have hlt : marker < 100 := by
      by_contra hlarge
      exact hsmall marker (Nat.le_of_not_lt hlarge) hle hprinted
    exact mem_resolved.mpr ⟨mem_markers_of_printed hlt hprinted, hpos, hle⟩

/-- The markers resolve as the prompt numbered the passages, unless the text cites one from the
    hundredth on. -/
theorem markers_resolve_iff : MarkersResolve round6 text passages ↔
    ∀ marker, 100 ≤ marker → marker ≤ passages.length → ¬ printed marker <:+: text := by
  constructor
  · intro h marker hlarge hle hprinted
    exact not_markersResolve round6 hlarge hle hprinted h
  · exact markersResolve_of_small round6

theorem infix_join {sep part : List Char} {parts : List (List Char)} (h : part ∈ parts) :
    part <:+: join sep parts := by
  induction parts with
  | nil => cases h
  | cons first rest ih =>
    cases rest with
    | nil =>
      rw [List.mem_singleton.mp h]
      exact List.infix_refl _
    | cons second rest =>
      change part <:+: first ++ sep ++ join sep (second :: rest)
      cases List.mem_cons.mp h with
      | inl heq =>
        rw [heq, List.append_assoc]
        exact (List.prefix_append _ _).isInfix
      | inr hrest => exact (ih hrest).trans (List.suffix_append _ _).isInfix

omit [PyFloat F] in
theorem printed_infix_evidence (i : ℕ) (p : Passage F) :
    ∃ line ∈ evidence i p, printed i <:+: line := by
  refine ⟨_, List.mem_cons_self, "**".toList, (" " ++ p.documentName ++ "**").toList, ?_⟩
  have hopen : "**[".toList = "**".toList ++ "[".toList := rfl
  have hclose : "] ".toList = "]".toList ++ " ".toList := rfl
  unfold printed
  simp only [String.toList_append, hopen, hclose, List.append_assoc]

omit [PyFloat F] in
theorem printed_infix_extractiveAnswer {marker : ℕ} (hpos : 1 ≤ marker)
    (hle : marker ≤ passages.length) : printed marker <:+: extractiveAnswer passages := by
  have hne : passages ≠ [] := List.ne_nil_of_length_pos (by omega)
  have hlt : marker - 1 < passages.length := by omega
  rcases printed_infix_evidence marker passages[marker - 1] with ⟨line, hline, hprinted⟩
  unfold extractiveAnswer
  rw [if_neg hne]
  apply hprinted.trans
  apply infix_join
  apply List.mem_cons_of_mem
  apply List.mem_cons_of_mem
  apply List.mem_flatMap.mpr
  refine ⟨(passages[marker - 1], marker - 1), ?_, ?_⟩
  · rw [List.mem_zipIdx_iff_getElem?]
    exact List.getElem?_eq_getElem hlt
  · rw [Nat.sub_add_cancel hpos]
    exact hline

/-- The evidence cites every passage, and all are resolved if there are fewer than a hundred. -/
theorem evidence_resolves_iff :
    MarkersResolve round6 (extractiveAnswer passages) passages ↔ passages.length < 100 := by
  constructor
  · intro h
    by_contra hlarge
    have hle := Nat.le_of_not_lt hlarge
    exact not_markersResolve round6 (le_refl 100) hle
      (printed_infix_extractiveAnswer (by decide) hle) h
  · intro hlt
    apply markersResolve_of_small
    intro marker hlarge hle
    omega

end

def numberedPassage : Passage ℚ where
  chunkId := "c"
  text := []
  score := 0
  documentId := "d"
  documentName := "report"
  provenance := "flow"

theorem the_hundredth_passage_is_lost :
    ¬ MarkersResolve id "[100]".toList (List.replicate 100 numberedPassage) := by
  apply not_markersResolve id (le_refl 100)
  · rw [List.length_replicate]
  · exact List.infix_refl _

end Ragent.CitationMarkers
