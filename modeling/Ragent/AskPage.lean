import Ragent.CitationMarkers
import Ragent.AnswerSurfaces
import Ragent.EventFrames

set_option autoImplicit false

/-!
# An answer on the page

`askStream` with the handlers of `Ask.tsx`, and `WithCitations`. Between `ask` and the page lie
`json.dumps`, the wire and `JSON.parse`.
-/
namespace Ragent.AskPage
open Formats PyNumbers PyJson HybridSearch Answers AnswerSurfaces CitationMarkers EventStream
  StreamCuts EventFrames

/-- `\[\d{1,2}\]` at the front of a text: its digits, and what follows. -/
def matchAt : List Char → Option (List Char × List Char)
  | '[' :: d :: ']' :: rest => if d.isDigit then some ([d], rest) else none
  | '[' :: d :: e :: ']' :: rest => if d.isDigit && e.isDigit then some ([d, e], rest) else none
  | _ => none

/-- `text.split(/(\[\d{1,2}\])/g)` -/
def splitMarkers : List Char → List (List Char)
  | [] => [[]]
  | '[' :: d :: ']' :: rest =>
    if d.isDigit then [] :: ['[', d, ']'] :: splitMarkers rest
    else onHead '[' (splitMarkers (d :: ']' :: rest))
  | '[' :: d :: e :: ']' :: rest =>
    if d.isDigit && e.isDigit then [] :: ['[', d, e, ']'] :: splitMarkers rest
    else onHead '[' (splitMarkers (d :: e :: ']' :: rest))
  | c :: text => onHead c (splitMarkers text)

/-- `/^\[(\d{1,2})\]$/.exec(part)` -/
def soleMarker (part : List Char) : Option (List Char) :=
  match matchAt part with
  | some (digits, []) => some digits
  | _ => none

section
variable {F : Type}

def isNumber (n : ℕ) : Option (Json F) → Bool
  | some (.int m) => m = n
  | _ => false

def hasMarker (n : ℕ) : Json F → Bool
  | .dict keys item => isNumber n (Dict.get ⟨keys, item⟩ "marker")
  | _ => false

/-- `byMarker.get`; a later entry replaces an earlier one. -/
def byMarker (citations : List (Json F)) (n : ℕ) : Option (Json F) :=
  citations.reverse.find? (hasMarker n)

inductive Shown (F : Type)
  | text (part : List Char)
  | chip (digits : List Char) (citation : Json F)

def showPart (citations : List (Json F)) (part : List Char) : Shown F :=
  match soleMarker part with
  | none => .text part
  | some digits => match byMarker citations (Nat.ofDigitChars 10 digits 0) with
    | none => .text part
    | some citation => .chip digits citation

def isNull : Json F → Bool
  | .null => true
  | _ => false

/-- What is no array has no `map`, and `null` no `marker`. -/
def withCitations (text : List Char) : Json F → Option (List (Shown F))
  | .list citations =>
    if citations.any isNull then none else some ((splitMarkers text).map (showPart citations))
  | _ => none

def Shown.source : Shown F → List Char
  | .text part => part
  | .chip digits _ => '[' :: digits ++ [']']

def Shown.chip? : Shown F → Option (List Char × Json F)
  | .text _ => none
  | .chip digits citation => some (digits, citation)

end

def asciiMarkers : List Char → List (List Char)
  | [] => []
  | c :: text => ((matchAt (c :: text)).map (·.1)).toList ++ asciiMarkers text

theorem matchAt_cases {text digits rest : List Char} (h : matchAt text = some (digits, rest)) :
    text = '[' :: digits ++ ']' :: rest ∧ (∀ d ∈ digits, d.isDigit = true) ∧
      digits ≠ [] ∧ digits.length ≤ 2 := by
  unfold matchAt at h
  split at h
  · next d rest' =>
    rw [Option.ite_none_right_eq_some, Option.some.injEq, Prod.mk.injEq] at h
    obtain ⟨hd, rfl, rfl⟩ := h
    exact ⟨rfl, by simpa using hd, by simp, by simp⟩
  · next d e rest' _ =>
    rw [Option.ite_none_right_eq_some, Option.some.injEq, Prod.mk.injEq, Bool.and_eq_true] at h
    obtain ⟨hd, rfl, rfl⟩ := h
    exact ⟨rfl, by simpa using hd, by simp, by simp⟩
  · cases h

theorem splitMarkers_match {text digits rest : List Char} (h : matchAt text = some (digits, rest)) :
    splitMarkers text = [] :: ('[' :: digits ++ [']']) :: splitMarkers rest := by
  unfold matchAt at h
  split at h
  · next d rest' =>
    rw [Option.ite_none_right_eq_some, Option.some.injEq, Prod.mk.injEq] at h
    obtain ⟨hd, rfl, rfl⟩ := h
    rw [splitMarkers, if_pos hd]
    rfl
  · next d e rest' hother =>
    rw [Option.ite_none_right_eq_some, Option.some.injEq, Prod.mk.injEq] at h
    obtain ⟨hd, rfl, rfl⟩ := h
    rw [splitMarkers, if_pos hd]
    · rfl
    · exact hother
  · cases h

theorem splitMarkers_cons {c : Char} {text : List Char} (h : matchAt (c :: text) = none) :
    splitMarkers (c :: text) = onHead c (splitMarkers text) := by
  unfold matchAt at h
  split at h
  · next d rest heq =>
    obtain ⟨rfl, rfl⟩ := List.cons.inj heq
    rw [splitMarkers, if_neg (by simpa using h)]
  · next d e rest hother heq =>
    obtain ⟨rfl, rfl⟩ := List.cons.inj heq
    rw [splitMarkers, if_neg (by simpa using h)]
    exact hother
  · next hone htwo =>
    apply splitMarkers.eq_4
    · intro d rest hc htext
      exact hone d rest (hc ▸ htext ▸ rfl)
    · intro d e rest hc htext
      exact htwo d e rest (hc ▸ htext ▸ rfl)

theorem flatten_onHead (c : Char) (pieces : List (List Char)) :
    (onHead c pieces).flatten = c :: pieces.flatten := by
  cases pieces <;> rfl

theorem flatten_splitMarkers (text : List Char) : (splitMarkers text).flatten = text := by
  fun_induction splitMarkers text with
  | case1 => rfl
  | case2 d rest _ ih => exact congrArg (fun text => '[' :: d :: ']' :: text) ih
  | case3 d rest _ ih => rw [flatten_onHead, ih]
  | case4 d e rest _ _ ih => exact congrArg (fun text => '[' :: d :: e :: ']' :: text) ih
  | case5 d e rest _ _ ih => rw [flatten_onHead, ih]
  | case6 c text _ _ ih => rw [flatten_onHead, ih]

theorem splitMarkers_ne_nil (text : List Char) : splitMarkers text ≠ [] := by
  fun_cases splitMarkers text with
  | case1 => exact List.cons_ne_nil _ _
  | case2 => exact List.cons_ne_nil _ _
  | case3 => exact onHead_ne_nil _ _
  | case4 => exact List.cons_ne_nil _ _
  | case5 => exact onHead_ne_nil _ _
  | case6 => exact onHead_ne_nil _ _

theorem matchAt_bracketed {digits : List Char} (h : ∀ d ∈ digits, d.isDigit = true)
    (hne : digits ≠ []) (hlength : digits.length ≤ 2) (rest : List Char) :
    matchAt ('[' :: digits ++ ']' :: rest) = some (digits, rest) := by
  match digits, hne, hlength, h with
  | [d], _, _, h => exact if_pos (h d List.mem_cons_self)
  | [d, e], _, _, h =>
    have hd := h d List.mem_cons_self
    have he := h e (List.mem_cons_of_mem d List.mem_cons_self)
    have hclose : e ≠ ']' := fun heq => absurd (heq ▸ he) (by decide)
    change matchAt ('[' :: d :: e :: ']' :: rest) = _
    rw [matchAt.eq_2 _ _ _ hclose, hd, he]
    rfl

theorem of_soleMarker {part digits : List Char} (h : soleMarker part = some digits) :
    part = '[' :: digits ++ [']'] ∧ ∀ rest, matchAt (part ++ rest) = some (digits, rest) := by
  unfold soleMarker at h
  split at h
  · next digits' hmatch =>
    obtain rfl := Option.some.inj h
    obtain ⟨hpart, hdigits, hne, hlength⟩ := matchAt_cases hmatch
    refine ⟨hpart, fun rest => ?_⟩
    rw [hpart, List.append_assoc]
    exact matchAt_bracketed hdigits hne hlength rest
  · cases h

theorem soleMarker_head {text head : List Char} {pieces : List (List Char)}
    (h : splitMarkers text = head :: pieces) : soleMarker head = none := by
  have htext : head ++ pieces.flatten = text := by
    rw [← flatten_splitMarkers text, h, List.flatten_cons]
  cases hsole : soleMarker head with
  | none => rfl
  | some digits =>
    have hmatch := (of_soleMarker hsole).2 pieces.flatten
    rw [htext] at hmatch
    rw [splitMarkers_match hmatch] at h
    obtain ⟨rfl, -⟩ := List.cons.inj h
    cases hsole

theorem asciiMarkers_skip {c : Char} {text : List Char} (h : matchAt (c :: text) = none) :
    asciiMarkers (c :: text) = asciiMarkers text := by
  rw [asciiMarkers, h]
  rfl

theorem asciiMarkers_digits {digits : List Char} (h : ∀ d ∈ digits, d.isDigit = true)
    (rest : List Char) : asciiMarkers (digits ++ ']' :: rest) = asciiMarkers rest := by
  have hother : ∀ {c : Char} {text : List Char}, c ≠ '[' → matchAt (c :: text) = none := by
    intro c text hc
    apply matchAt.eq_3
    · intro d rest heq
      exact hc (List.cons.inj heq).1
    · intro d e rest heq
      exact hc (List.cons.inj heq).1
  induction digits with
  | nil => exact asciiMarkers_skip (hother (by decide))
  | cons d digits ih =>
    have hd : d ≠ '[' := fun heq => absurd (heq ▸ h d List.mem_cons_self) (by decide)
    rw [List.cons_append, asciiMarkers_skip (hother hd)]
    exact ih fun e he => h e (List.mem_cons_of_mem d he)

theorem asciiMarkers_match {text digits rest : List Char} (h : matchAt text = some (digits, rest)) :
    asciiMarkers text = digits :: asciiMarkers rest := by
  obtain ⟨rfl, hdigits, -, -⟩ := matchAt_cases h
  change ((matchAt ('[' :: digits ++ ']' :: rest)).map (·.1)).toList ++
    asciiMarkers (digits ++ ']' :: rest) = _
  rw [h, asciiMarkers_digits hdigits]
  rfl

theorem filterMap_soleMarker (text : List Char) :
    (splitMarkers text).filterMap soleMarker = asciiMarkers text := by
  induction hn : text.length using Nat.strong_induction_on generalizing text with
  | _ n ih =>
    subst hn
    cases hmatch : matchAt text with
    | some found =>
      obtain ⟨digits, rest⟩ := found
      obtain ⟨htext, hdigits, hne, hlength⟩ := matchAt_cases hmatch
      have hshort : rest.length < text.length := by
        rw [htext]
        simp only [List.cons_append, List.length_cons, List.length_append]
        omega
      have hsole : soleMarker ('[' :: digits ++ [']']) = some digits := by
        rw [soleMarker, matchAt_bracketed hdigits hne hlength]
      rw [splitMarkers_match hmatch, List.filterMap_cons_none rfl, List.filterMap_cons_some hsole,
        ih _ hshort rest rfl, asciiMarkers_match hmatch]
    | none =>
      cases text with
      | nil => rfl
      | cons c text =>
        have hsplit := splitMarkers_cons hmatch
        cases hpieces : splitMarkers text with
        | nil => exact absurd hpieces (splitMarkers_ne_nil text)
        | cons head pieces =>
          rw [hpieces] at hsplit
          have hrest := ih _ (Nat.lt_succ_self _) text rfl
          rw [hpieces, List.filterMap_cons_none (soleMarker_head hpieces)] at hrest
          rw [hsplit, asciiMarkers_skip hmatch, ← hrest]
          exact List.filterMap_cons_none (soleMarker_head hsplit)

section
variable {F : Type}

theorem source_showPart (citations : List (Json F)) (part : List Char) :
    (showPart citations part).source = part := by
  unfold showPart
  split
  · rfl
  · next digits hsole =>
    split
    · rfl
    · exact (of_soleMarker hsole).1.symm

theorem chip_showPart (citations : List (Json F)) (part : List Char) :
    (showPart citations part).chip? = (soleMarker part).bind fun digits =>
      (byMarker citations (Nat.ofDigitChars 10 digits 0)).map fun c => (digits, c) := by
  unfold showPart
  cases soleMarker part with
  | none => rfl
  | some digits =>
    cases hfound : byMarker citations (Nat.ofDigitChars 10 digits 0) with
    | none => simp [hfound, Shown.chip?]
    | some c => simp [hfound, Shown.chip?]

theorem source_shown (citations : List (Json F)) (text : List Char) :
    ((splitMarkers text).map (showPart citations)).flatMap Shown.source = text := by
  have hsource : (fun part => (showPart citations part).source) = id := by
    funext part
    exact source_showPart citations part
  rw [List.flatMap_map, hsource, List.flatMap_id, flatten_splitMarkers]

theorem chips_shown (citations : List (Json F)) (text : List Char) :
    ((splitMarkers text).map (showPart citations)).filterMap Shown.chip? =
      (asciiMarkers text).filterMap fun digits =>
        (byMarker citations (Nat.ofDigitChars 10 digits 0)).map fun c => (digits, c) := by
  have hchip : Shown.chip? ∘ showPart citations = fun part => (soleMarker part).bind fun digits =>
      (byMarker citations (Nat.ofDigitChars 10 digits 0)).map fun c => (digits, c) := by
    funext part
    exact chip_showPart citations part
  rw [List.filterMap_map, hchip, ← filterMap_soleMarker, List.filterMap_filterMap]

theorem numeralValue_digits {digits : List Char} (h : ∀ d ∈ digits, d.isDigit = true) :
    numeralValue digits = Nat.ofDigitChars 10 digits 0 := by
  have hvalue : ∀ init, digits.foldl (fun n d => 10 * n + digitValue d) init =
      Nat.ofDigitChars 10 digits init := by
    induction digits with
    | nil => exact fun _ => rfl
    | cons d digits ih =>
      intro init
      rw [List.foldl_cons, Nat.ofDigitChars_cons, (digit_facts (h d List.mem_cons_self)).2]
      exact ih (fun e he => h e (List.mem_cons_of_mem d he)) _
  exact hvalue 0

/-- The server reads what the page reads. -/
theorem mem_markers_of_ascii {text digits : List Char} (h : digits ∈ asciiMarkers text) :
    Nat.ofDigitChars 10 digits 0 ∈ markers text := by
  induction text with
  | nil => cases h
  | cons c text ih =>
    cases List.mem_append.mp h with
    | inr hrest => exact List.mem_append_right _ (ih hrest)
    | inl hhere =>
      obtain ⟨found, hmatch, rfl⟩ := Option.map_eq_some_iff.mp (Option.mem_toList.mp hhere)
      obtain ⟨htext, hdigits, hne, hlength⟩ := matchAt_cases hmatch
      rw [← numeralValue_digits hdigits]
      apply mem_markers.mpr
      refine ⟨found.1, ⟨⟨hne, hlength⟩, fun d hd => (digit_facts (hdigits d hd)).1, rfl⟩, ?_⟩
      apply List.IsPrefix.isInfix
      exact ⟨found.2, by rw [htext, List.append_assoc]; rfl⟩

variable [PyFloat F] (round6 : F → F)

def opened (passages : List (Passage F)) (digits : List Char) : Option (List Char × Json F) :=
  let n := Nat.ofDigitChars 10 digits 0
  if n = 0 then none else passages[n - 1]?.map fun p => (digits, (citation round6 n p).json)

theorem hasMarker_citation (n marker : ℕ) (p : Passage F) :
    hasMarker n (citation round6 marker p).json = decide (marker = n) := by
  have hget : (citation round6 marker p).get "marker" = some (.int marker) := by
    rw [citation, Dict.get_ofFields, List.lookup_cons_self]
  change isNumber n ((citation round6 marker p).get "marker") = _
  rw [hget]
  simp [isNumber]

theorem byMarker_resolveCitations {text : List Char} {passages : List (Passage F)} {n : ℕ}
    (h : n ∈ markers text) :
    byMarker ((resolveCitations round6 text passages).map Dict.json) n =
      if n = 0 then none else passages[n - 1]?.map fun p => (citation round6 n p).json := by
  have hentry : ∀ c, c ∈ (resolveCitations round6 text passages).map Dict.json →
      hasMarker n c = true →
        n ≠ 0 ∧ ∃ p, passages[n - 1]? = some p ∧ c = (citation round6 n p).json := by
    intro c hc hmarker
    obtain ⟨entry, hentry, rfl⟩ := List.mem_map.mp hc
    obtain ⟨marker, hresolved, hfound⟩ := List.mem_filterMap.mp hentry
    obtain ⟨p, hp, rfl⟩ := Option.map_eq_some_iff.mp hfound
    rw [hasMarker_citation, decide_eq_true_eq] at hmarker
    subst hmarker
    have hpos := (mem_resolved.mp hresolved).2.1
    exact ⟨by omega, p, hp, rfl⟩
  unfold byMarker
  cases hfind : ((resolveCitations round6 text passages).map Dict.json).reverse.find?
      (hasMarker n) with
  | some c =>
    obtain ⟨hne, p, hp, rfl⟩ := hentry c (List.mem_reverse.mp (List.mem_of_find?_eq_some hfind))
      (List.find?_some hfind)
    rw [if_neg hne, hp]
    rfl
  | none =>
    by_cases hzero : n = 0
    · rw [if_pos hzero]
    · rw [if_neg hzero]
      cases hp : passages[n - 1]? with
      | none => rfl
      | some p =>
        have hlt := (List.getElem?_eq_some_iff.mp hp).1
        have hresolved : n ∈ resolved text passages := mem_resolved.mpr ⟨h, by omega, by omega⟩
        have hmem : (citation round6 n p).json ∈
            ((resolveCitations round6 text passages).map Dict.json).reverse := by
          rw [List.mem_reverse]
          apply List.mem_map_of_mem
          exact List.mem_filterMap.mpr ⟨n, hresolved, by rw [hp]; rfl⟩
        have hnone := List.find?_eq_none.mp hfind _ hmem
        rw [hasMarker_citation] at hnone
        simp at hnone

theorem chips_resolved (text : List Char) (passages : List (Passage F)) :
    ((splitMarkers text).map (showPart ((resolveCitations round6 text passages).map
        Dict.json))).filterMap Shown.chip? =
      (asciiMarkers text).filterMap (opened round6 passages) := by
  rw [chips_shown]
  apply List.filterMap_congr
  intro digits hdigits
  rw [byMarker_resolveCitations round6 (mem_markers_of_ascii hdigits), opened]
  by_cases hzero : Nat.ofDigitChars 10 digits 0 = 0
  · simp only [hzero, if_true, Option.map_none]
  · simp only [hzero, if_false, Option.map_map]
    rfl

theorem withCitations_resolved (text : List Char) (passages : List (Passage F)) :
    withCitations text (.list ((resolveCitations round6 text passages).map Dict.json)) =
      some ((splitMarkers text).map (showPart ((resolveCitations round6 text passages).map
        Dict.json))) := by
  apply if_neg
  rw [List.any_map]
  simp [Function.comp_def, Dict.json, isNull]

end

section
variable {F : Type} [PyFloat F] (round6 : F → F) (pricing : List (String × F × F))
  (provider : Option Provider) (question : List Char) (passages : List (Passage F))

/-- `handlers[event]` -/
def calledFor (event : List Char) : Bool :=
  ["passages", "delta", "citations", "usage", "done"].contains (String.ofList event)

omit [PyFloat F] in
def update (turn : Turn F) (call : List Char × Json F) : Turn F :=
  handle turn { event := String.ofList call.1, data := call.2 }

def page (decoder : TextDecoder) (parse : List Char → Option (Json F)) (reads : List Bytes) :
    Turn F :=
  (streamEvents calledFor parse decoder decoder.start [] reads).foldl update {}

/-- An event's name, and a text in one line that `JSON.parse` takes for its data. -/
structure Carries (parse : List Char → Option (Json F)) (payload : List Char × List Char)
    (e : AskEvent F) : Prop where
  named : payload.1 = e.event.toList
  plain : Plain payload.2
  parsed : parse payload.2 = some e.data

theorem turn_of_ask :
    (ask round6 passages (answerStream round6 pricing provider question passages)).foldl handle {} =
      { answer := (answerDeltas provider question passages).flatten
        passages := .list (passages.map fun p => (Dict.ofFields (passageFields round6 p)).json)
        citations := orElse (.list ((AnswerSurfaces.resolved round6 provider question passages).map
          Dict.json)) Dict.empty.json
        usage := match answerUsage provider question passages with
          | some u => (usageDict round6 pricing u).json
          | none => .null
        done := true } := by
  rw [answerStream_eq, ask, List.foldl_cons, List.append_assoc, List.map_append, List.foldl_append,
    foldl_handle_deltas]
  cases answerUsage provider question passages with
  | none => rfl
  | some u => rfl

omit [PyFloat F] in
theorem exists_related {α β : Type} {R : α → β → Prop} {as : List α} {bs : List β} {a : α}
    (h : List.Forall₂ R as bs) (ha : a ∈ as) : ∃ b ∈ bs, R a b := by
  induction h with
  | nil => cases ha
  | @cons _ b _ bs hfirst _ ih =>
    cases List.mem_cons.mp ha with
    | inl heq => exact ⟨b, List.mem_cons_self, heq ▸ hfirst⟩
    | inr hrest =>
      obtain ⟨b', hb', hrelated⟩ := ih hrest
      exact ⟨b', List.mem_cons_of_mem b hb', hrelated⟩

theorem plain_event {e : AskEvent F}
    (h : e ∈ ask round6 passages (answerStream round6 pricing provider question passages)) :
    Plain e.event.toList ∧ calledFor e.event.toList = true := by
  have hnames : ∀ name ∈ ["passages", "delta", "citations", "usage", "done"],
      OneLine name.toList ∧ SpacedWords.trim isJsSpace name.toList = name.toList ∧
        calledFor name.toList = true := by decide
  have hname : e.event ∈ ["passages", "delta", "citations", "usage", "done"] := by
    cases List.mem_cons.mp h with
    | inl heq =>
      rw [heq]
      exact List.mem_cons_self
    | inr hchunk =>
      obtain ⟨chunk, -, rfl⟩ := List.mem_map.mp hchunk
      change eventName chunk.type ∈ _
      cases chunk.type <;> decide
  obtain ⟨hline, htrim, hcalled⟩ := hnames _ hname
  exact ⟨⟨hline, htrim⟩, hcalled⟩

section
variable {parse : List Char → Option (Json F)} {sent : List Sent}
  (hsent : List.Forall₂ (Carries parse) (sent.filterMap Sent.payload?)
    (ask round6 passages (answerStream round6 pricing provider question passages)))
include hsent

theorem clean_of_ask (hcomments : ∀ text, Sent.comment text ∈ sent → OneLine text) :
    ∀ s ∈ sent, s.Clean := by
  intro s hs
  cases s with
  | comment text => exact hcomments text hs
  | event name data =>
    have hmem : (name, data) ∈ sent.filterMap Sent.payload? := List.mem_filterMap.mpr ⟨_, hs, rfl⟩
    obtain ⟨e, he, hcarries⟩ := exists_related hsent hmem
    obtain rfl : name = e.event.toList := hcarries.named
    exact ⟨(plain_event round6 pricing provider question passages he).1, hcarries.plain⟩

theorem calls_of_ask :
    (sent.filterMap Sent.payload?).filterMap (dispatch calledFor parse) =
      (ask round6 passages (answerStream round6 pricing provider question passages)).map
        fun e => (e.event.toList, e.data) := by
  have hevents := fun e => (plain_event round6 pricing provider question passages (e := e))
  generalize sent.filterMap Sent.payload? = payloads at hsent ⊢
  generalize ask round6 passages (answerStream round6 pricing provider question passages) = events
    at hsent hevents ⊢
  induction hsent with
  | nil => rfl
  | @cons payload e payloads events hcarries _ ih =>
    have hcalled := (hevents e List.mem_cons_self).2
    have hdispatch : dispatch calledFor parse payload = some (e.event.toList, e.data) := by
      unfold dispatch
      rw [hcarries.named, if_pos hcalled, hcarries.parsed]
      rfl
    rw [List.filterMap_cons_some hdispatch, ih fun e he => hevents e (List.mem_cons_of_mem _ he)]
    rfl

/-- The page ends with the turn that the handlers make of the events themselves. -/
theorem page_eq {decoder : TextDecoder} {reads : List Bytes} {ending : LineEnding}
    (hcomments : ∀ text, Sent.comment text ∈ sent → OneLine text)
    (hreads : (decoder.decodeAll decoder.start reads).flatten = written ending sent)
    (hwhole : ∀ l ∈ linesRead decoder reads, "event: ".toList <+: l.1 → l.2 = false) :
    page decoder parse reads = (ask round6 passages
      (answerStream round6 pricing provider question passages)).foldl handle {} := by
  have hclean := clean_of_ask round6 pricing provider question passages hsent hcomments
  have hupdate : ∀ (turn : Turn F) (e : AskEvent F),
      update turn (e.event.toList, e.data) = handle turn e := by
    intro turn e
    unfold update
    rw [String.ofList_toList]
  unfold page
  rw [calls_of_written hclean hreads, arrivals_of_whole (linesRead_written hclean hreads) hwhole,
    calls_of_ask round6 pricing provider question passages hsent, List.foldl_map]
  simp only [hupdate]

/-- Whatever pieces the response arrives in, as long as no line that names an event is cut off: the
    page ends with the answer, its usage and its evidence. It fails to show them if nothing was
    cited. Else it shows the text unchanged, but for a chip in place of each marker in ASCII digits
    that numbers a passage; the chip opens the citation of that passage. -/
theorem page_shows_the_answer {decoder : TextDecoder} {reads : List Bytes} {ending : LineEnding}
    (hcomments : ∀ text, Sent.comment text ∈ sent → OneLine text)
    (hreads : (decoder.decodeAll decoder.start reads).flatten = written ending sent)
    (hwhole : ∀ l ∈ linesRead decoder reads, "event: ".toList <+: l.1 → l.2 = false) :
    let turn := page decoder parse reads
    let answer := (answerDeltas provider question passages).flatten
    (turn.answer = answer ∧ turn.done = true ∧
      turn.passages = .list (passages.map fun p => (Dict.ofFields (passageFields round6 p)).json) ∧
      ∀ u, answerUsage provider question passages = some u →
        turn.usage = (usageDict round6 pricing u).json) ∧
    (withCitations turn.answer turn.citations = none ↔
      ∀ marker ∈ markers answer, ¬ (1 ≤ marker ∧ marker ≤ passages.length)) ∧
    ∀ shown, withCitations turn.answer turn.citations = some shown →
      shown.flatMap Shown.source = answer ∧
        shown.filterMap Shown.chip? = (asciiMarkers answer).filterMap (opened round6 passages) := by
  intro turn answer
  have hturn : turn = _ := (page_eq round6 pricing provider question passages hsent hcomments hreads
    hwhole).trans (turn_of_ask round6 pricing provider question passages)
  have hresolved : resolveCitations round6 answer passages ≠ [] ↔ _ :=
    resolveCitations_ne_nil_iff round6
  rw [hturn]
  refine ⟨⟨rfl, rfl, rfl, fun u hu => ?_⟩, ?_⟩
  · simp only [hu]
  change (withCitations answer (orElse (.list ((resolveCitations round6 answer passages).map
      Dict.json)) Dict.empty.json) = none ↔ _) ∧
    ∀ shown, withCitations answer (orElse (.list ((resolveCitations round6 answer passages).map
      Dict.json)) Dict.empty.json) = some shown → _
  by_cases hnone : resolveCitations round6 answer passages = []
  · have hall : ∀ marker ∈ markers answer, ¬ (1 ≤ marker ∧ marker ≤ passages.length) := by
      intro marker hmarker hrange
      exact hresolved.mpr ⟨marker, hmarker, hrange⟩ hnone
    rw [hnone]
    refine ⟨iff_of_true rfl hall, fun shown hshown => ?_⟩
    cases hshown
  · have hlist : orElse (.list ((resolveCitations round6 answer passages).map Dict.json))
        Dict.empty.json = .list ((resolveCitations round6 answer passages).map Dict.json) := by
      rw [orElse_dict_iff, ne_eq, List.map_eq_nil_iff]
      exact hnone
    rw [hlist, withCitations_resolved]
    obtain ⟨marker, hmarker, hrange⟩ := hresolved.mp hnone
    refine ⟨iff_of_false (Option.some_ne_none _) fun hall => hall marker hmarker hrange,
      fun shown hshown => ?_⟩
    obtain rfl := Option.some.inj hshown
    exact ⟨source_shown _ _, chips_resolved round6 answer passages⟩

end
end

def objectText (fields : List (String × String)) : List Char :=
  '{' :: joined ", " (fields.map fun f => '"' :: f.1.toList ++ "\": ".toList ++ f.2.toList) ++ ['}']

def numberedFields : List (String × String) :=
  [("chunk_id", "\"c\""), ("text", "\"\""), ("score", "0.0"), ("document_id", "\"d\""),
    ("document_name", "\"report\""), ("provenance", "\"flow\""), ("section_path", "[]"),
    ("regions", "[]"), ("char_start", "null"), ("char_end", "null"),
    ("retrievers", "\x7b\x7d")]

def passagesText : List Char := '[' :: objectText numberedFields ++ [']']

def deltaText : List Char := objectText [("text", "\"See [1].\"")]

def citationsText : List Char := '[' :: objectText (("marker", "1") :: numberedFields) ++ [']']

def doneText : List Char := objectText []

def sentForOne : List Sent :=
  [.event "passages".toList passagesText, .comment "ping".toList, .event "delta".toList deltaText,
    .event "citations".toList citationsText, .event "done".toList doneText]

def citesOne : Provider := fun _ => [("See [1].".toList, none)]

def parseOne (text : List Char) : Option (Json ℚ) :=
  (((sentForOne.filterMap Sent.payload?).map (·.2)).zip
    ((ask id [numberedPassage] (answerStream id [] (some citesOne) [] [numberedPassage])).map
      (·.data))).lookup text

theorem lookup_zip {α β : Type} [BEq α] [LawfulBEq α] {keys : List α} (hkeys : keys.Nodup)
    {values : List β} (hlength : keys.length = values.length) :
    List.Forall₂ (fun key v => (keys.zip values).lookup key = some v) keys values := by
  induction keys generalizing values with
  | nil =>
    rw [List.length_eq_zero_iff.mp hlength.symm]
    exact .nil
  | cons key keys ih =>
    cases values with
    | nil => cases hlength
    | cons v values =>
      obtain ⟨hnew, hrest⟩ := List.nodup_cons.mp hkeys
      refine .cons (by rw [List.zip_cons_cons, List.lookup_cons_self]) ?_
      refine (List.forall₂_iff_zip.mp (ih hrest (Nat.succ_inj.mp hlength))).elim fun hlen hall => ?_
      refine List.forall₂_iff_zip.mpr ⟨hlen, fun {key' v'} hmem => ?_⟩
      have hother : (key' == key) = false := by
        rw [beq_eq_false_iff_ne]
        intro heq
        exact hnew (heq ▸ (List.of_mem_zip hmem).1)
      rw [List.zip_cons_cons, List.lookup_cons, hother]
      exact hall hmem

theorem carries_of_parts {parse : List Char → Option (Json ℚ)}
    {payloads : List (List Char × List Char)} {events : List (AskEvent ℚ)}
    (hnames : payloads.map (·.1) = events.map (·.event.toList))
    (hplain : ∀ payload ∈ payloads, Plain payload.2)
    (hparsed : List.Forall₂ (fun text v => parse text = some v) (payloads.map (·.2))
      (events.map (·.data))) :
    List.Forall₂ (Carries parse) payloads events := by
  induction payloads generalizing events with
  | nil =>
    rw [List.map_eq_nil_iff.mp hnames.symm]
    exact .nil
  | cons payload payloads ih =>
    cases events with
    | nil => cases hnames
    | cons e events =>
      obtain ⟨hname, hnames⟩ := List.cons.inj hnames
      obtain ⟨hfirst, hrest⟩ := List.forall_mem_cons.mp hplain
      cases hparsed with
      | cons htext hparsed => exact .cons ⟨hname, hfirst, htext⟩ (ih hnames hrest hparsed)

theorem sentForOne_carries : List.Forall₂ (Carries parseOne) (sentForOne.filterMap Sent.payload?)
    (ask id [numberedPassage] (answerStream id [] (some citesOne) [] [numberedPassage])) := by
  apply carries_of_parts
  · decide +kernel
  · decide +kernel
  · apply lookup_zip
    · decide +kernel
    · decide +kernel

def readsForOne : List Bytes :=
  let sent := (written .crlf sentForOne).map fun c => UInt8.ofNat c.toNat
  [sent.take 300, sent.drop 300]

theorem the_cited_passage_opens :
    let turn := page asciiDecoder parseOne readsForOne
    turn.answer = "See [1].".toList ∧ turn.done = true ∧
      ∃ shown, withCitations turn.answer turn.citations = some shown ∧
        shown.filterMap Shown.chip? = [("1".toList, (citation id 1 numberedPassage).json)] := by
  have hcomments : ∀ text, Sent.comment text ∈ sentForOne → OneLine text := by
    intro text htext
    simp only [sentForOne, List.mem_cons, reduceCtorEq, Sent.comment.injEq, List.not_mem_nil,
      or_false, false_or] at htext
    subst htext
    decide
  have hreads : (asciiDecoder.decodeAll asciiDecoder.start readsForOne).flatten =
      written .crlf sentForOne := by decide +kernel
  have hwhole : ∀ l ∈ linesRead asciiDecoder readsForOne,
      "event: ".toList <+: l.1 → l.2 = false := by decide +kernel
  obtain ⟨⟨hanswer, hdone, -⟩, hfails, hshown⟩ := page_shows_the_answer id [] (some citesOne) []
    [numberedPassage] sentForOne_carries hcomments hreads hwhole
  have htext : (answerDeltas (some citesOne) [] [numberedPassage]).flatten = "See [1].".toList := by
    decide +kernel
  refine ⟨hanswer.trans htext, hdone, ?_⟩
  cases hpage : withCitations (page asciiDecoder parseOne readsForOne).answer
      (page asciiDecoder parseOne readsForOne).citations with
  | none =>
    rw [htext] at hfails
    exact absurd (hfails.mp hpage 1 (by decide)) (by decide)
  | some shown =>
    refine ⟨shown, rfl, ?_⟩
    rw [(hshown shown hpage).2, htext]
    rfl

end Ragent.AskPage
