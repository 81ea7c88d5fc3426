import Ragent.SourceTypes

set_option autoImplicit false

/-!
# The default token counter

`approx_tokens` of `ragent/ingest/types.py`. Which characters `\w` matches is a parameter.
-/
namespace Ragent.ApproxTokens
open SpacedWords PyText SourceTypes

variable (isWord : Char → Bool)

/-- `len(_TOKEN_RE.findall(text))`: a match is a run of word characters or one character that is
    neither of a word nor a space. `inWord` tells whether the run goes on. -/
def tokensFrom (inWord : Bool) : List Char → ℕ
  | [] => 0
  | c :: text =>
    if isWord c then (if inWord then 0 else 1) + tokensFrom true text
    else if isSpace c then tokensFrom false text
    else 1 + tokensFrom false text

def tokens (text : List Char) : ℕ := tokensFrom isWord false text

/-- `round(n * 1.3)` in exact arithmetic; a half goes to the even neighbour. -/
def roundTokens (n : ℕ) : ℕ :=
  let whole := 13 * n / 10
  let tenths := 13 * n % 10
  if tenths < 5 ∨ (tenths = 5 ∧ whole % 2 = 0) then whole else whole + 1

def approxTokens : TokenCounter := fun text =>
  if (strip text).isEmpty then 0 else max 1 (roundTokens (tokens isWord text))

theorem one_le_roundTokens {n : ℕ} (h : 1 ≤ n) : 1 ≤ roundTokens n := by
  simp only [roundTokens]
  split_ifs <;> omega

/-- `\w` matches no space. -/
def WordsAreSolid : Prop := ∀ c, isWord c = true → isSpace c = false

variable {isWord}

theorem tokensFrom_of_spaces (hword : WordsAreSolid isWord) {text : List Char}
    (h : ∀ c ∈ text, isSpace c = true) (inWord : Bool) : tokensFrom isWord inWord text = 0 := by
  induction text generalizing inWord with
  | nil => rfl
  | cons c text ih =>
    have hc := h c List.mem_cons_self
    have hnot : isWord c = false := by
      by_contra hw
      simp [hword c (by simpa using hw)] at hc
    rw [tokensFrom, if_neg (by simp [hnot]), if_pos hc]
    exact ih (fun d hd => h d (List.mem_cons_of_mem c hd)) false

def inWordAfter (isWord : Char → Bool) (inWord : Bool) : List Char → Bool
  | [] => inWord
  | c :: text => inWordAfter isWord (isWord c) text

theorem tokensFrom_append (text rest : List Char) (inWord : Bool) :
    tokensFrom isWord inWord (text ++ rest) =
      tokensFrom isWord inWord text + tokensFrom isWord (inWordAfter isWord inWord text) rest := by
  induction text generalizing inWord with
  | nil => simp [tokensFrom, inWordAfter]
  | cons c text ih =>
    rw [List.cons_append, tokensFrom, tokensFrom, inWordAfter, ih, ih]
    cases hc : isWord c with
    | true => simp [Nat.add_assoc]
    | false =>
      by_cases hspace : isSpace c = true
      · simp [hspace]
      · simp [hspace, Nat.add_assoc]

theorem inWordAfter_of_last (hword : WordsAreSolid isWord) {text : List Char} {c : Char}
    (hc : isSpace c = true) (h : text.getLast? = some c) (inWord : Bool) :
    inWordAfter isWord inWord text = false := by
  induction text generalizing inWord with
  | nil => simp at h
  | cons d text ih =>
    cases text with
    | nil =>
      have hd : d = c := by simpa using h
      by_contra hw
      have hsolid := hword d (by simpa [inWordAfter] using hw)
      simp [hd, hc] at hsolid
    | cons e text => exact ih (by simpa using h) (isWord d)

theorem tokensFrom_of_head (hword : WordsAreSolid isWord) {rest : List Char}
    (h : ∀ c ∈ rest.head?, isSpace c = true) (inWord : Bool) :
    tokensFrom isWord inWord rest = tokens isWord rest := by
  cases rest with
  | nil => rfl
  | cons c rest =>
    have hnot : isWord c = false := by
      by_contra hw
      have hsolid := hword c (by simpa using hw)
      simp [h c (by simp)] at hsolid
    simp [tokens, tokensFrom, hnot]

theorem tokens_append (hword : WordsAreSolid isWord) {text rest : List Char}
    (h : Apart isSpace text rest) :
    tokens isWord (text ++ rest) = tokens isWord text + tokens isWord rest := by
  rw [tokens, tokensFrom_append, tokens]
  apply congrArg
  cases hlast : text.getLast? with
  | none =>
    rw [List.getLast?_eq_none_iff.mp hlast]
    rfl
  | some c =>
    by_cases hc : isSpace c = true
    · rw [inWordAfter_of_last hword hc hlast]
      rfl
    · apply tokensFrom_of_head hword
      intro d hd
      exact (h c hlast d hd).resolve_left hc

theorem tokens_of_spaces (hword : WordsAreSolid isWord) {text : List Char}
    (h : ∀ c ∈ text, isSpace c = true) : tokens isWord text = 0 :=
  tokensFrom_of_spaces hword h false

theorem tokens_strip (hword : WordsAreSolid isWord) (text : List Char) :
    tokens isWord (strip text) = tokens isWord text := by
  by_cases hblank : strip text = []
  · have hspaces := words_eq_nil_iff.mp (strip_eq_nil_iff.mp hblank)
    rw [hblank, tokens_of_spaces hword hspaces]
    rfl
  · obtain ⟨front, back, heq, hfront, hback, -⟩ := trim_split hblank
    have hbody : tokens isWord (front ++ strip text) = tokens isWord (strip text) := by
      rw [tokens_append hword (apart_of_spaces_left _ hfront), tokens_of_spaces hword hfront,
        Nat.zero_add]
    have htail := tokens_append hword (apart_of_spaces_right (front ++ strip text) hback)
    rw [hbody, tokens_of_spaces hword hback, Nat.add_zero] at htail
    have hwhole : text = front ++ strip text ++ back := heq
    rw [← htail, ← hwhole]

theorem one_le_tokens {text : List Char} {c : Char} (hc : c ∈ text) (hsolid : isSpace c = false) :
    1 ≤ tokens isWord text := by
  rw [tokens]
  induction text with
  | nil => simp at hc
  | cons d text ih =>
    rw [tokensFrom]
    by_cases hword : isWord d = true
    · simp [hword]
    · by_cases hspace : isSpace d = true
      · have htail : c ∈ text := by
          rcases List.mem_cons.mp hc with rfl | htail
          · simp [hspace] at hsolid
          · exact htail
        simpa [hword, hspace] using ih htail
      · simp [hword, hspace]

/-- The default counter rounds the number of tokens; blank text has none. -/
theorem approxTokens_eq (hword : WordsAreSolid isWord) (text : List Char) :
    approxTokens isWord text = roundTokens (tokens isWord text) := by
  rw [approxTokens]
  split_ifs with hblank
  · have hspaces := words_eq_nil_iff.mp (strip_eq_nil_iff.mp (List.isEmpty_iff.mp hblank))
    rw [tokens_of_spaces hword hspaces]
    rfl
  · have hsolid : ∃ c ∈ text, isSpace c = false := by
      by_contra hall
      push Not at hall
      apply hblank
      rw [List.isEmpty_iff, strip_eq_nil_iff, words_eq_nil_iff]
      intro c hc
      change isSpace c = true
      simpa using hall c hc
    obtain ⟨c, hc, hc'⟩ := hsolid
    have hone := one_le_roundTokens (@one_le_tokens isWord _ _ hc hc')
    omega

end Ragent.ApproxTokens
