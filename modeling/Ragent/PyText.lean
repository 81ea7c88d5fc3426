import Ragent.RangeTilings

set_option autoImplicit false

/-!
# Python strings

A `str` is a sequence of code points. The chunkers and the flow splitter are written over an
arbitrary `Glyph`: `Char` gives the program itself, and a character paired with a note of its
origin runs the same definitions on text that remembers where it was read.
-/
namespace Ragent.PyText
open SpacedWords

/-- `str.isspace` of one character, which is also what `\s` matches in a `str` pattern. -/
def isSpace (c : Char) : Bool :=
  let n := c.toNat
  (9 ≤ n && n ≤ 13) || (28 ≤ n && n ≤ 32) || n == 0x85 || n == 0xA0 || n == 0x1680 ||
    (0x2000 ≤ n && n ≤ 0x200A) || n == 0x2028 || n == 0x2029 || n == 0x202F || n == 0x205F ||
    n == 0x3000

class Glyph (α : Type) where
  char : α → Char
  /-- A character the program writes itself, read from nowhere. -/
  lit : Char → α
  char_lit : ∀ c, char (lit c) = c

instance : Glyph Char where
  char c := c
  lit c := c
  char_lit _ := rfl

abbrev Traced (τ : Type) := Char × Option τ

instance (τ : Type) : Glyph (Traced τ) where
  char g := g.1
  lit c := (c, none)
  char_lit _ := rfl

section
variable {α : Type} [Glyph α]

def space (a : α) : Bool := isSpace (Glyph.char a)

def plain (text : List α) : List Char := text.map Glyph.char

def lit (s : String) : List α := s.toList.map Glyph.lit

/-- `str.strip()` -/
def strip (text : List α) : List α := trim space text

theorem words_strip (text : List α) : words space (strip text) = words space text :=
  words_trim text

theorem strip_eq_nil_iff {text : List α} : strip text = [] ↔ words space text = [] :=
  trim_eq_nil_iff

theorem plain_lit (s : String) : plain (lit s : List α) = s.toList := by
  simp [plain, lit, Function.comp_def, Glyph.char_lit]

@[simp] theorem plain_char (text : List Char) : plain text = text := List.map_id' text

theorem plain_length (text : List α) : (plain text).length = text.length := by
  simp [plain]

theorem plain_append (s t : List α) : plain (s ++ t) = plain s ++ plain t := by
  simp [plain]

theorem plain_slice (text : List α) (s e : ℕ) : plain (slice text s e) = slice (plain text) s e :=
  (slice_map Glyph.char text s e).symm

theorem plain_strip (text : List α) : plain (strip text) = strip (plain text) :=
  (trim_map Glyph.char text).symm

theorem plain_words (text : List α) : words space (plain text) = (words space text).map plain :=
  words_map Glyph.char text

theorem isCut_plain (text : List α) (p : ℕ) :
    IsCut space (plain text) p ↔ IsCut space text p := by
  simp only [IsCut, Apart, plain, ← List.map_take, ← List.map_drop, List.getLast?_map,
    List.head?_map, Option.mem_def, Option.map_eq_some_iff, forall_exists_index, and_imp]
  constructor
  · intro h a ha b hb
    exact h _ a ha rfl _ b hb rfl
  · rintro h _ a ha rfl _ b hb rfl
    exact h a ha b hb

theorem tiles_plain (text : List α) (p : ℕ) (rs : List (ℕ × ℕ)) :
    Tiles space (plain text) p rs ↔ Tiles space text p rs := by
  induction rs generalizing p with
  | nil => simp [Tiles, plain, space, ← List.map_drop, Glyph.char]
  | cons r rs ih =>
    simp only [Tiles, ih, isCut_plain, ← plain_slice]
    simp [plain, space, Glyph.char]

end

def findFrom (sep : List Char) (i : ℕ) : List Char → Option ℕ
  | [] => if sep = [] then some i else none
  | c :: text => if sep <+: c :: text then some i else findFrom sep (i + 1) text

/-- `doc.find(sep, start, stop)`, with `none` for -1. -/
def find (doc sep : List Char) (start stop : ℕ) : Option ℕ :=
  findFrom sep start (slice doc start stop)

theorem findFrom_spec {sep text : List Char} {i j : ℕ} (h : findFrom sep i text = some j) :
    i ≤ j ∧ j + sep.length ≤ i + text.length ∧ sep <+: text.drop (j - i) := by
  induction text generalizing i with
  | nil =>
    simp only [findFrom, Option.ite_none_right_eq_some, Option.some.injEq] at h
    obtain ⟨rfl, rfl⟩ := h
    simp
  | cons c text ih =>
    rw [findFrom] at h
    split_ifs at h with hp
    · cases h
      have := hp.length_le
      simp only [List.length_cons] at this
      exact ⟨le_refl _, by simp; omega, by simpa using hp⟩
    · obtain ⟨h1, h2, h3⟩ := ih h
      refine ⟨by omega, by simp; omega, ?_⟩
      have hj : j - i = (j - (i + 1)) + 1 := by omega
      rw [hj, List.drop_succ_cons]
      exact h3

theorem findFrom_first {sep text : List Char} {i j : ℕ} (h : findFrom sep i text = some j) :
    ∀ k, i + k < j → ¬ sep <+: text.drop k := by
  induction text generalizing i with
  | nil =>
    simp only [findFrom, Option.ite_none_right_eq_some, Option.some.injEq] at h
    intro k hk
    omega
  | cons c text ih =>
    rw [findFrom] at h
    split_ifs at h with hp
    · cases h
      intro k hk
      omega
    · intro k hk
      cases k with
      | zero => exact hp
      | succ k => exact ih h k (by omega)

theorem findFrom_none {sep text : List Char} {i : ℕ} (h : findFrom sep i text = none)
    (hne : sep ≠ []) : ∀ k, ¬ sep <+: text.drop k := by
  induction text generalizing i with
  | nil => simpa using hne
  | cons c text ih =>
    rw [findFrom] at h
    split_ifs at h with hp
    intro k
    cases k with
    | zero => exact hp
    | succ k => exact ih h k

theorem find_spec {doc sep : List Char} {start stop j : ℕ} (h : find doc sep start stop = some j) :
    start ≤ j ∧ j + sep.length ≤ max start stop ∧ slice doc j (j + sep.length) = sep := by
  obtain ⟨h1, h2, h3⟩ := findFrom_spec h
  rw [slice_length] at h2
  have hlen : j + sep.length ≤ max start stop := by omega
  refine ⟨h1, hlen, ?_⟩
  rw [slice, List.drop_drop, Nat.add_sub_cancel' h1] at h3
  obtain ⟨t, ht⟩ := h3
  rw [slice, List.drop_take, Nat.add_sub_cancel_left]
  rw [List.drop_take] at ht
  have hp : sep <+: doc.drop j := (List.prefix_append sep t).trans (ht ▸ List.take_prefix _ _)
  exact (List.prefix_iff_eq_take.mp hp).symm

theorem find_char {doc : List Char} {c : Char} {start stop : ℕ} :
    (∀ j, find doc [c] start stop = some j → ∀ k, start ≤ k → k < j → doc[k]? ≠ some c) ∧
      (find doc [c] start stop = none → ∀ k, start ≤ k → k < stop → doc[k]? ≠ some c) := by
  have hstarts : ∀ k, start ≤ k → k < stop → doc[k]? = some c →
      [c] <+: (slice doc start stop).drop (k - start) := by
    intro k hk hlt hget
    have hsome : (slice doc start stop)[k - start]? = some c := by
      rw [slice, List.getElem?_drop, List.getElem?_take, Nat.add_sub_cancel' hk, if_pos hlt, hget]
    obtain ⟨hidx, hval⟩ := List.getElem?_eq_some_iff.mp hsome
    rw [List.drop_eq_getElem_cons hidx, hval]
    exact List.cons_prefix_cons.mpr ⟨rfl, List.nil_prefix⟩
  constructor
  · intro j hj k hk hlt hget
    obtain ⟨-, hle, -⟩ := find_spec hj
    rw [List.length_singleton] at hle
    exact findFrom_first hj (k - start) (by omega) (hstarts k hk (by omega) hget)
  · intro hnone k hk hlt hget
    exact findFrom_none hnone (List.cons_ne_nil c []) _ (hstarts k hk hlt hget)

end Ragent.PyText
