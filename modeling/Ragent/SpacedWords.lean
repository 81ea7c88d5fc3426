import Mathlib.Data.List.DropRight
import Mathlib.Data.List.Infix

set_option autoImplicit false

/-!
# Words of a sequence with separators

`q` says which elements separate words. Nothing here knows what the elements are, so the same
facts serve plain characters and characters that carry where they were read from.
-/
namespace SpacedWords

variable {α β : Type*} (q : α → Bool)

/-- The maximal runs of elements that are not separators, in order. -/
def words : List α → List (List α)
  | [] => []
  | a :: l =>
    if q a then words l
    else match l with
      | [] => [[a]]
      | b :: _ => if q b then [a] :: words l else (words l).modifyHead (a :: ·)

/-- Joining the two sequences glues no word of one to a word of the other. -/
def Apart (l m : List α) : Prop :=
  ∀ a ∈ l.getLast?, ∀ b ∈ m.head?, q a = true ∨ q b = true

/-- `p` falls on no position inside a word. -/
def IsCut (l : List α) (p : ℕ) : Prop := Apart q (l.take p) (l.drop p)

/-- The elements at the positions from `s` up to but not including `e`. -/
def slice (l : List α) (s e : ℕ) : List α := (l.take e).drop s

def trim (l : List α) : List α := (l.dropWhile q).rdropWhile q

variable {q}

@[simp] theorem words_nil : words q [] = [] := rfl

theorem words_cons_space {a : α} (l : List α) (h : q a = true) :
    words q (a :: l) = words q l := by
  cases l <;> simp [words, h]

theorem words_cons_ne_nil {a : α} (l : List α) (h : q a = false) : words q (a :: l) ≠ [] := by
  induction l generalizing a with
  | nil => simp [words, h]
  | cons b l ih =>
    by_cases hb : q b = true
    · simp [words, h, hb]
    · have hb' : q b = false := by simpa using hb
      have := ih hb'
      rw [words]
      simpa [h, hb'] using this

theorem apart_nil_left (m : List α) : Apart q [] m := by
  intro a ha
  simp at ha

theorem apart_nil_right (l : List α) : Apart q l [] := by
  intro a _ b hb
  simp at hb

theorem apart_of_last {l : List α} (m : List α) (h : ∀ a ∈ l.getLast?, q a = true) :
    Apart q l m :=
  fun a ha _ _ => Or.inl (h a ha)

theorem apart_of_head (l : List α) {m : List α} (h : ∀ b ∈ m.head?, q b = true) :
    Apart q l m :=
  fun _ _ b hb => Or.inr (h b hb)

theorem apart_of_spaces_left {l : List α} (m : List α) (h : ∀ a ∈ l, q a = true) :
    Apart q l m :=
  apart_of_last m fun a ha => h a (List.mem_of_mem_getLast? ha)

theorem apart_of_spaces_right (l : List α) {m : List α} (h : ∀ a ∈ m, q a = true) :
    Apart q l m :=
  apart_of_head l fun a ha => h a (List.mem_of_mem_head? ha)

theorem words_append {l m : List α} (h : Apart q l m) :
    words q (l ++ m) = words q l ++ words q m := by
  induction l with
  | nil => rfl
  | cons a l ih =>
    by_cases ha : q a = true
    · have hl : Apart q l m := by
        cases l with
        | nil => exact apart_nil_left m
        | cons b l => simpa [Apart] using h
      rw [List.cons_append, words_cons_space _ ha, words_cons_space _ ha, ih hl]
    · cases l with
      | nil =>
        cases m with
        | nil => simp
        | cons b m =>
          have hb : q b = true := by simpa [Apart, ha] using h
          simp [words, ha, hb]
      | cons b l =>
        have hl : Apart q (b :: l) m := by simpa [Apart] using h
        by_cases hb : q b = true
        · have hw := ih hl
          rw [List.cons_append] at hw
          rw [List.cons_append, List.cons_append, words, words]
          simp only [ha, hb, Bool.false_eq_true, ↓reduceIte, hw, List.cons_append]
        · have hw := ih hl
          rw [List.cons_append] at hw
          have hne : words q (b :: l) ≠ [] := words_cons_ne_nil l (by simpa using hb)
          rw [List.cons_append, List.cons_append, words, words]
          simp only [ha, hb, Bool.false_eq_true, ↓reduceIte, hw]
          obtain ⟨w, ws, heq⟩ := List.exists_cons_of_ne_nil hne
          simp [heq]

theorem words_of_spaces {l : List α} (h : ∀ a ∈ l, q a = true) : words q l = [] := by
  induction l with
  | nil => rfl
  | cons a l ih =>
    rw [words_cons_space _ (h a (by simp))]
    exact ih fun b hb => h b (by simp [hb])

theorem words_eq_nil_iff {l : List α} : words q l = [] ↔ ∀ a ∈ l, q a = true := by
  refine ⟨fun h => ?_, words_of_spaces⟩
  induction l with
  | nil => simp
  | cons a l ih =>
    by_cases ha : q a = true
    · rw [words_cons_space _ ha] at h
      simpa [ha] using ih h
    · exact absurd h (words_cons_ne_nil l (by simpa using ha))

theorem words_of_solid {l : List α} (hne : l ≠ []) (h : ∀ a ∈ l, q a = false) :
    words q l = [l] := by
  induction l with
  | nil => exact absurd rfl hne
  | cons a l ih =>
    have ha := h a (by simp)
    cases l with
    | nil => simp [words, ha]
    | cons b l =>
      have hb := h b (by simp)
      rw [words, ih (by simp) fun c hc => h c (by simp [hc])]
      simp [ha, hb]

theorem words_spaces_append {g : List α} (l : List α) (h : ∀ a ∈ g, q a = true) :
    words q (g ++ l) = words q l := by
  rw [words_append (apart_of_spaces_left l h), words_of_spaces h, List.nil_append]

theorem words_append_spaces (l : List α) {g : List α} (h : ∀ a ∈ g, q a = true) :
    words q (l ++ g) = words q l := by
  rw [words_append (apart_of_spaces_right l h), words_of_spaces h, List.append_nil]

theorem words_append_apart {l m g : List α} (hne : g ≠ []) (h : ∀ a ∈ g, q a = true) :
    words q (l ++ g ++ m) = words q l ++ words q m := by
  have hlast : ∀ a ∈ (l ++ g).getLast?, q a = true := by
    intro a ha
    rw [List.getLast?_append_of_ne_nil _ hne] at ha
    exact h a (List.mem_of_mem_getLast? ha)
  rw [words_append (apart_of_last m hlast), words_append_spaces l h]

theorem words_dropWhile (l : List α) : words q (l.dropWhile q) = words q l := by
  have hs : ∀ a ∈ l.takeWhile q, q a = true := fun a ha => List.mem_takeWhile_imp ha
  calc
    _ = words q (l.takeWhile q ++ l.dropWhile q) := (words_spaces_append _ hs).symm
    _ = words q l := by rw [List.takeWhile_append_dropWhile]

theorem words_rdropWhile (l : List α) : words q (l.rdropWhile q) = words q l := by
  have hs : ∀ a ∈ l.rtakeWhile q, q a = true := fun a ha => List.mem_rtakeWhile_imp ha
  calc
    _ = words q (l.rdropWhile q ++ l.rtakeWhile q) := (words_append_spaces _ hs).symm
    _ = words q l := by rw [List.rdropWhile_append_rtakeWhile]

theorem words_trim (l : List α) : words q (trim q l) = words q l := by
  rw [trim, words_rdropWhile, words_dropWhile]

theorem trim_eq_nil_iff {l : List α} : trim q l = [] ↔ words q l = [] := by
  rw [← words_trim, words_eq_nil_iff]
  constructor
  · intro h
    simp [h]
  · intro h
    by_contra hne
    have hlast : ¬ q ((trim q l).getLast hne) = true := List.rdropWhile_last_not q _ hne
    exact hlast (h _ (List.getLast_mem hne))

theorem trim_getLast {l : List α} (h : trim q l ≠ []) :
    q ((trim q l).getLast h) = false :=
  Bool.eq_false_iff.mpr (List.rdropWhile_last_not q (l.dropWhile q) h)

theorem trim_head {l : List α} (h : trim q l ≠ []) : q ((trim q l).head h) = false := by
  have hp : trim q l <+: l.dropWhile q := List.rdropWhile_prefix q _
  have hd : l.dropWhile q ≠ [] := fun h0 => h (by simpa [h0] using hp)
  have hhead := List.head_dropWhile_not q hd
  rw [hp.head h]
  exact hhead

theorem trim_eq_self {l : List α} (hhead : ∀ a ∈ l.head?, q a = false)
    (hlast : ∀ a ∈ l.getLast?, q a = false) : trim q l = l := by
  have hdrop : l.dropWhile q = l := by
    rw [List.dropWhile_eq_self_iff]
    intro hpos
    simp [hhead l[0] (by simp [List.head?_eq_getElem?])]
  have hrdrop : l.rdropWhile q = l := by
    rw [List.rdropWhile_eq_self_iff]
    intro hne
    simp [hlast (l.getLast hne) (by simp [List.getLast?_eq_some_getLast hne])]
  rw [trim, hdrop, hrdrop]

theorem trim_trim (l : List α) : trim q (trim q l) = trim q l := by
  by_cases h : trim q l = []
  · rw [h]
    rfl
  · apply trim_eq_self
    · rw [List.head?_eq_some_head h]
      simpa using trim_head h
    · rw [List.getLast?_eq_some_getLast h]
      simpa using trim_getLast h

theorem trim_split {l : List α} (h : trim q l ≠ []) :
    ∃ front back, l = front ++ trim q l ++ back ∧ (∀ a ∈ front, q a = true) ∧
      (∀ a ∈ back, q a = true) ∧ l.dropWhile q = trim q l ++ back ∧
      l.rdropWhile q = front ++ trim q l := by
  have hfront : l.takeWhile q ++ l.dropWhile q = l := List.takeWhile_append_dropWhile
  have hback : trim q l ++ (l.dropWhile q).rtakeWhile q = l.dropWhile q :=
    List.rdropWhile_append_rtakeWhile
  have hrdrop : l.rdropWhile q = l.takeWhile q ++ trim q l := by
    have hne : ((l.dropWhile q).reverse.dropWhile q).isEmpty = false := by
      rw [List.isEmpty_eq_false_iff]
      intro h0
      exact h (by simp [trim, List.rdropWhile, h0])
    conv_lhs => rw [← hfront]
    rw [List.rdropWhile, List.reverse_append, List.dropWhile_append, if_neg (by simp [hne]),
      List.reverse_append, List.reverse_reverse]
    rfl
  refine ⟨l.takeWhile q, (l.dropWhile q).rtakeWhile q, ?_, fun a ha => List.mem_takeWhile_imp ha,
    fun a ha => List.mem_rtakeWhile_imp ha, hback.symm, hrdrop⟩
  rw [List.append_assoc, hback, hfront]

theorem mem_trim_of_between {l : List α} {i j k : ℕ} {a b c : α} (hi : l[i]? = some a)
    (hk : l[k]? = some c) (hj : l[j]? = some b) (hik : i ≤ k) (hkj : k ≤ j) (ha : q a = false)
    (hb : q b = false) : c ∈ trim q l := by
  have hne : trim q l ≠ [] := by
    intro h0
    have hspaces := words_eq_nil_iff.mp (trim_eq_nil_iff.mp h0) a (List.mem_of_getElem? hi)
    simp [ha] at hspaces
  obtain ⟨front, back, heq, hfront, hback, -⟩ := trim_split hne
  rw [heq] at hi hk hj
  have hlow : front.length ≤ i := by
    by_contra hlt
    rw [List.append_assoc, List.getElem?_append_left (by omega)] at hi
    simp [hfront a (List.mem_of_getElem? hi)] at ha
  have hhigh : j < (front ++ trim q l).length := by
    by_contra hge
    rw [List.getElem?_append_right (by omega)] at hj
    simp [hback b (List.mem_of_getElem? hj)] at hb
  rw [List.getElem?_append_left (by omega), List.getElem?_append_right (by omega)] at hk
  exact List.mem_of_getElem? hk

/-- Sequences from separators and whole words, first element first. -/
theorem words_induction {motive : List α → Prop} (nil : motive [])
    (space : ∀ a l, q a = true → motive l → motive (a :: l))
    (word : ∀ w l, w ≠ [] → (∀ a ∈ w, q a = false) → (∀ b ∈ l.head?, q b = true) →
      motive l → motive (w ++ l)) (l : List α) : motive l := by
  induction hn : l.length using Nat.strong_induction_on generalizing l with
  | _ n ih =>
    cases l with
    | nil => exact nil
    | cons a l =>
      by_cases ha : q a = true
      · exact space a l ha (ih l.length (by simp [← hn]) l rfl)
      · let r : α → Bool := fun b => !q b
        have hrest : ((a :: l).dropWhile r).length < n := by
          have hle : (l.dropWhile r).length ≤ l.length := (List.dropWhile_suffix r).length_le
          have hq : (a :: l).dropWhile r = l.dropWhile r := by simp [r, ha]
          rw [hq, ← hn, List.length_cons]
          omega
        have hw := word ((a :: l).takeWhile r) ((a :: l).dropWhile r)
          (by simp [r, ha])
          (fun b hb => by simpa [r] using List.mem_takeWhile_imp hb)
          (fun b hb => by
            have := List.head?_dropWhile_not r (a :: l)
            rw [Option.mem_def.mp hb] at this
            simpa [r] using this)
          (ih _ hrest _ rfl)
        rwa [List.takeWhile_append_dropWhile] at hw

theorem words_word_append {w l : List α} (hne : w ≠ []) (hw : ∀ a ∈ w, q a = false)
    (hl : ∀ b ∈ l.head?, q b = true) : words q (w ++ l) = w :: words q l := by
  rw [words_append (apart_of_head w hl), words_of_solid hne hw, List.singleton_append]

theorem of_mem_words {l w : List α} (h : w ∈ words q l) :
    w ≠ [] ∧ (∀ a ∈ w, q a = false) ∧ w <:+: l := by
  induction l using words_induction (q := q) with
  | nil => simp at h
  | space a l ha ih =>
    rw [words_cons_space _ ha] at h
    obtain ⟨h1, h2, h3⟩ := ih h
    exact ⟨h1, h2, h3.trans (List.suffix_cons a l).isInfix⟩
  | word v l hne hv hl ih =>
    rw [words_word_append hne hv hl, List.mem_cons] at h
    rcases h with rfl | h
    · exact ⟨hne, hv, (List.prefix_append w l).isInfix⟩
    · obtain ⟨h1, h2, h3⟩ := ih h
      exact ⟨h1, h2, h3.trans (List.suffix_append v l).isInfix⟩

theorem words_map (f : β → α) (l : List β) :
    words q (l.map f) = (words (q ∘ f) l).map (List.map f) := by
  induction l using words_induction (q := q ∘ f) with
  | nil => rfl
  | space a l ha ih =>
    rw [List.map_cons, words_cons_space (q := q) _ ha, words_cons_space (q := q ∘ f) _ ha, ih]
  | word w l hne hw hl ih =>
    rw [List.map_append, words_word_append (q := q) (by simpa using hne) (by simpa using hw)
      (by simpa using hl), words_word_append (q := q ∘ f) hne hw hl, ih, List.map_cons]

theorem trim_map (f : β → α) (l : List β) :
    trim q (l.map f) = (trim (q ∘ f) l).map f := by
  simp only [trim, List.rdropWhile, List.dropWhile_map, ← List.map_reverse]

section Spans
variable (q)

def spansFrom (i : ℕ) : List α → List (ℕ × ℕ)
  | [] => []
  | a :: l =>
    if q a then spansFrom (i + 1) l
    else
      let w := (a :: l).takeWhile fun b => !q b
      (i, i + w.length) :: spansFrom (i + w.length) (l.dropWhile fun b => !q b)
termination_by l => l.length
decreasing_by
  · simp
  · have hle := (List.dropWhile_suffix fun b => !q b : l.dropWhile (fun b => !q b) <:+ l).length_le
    simp only [List.length_cons]
    omega

def spans (l : List α) : List (ℕ × ℕ) := spansFrom q 0 l

end Spans

theorem spansFrom_space (i : ℕ) {a : α} (l : List α) (h : q a = true) :
    spansFrom q i (a :: l) = spansFrom q (i + 1) l := by
  rw [spansFrom]
  simp [h]

theorem spansFrom_word (i : ℕ) {w l : List α} (hne : w ≠ []) (hw : ∀ a ∈ w, q a = false)
    (hl : ∀ b ∈ l.head?, q b = true) :
    spansFrom q i (w ++ l) = (i, i + w.length) :: spansFrom q (i + w.length) l := by
  have hall : ∀ a ∈ w, (!q a) = true := fun a ha => by simp [hw a ha]
  have hstop : l.takeWhile (fun b => !q b) = [] ∧ l.dropWhile (fun b => !q b) = l := by
    cases l with
    | nil => simp
    | cons b l => simp [hl b (by simp)]
  obtain ⟨a, w, rfl⟩ := List.exists_cons_of_ne_nil hne
  have ha := hw a (by simp)
  have htail : ∀ b ∈ w, (!q b) = true := fun b hb => hall b (by simp [hb])
  rw [List.cons_append, spansFrom]
  simp [ha, List.takeWhile_append_of_pos htail, List.dropWhile_append_of_pos htail, hstop]

theorem spansFrom_map (f : β → α) (i : ℕ) (l : List β) :
    spansFrom q i (l.map f) = spansFrom (q ∘ f) i l := by
  induction l using words_induction (q := q ∘ f) generalizing i with
  | nil => simp [spansFrom]
  | space a l ha ih =>
    rw [List.map_cons, spansFrom_space (q := q) _ _ ha, spansFrom_space (q := q ∘ f) _ _ ha, ih]
  | word w l hne hw hl ih =>
    rw [List.map_append, spansFrom_word (q := q) _ (by simpa using hne) (by simpa using hw)
      (by simpa using hl), spansFrom_word (q := q ∘ f) _ hne hw hl, ih, List.length_map]

end SpacedWords
