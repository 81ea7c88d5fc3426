import Ragent.SpacedWords

set_option autoImplicit false

/-!
# Cutting a sequence into ranges between its words

A range list tiles a sequence when only separators lie outside the ranges and no range boundary
falls inside a word. Such ranges hold the words of the sequence, each once and in order.
-/
namespace SpacedWords

variable {α β : Type*} {q : α → Bool}

theorem slice_length (l : List α) (s e : ℕ) : (slice l s e).length = min e l.length - s := by
  simp [slice]

theorem slice_map (f : α → β) (l : List α) (s e : ℕ) :
    slice (l.map f) s e = (slice l s e).map f := by
  simp [slice, List.map_take, List.map_drop]

theorem slice_zero (l : List α) (e : ℕ) : slice l 0 e = l.take e := rfl

theorem slice_self (l : List α) (s : ℕ) : slice l s s = [] :=
  List.drop_eq_nil_of_le (List.length_take_le s l)

theorem slice_to_end (l : List α) (s : ℕ) : slice l s l.length = l.drop s := by
  simp [slice]

theorem slice_of_le (l : List α) {s e : ℕ} (h : l.length ≤ e) : slice l s e = l.drop s := by
  simp [slice, List.take_of_length_le h]

theorem take_append_slice (l : List α) {s e : ℕ} (h : s ≤ e) :
    l.take s ++ slice l s e = l.take e := by
  have ht : l.take s = (l.take e).take s := by simp [List.take_take, Nat.min_eq_left h]
  rw [ht, slice, List.take_append_drop]

theorem slice_append_slice (l : List α) {s m e : ℕ} (hs : s ≤ m) (he : m ≤ e) :
    slice l s m ++ slice l m e = slice l s e := by
  have hm := take_append_slice l hs
  have h := take_append_slice l (hs.trans he)
  rw [← take_append_slice l he, ← hm, List.append_assoc] at h
  exact (List.append_cancel_left h).symm

theorem slice_append_drop (l : List α) {s e : ℕ} (h : s ≤ e) :
    slice l s e ++ l.drop e = l.drop s := by
  have hd := take_append_slice l h
  apply List.append_cancel_left
  rw [← List.append_assoc, hd, List.take_append_drop, List.take_append_drop]

theorem mem_slice {l : List α} {s e : ℕ} {a : α} :
    a ∈ slice l s e ↔ ∃ p, s ≤ p ∧ p < e ∧ l[p]? = some a := by
  simp only [List.mem_iff_getElem?, slice, List.getElem?_drop, List.getElem?_take]
  constructor
  · rintro ⟨p, hp⟩
    split_ifs at hp with hlt
    exact ⟨s + p, Nat.le_add_right s p, hlt, hp⟩
  · rintro ⟨p, hs, he, hp⟩
    refine ⟨p - s, ?_⟩
    rw [Nat.add_sub_cancel' hs]
    simpa [he] using hp

theorem slice_isInfix (l : List α) (s e : ℕ) : slice l s e <:+: l :=
  (List.drop_suffix s _).isInfix.trans (List.take_prefix e l).isInfix

theorem slice_isInfix_slice (l : List α) {s e s' e' : ℕ} (hs : s' ≤ s) (he : e ≤ e') :
    slice l s e <:+: slice l s' e' := by
  rcases Nat.lt_or_ge e s with hlt | hle
  · have : slice l s e = [] := List.drop_eq_nil_of_le ((List.length_take_le e l).trans hlt.le)
    rw [this]
    exact List.nil_infix
  · rw [← slice_append_slice l (hs.trans hle) he, ← slice_append_slice l hs hle]
    exact ((List.suffix_append _ _).isInfix).trans (List.prefix_append _ _).isInfix

theorem slice_slice (l : List α) (s e s' e' : ℕ) :
    slice (slice l s e) s' e' = slice l (s + s') (min e (s + e')) := by
  rw [slice, slice, slice, List.take_drop, List.take_take, List.drop_drop, Nat.min_comm]

theorem slice_append_left (l m : List α) {s e : ℕ} (h : e ≤ l.length) :
    slice (l ++ m) s e = slice l s e := by
  rw [slice, List.take_append_of_le_length h, slice]

theorem slice_append (l m : List α) (s e : ℕ) :
    slice (l ++ m) s e = slice l s e ++ slice m (s - l.length) (e - l.length) := by
  rw [slice, List.take_append, List.drop_append, slice, slice, List.length_take]
  rcases Nat.le_total l.length e with hle | hle
  · rw [Nat.min_eq_right hle]
  · rw [Nat.sub_eq_zero_of_le hle]
    simp

theorem slice_append_right (l m : List α) {s : ℕ} (e : ℕ) (h : l.length ≤ s) :
    slice (l ++ m) s (l.length + e) = slice m (s - l.length) e := by
  rw [slice, List.take_length_add_append, List.drop_append, List.drop_eq_nil_of_le h,
    List.nil_append, slice]

theorem isCut_zero (l : List α) : IsCut q l 0 := apart_nil_left _

theorem isCut_of_length_le {l : List α} {p : ℕ} (h : l.length ≤ p) : IsCut q l p := by
  rw [IsCut, List.drop_eq_nil_of_le h]
  exact apart_nil_right _

theorem isCut_of_space_after {l : List α} {p : ℕ} (h : ∀ a, l[p]? = some a → q a = true) :
    IsCut q l p := by
  refine apart_of_head _ fun b hb => h b ?_
  simpa [List.head?_drop] using hb

theorem isCut_of_space_before {l : List α} {p : ℕ} (h : ∀ a, l[p]? = some a → q a = true) :
    IsCut q l (p + 1) := by
  rcases Nat.lt_or_ge p l.length with hlt | hge
  · refine apart_of_last _ fun a ha => h a ?_
    rw [List.getLast?_take] at ha
    simpa [hlt] using ha
  · exact isCut_of_length_le (by omega)

theorem IsCut.separator {l : List α} {p : ℕ} (h : IsCut q l (p + 1)) {a b : α}
    (ha : l[p]? = some a) (hb : l[p + 1]? = some b) : q a = true ∨ q b = true := by
  apply h
  · rw [List.getLast?_take, if_neg (Nat.succ_ne_zero p), Nat.add_sub_cancel, ha]
    rfl
  · rwa [List.head?_drop]

theorem IsCut.slice_apart {l : List α} {s : ℕ} (h : IsCut q l s) (m e : ℕ) :
    Apart q (slice l m s) (slice l s e) := by
  intro a ha b hb
  refine h a ?_ b ?_
  · rw [slice, List.getLast?_drop] at ha
    split_ifs at ha
    · simp at ha
    · exact ha
  · rw [slice, List.head?_drop, List.getElem?_take] at hb
    rw [List.head?_drop]
    split_ifs at hb
    · exact hb
    · simp at hb

theorem words_take_append {l : List α} {s e : ℕ} (h : IsCut q l s) (he : s ≤ e) :
    words q (l.take e) = words q (l.take s) ++ words q (slice l s e) := by
  rw [← take_append_slice l he, words_append]
  simpa [slice_zero] using h.slice_apart 0 e

theorem words_drop_cut {l : List α} {p : ℕ} (h : IsCut q l p) :
    words q l = words q (l.take p) ++ words q (l.drop p) := by
  rw [← words_append h, List.take_append_drop]

theorem words_slice_subset {l w : List α} {s e : ℕ} (hs : IsCut q l s) (he : IsCut q l e)
    (hw : w ∈ words q (slice l s e)) : w ∈ words q l := by
  rcases Nat.lt_or_ge e s with hlt | hle
  · have : slice l s e = [] := List.drop_eq_nil_of_le ((List.length_take_le e l).trans hlt.le)
    simp [this] at hw
  · rw [words_drop_cut he, words_take_append hs hle]
    simp [hw]

theorem IsCut.slice {l : List α} {p : ℕ} (h : IsCut q l p) (s e : ℕ) :
    IsCut q (slice l s e) (p - s) := by
  rcases Nat.lt_or_ge s p with hlt | hge
  · intro a ha b hb
    refine h a ?_ b ?_
    · rw [SpacedWords.slice, List.take_drop, Nat.add_sub_cancel' hlt.le, List.take_take,
        List.getLast?_drop] at ha
      rw [Nat.min_eq_left] at ha
      · split_ifs at ha
        · simp at ha
        · exact ha
      · by_contra hlong
        rw [SpacedWords.slice, List.drop_drop, Nat.add_sub_cancel' hlt.le,
          List.drop_eq_nil_of_le ((List.length_take_le e l).trans (by omega))] at hb
        simp at hb
    · rw [SpacedWords.slice, List.drop_drop, Nat.add_sub_cancel' hlt.le, List.head?_drop,
        List.getElem?_take] at hb
      rw [List.head?_drop]
      split_ifs at hb
      · exact hb
      · simp at hb
  · rw [Nat.sub_eq_zero_of_le hge]
    exact isCut_zero _

variable (q) in
/-- From position `p` on, only separators lie outside the ranges. -/
def Tiles (l : List α) : ℕ → List (ℕ × ℕ) → Prop
  | p, [] => ∀ a ∈ l.drop p, q a = true
  | p, r :: rs =>
    p ≤ r.1 ∧ r.1 ≤ r.2 ∧ (∀ a ∈ slice l p r.1, q a = true) ∧ IsCut q l r.2 ∧ Tiles l r.2 rs

theorem Tiles.words {l : List α} {p : ℕ} {rs : List (ℕ × ℕ)} (h : Tiles q l p rs) :
    SpacedWords.words q (l.drop p) =
      rs.flatMap fun r => SpacedWords.words q (slice l r.1 r.2) := by
  induction rs generalizing p with
  | nil => simpa using words_of_spaces h
  | cons r rs ih =>
    obtain ⟨hp, hr, hgap, hcut, htail⟩ := h
    have hrest : Apart q (slice l r.1 r.2) (l.drop r.2) := by
      intro a ha
      rw [slice, List.getLast?_drop] at ha
      split_ifs at ha
      · simp at ha
      · exact hcut a ha
    rw [← slice_append_drop l hp, words_spaces_append _ hgap, ← slice_append_drop l hr,
      words_append hrest, ih htail, List.flatMap_cons]

theorem Tiles.covers {l : List α} {p u : ℕ} {a : α} {rs : List (ℕ × ℕ)} (h : Tiles q l p rs)
    (hq : p ≤ u) (hl : l[u]? = some a) (ha : q a = false) :
    ∃ r ∈ rs, r.1 ≤ u ∧ u < r.2 := by
  induction rs generalizing p with
  | nil =>
    have hmem : a ∈ l.drop p := by
      rw [← slice_to_end]
      exact mem_slice.mpr ⟨u, hq, (List.getElem?_eq_some_iff.mp hl).choose, hl⟩
    simp [h a hmem] at ha
  | cons r rs ih =>
    obtain ⟨hp, hr, hgap, hcut, htail⟩ := h
    rcases Nat.lt_or_ge u r.1 with hlt | hge
    · have := hgap a (mem_slice.mpr ⟨u, hq, hlt, hl⟩)
      simp [this] at ha
    rcases Nat.lt_or_ge u r.2 with hlt | hge2
    · exact ⟨r, by simp, hge, hlt⟩
    · obtain ⟨r', hr', hin⟩ := ih htail hge2
      exact ⟨r', by simp [hr'], hin⟩

theorem Tiles.isCut {l : List α} {p : ℕ} {rs : List (ℕ × ℕ)} (h : Tiles q l p rs)
    (hp : IsCut q l p) : ∀ r ∈ rs, IsCut q l r.1 ∧ IsCut q l r.2 ∧ r.1 ≤ r.2 := by
  induction rs generalizing p with
  | nil => simp
  | cons r rs ih =>
    obtain ⟨hle, hr, hgap, hcut, htail⟩ := h
    intro u hq
    rcases List.mem_cons.mp hq with rfl | hq
    · refine ⟨?_, hcut, hr⟩
      -- either the range starts where the last one ended, or right behind a separator
      rcases Nat.eq_or_lt_of_le hle with heq | hlt
      · exact heq ▸ hp
      · obtain ⟨m, hm⟩ : ∃ m, u.1 = m + 1 := ⟨u.1 - 1, by omega⟩
        rw [hm]
        exact isCut_of_space_before fun a ha =>
          hgap a (mem_slice.mpr ⟨m, by omega, by omega, ha⟩)
    · exact ih htail hcut u hq

theorem eq_slice_of_isInfix {l w : List α} {s e : ℕ} (hne : w ≠ []) (h : w <:+: slice l s e) :
    ∃ i, s ≤ i ∧ i + w.length ≤ e ∧ w = slice l i (i + w.length) := by
  obtain ⟨f, g, heq⟩ := h
  have hlen := congrArg List.length heq
  have hpos := List.length_pos_iff.mpr hne
  rw [slice_length, List.length_append, List.length_append] at hlen
  have hw : slice (slice l s e) f.length (f.length + w.length) = w := by
    rw [← heq, List.append_assoc, slice_append_right f _ _ (le_refl _), Nat.sub_self, slice_zero,
      List.take_left]
  rw [slice_slice, Nat.min_eq_right (by omega), ← Nat.add_assoc] at hw
  exact ⟨s + f.length, Nat.le_add_right _ _, by omega, hw.symm⟩

/-- Text without a separator lies in a single range of a tiling. -/
theorem Tiles.solid_isInfix {l w : List α} {rs : List (ℕ × ℕ)} (h : Tiles q l 0 rs) (hne : w ≠ [])
    (hw : ∀ a ∈ w, q a = false) {s e : ℕ} (hin : w <:+: slice l s e) :
    ∃ r ∈ rs, w <:+: slice l r.1 r.2 ∧ s < r.2 ∧ r.1 < e := by
  obtain ⟨i, hs, he, heq⟩ := eq_slice_of_isInfix hne hin
  have hpos := List.length_pos_iff.mpr hne
  have hlen := congrArg List.length heq
  rw [slice_length] at hlen
  have hsolid : ∀ u, i ≤ u → u < i + w.length → ∃ a, l[u]? = some a ∧ q a = false := by
    intro u hu hu'
    have hlt : u < l.length := by omega
    have hget : l[u]? = some l[u] := List.getElem?_eq_getElem hlt
    have hmem : l[u] ∈ slice l i (i + w.length) := mem_slice.mpr ⟨u, hu, hu', hget⟩
    exact ⟨_, hget, hw _ (by rwa [← heq] at hmem)⟩
  obtain ⟨a, ha, hqa⟩ := hsolid i (le_refl i) (by omega)
  obtain ⟨r, hr, hr1, hr2⟩ := h.covers (Nat.zero_le i) ha hqa
  have hend : i + w.length ≤ r.2 := by
    by_contra hlt
    -- the range would end inside the text, which no cut does
    have hcut := (h.isCut (isCut_zero l) r hr).2.1
    obtain ⟨m, hm⟩ : ∃ m, r.2 = m + 1 := ⟨r.2 - 1, by omega⟩
    obtain ⟨b, hb, hqb⟩ := hsolid m (by omega) (by omega)
    obtain ⟨c, hc, hqc⟩ := hsolid (m + 1) (by omega) (by omega)
    rw [hm] at hcut
    rcases hcut.separator hb hc with hspace | hspace
    · simp [hspace] at hqb
    · simp [hspace] at hqc
  have hinside := slice_isInfix_slice l hr1 hend
  rw [← heq] at hinside
  exact ⟨r, hr, hinside, by omega, by omega⟩

theorem Tiles.extend {l : List α} {o p : ℕ} {rs : List (ℕ × ℕ)} (h : Tiles q l p rs) (ho : o ≤ p)
    (hgap : ∀ a ∈ slice l o p, q a = true) : Tiles q l o rs := by
  cases rs with
  | nil =>
    intro a ha
    rw [← slice_append_drop l ho, List.mem_append] at ha
    exact ha.elim (hgap a) (h a)
  | cons r rs =>
    obtain ⟨hp, hr, hgap', hcut, htail⟩ := h
    refine ⟨ho.trans hp, hr, fun a ha => ?_, hcut, htail⟩
    rw [← slice_append_slice l ho hp, List.mem_append] at ha
    exact ha.elim (hgap a) (hgap' a)

theorem Tiles.le_starts {l : List α} {p : ℕ} {rs : List (ℕ × ℕ)} (h : Tiles q l p rs) :
    ∀ r ∈ rs, p ≤ r.1 ∧ r.1 ≤ r.2 := by
  induction rs generalizing p with
  | nil => simp
  | cons r rs ih =>
    obtain ⟨hp, hr, -, -, htail⟩ := h
    intro t ht
    rcases List.mem_cons.mp ht with rfl | ht
    · exact ⟨hp, hr⟩
    · obtain ⟨h1, h2⟩ := ih htail t ht
      exact ⟨by omega, h2⟩

theorem Tiles.ordered {l : List α} {p : ℕ} {rs : List (ℕ × ℕ)} (h : Tiles q l p rs) :
    rs.Pairwise fun r t => r.2 ≤ t.1 := by
  induction rs generalizing p with
  | nil => exact .nil
  | cons r rs ih =>
    obtain ⟨-, -, -, -, htail⟩ := h
    exact .cons (fun t ht => (htail.le_starts t ht).1) (ih htail)

theorem spansFrom_tiles (f l : List α) : Tiles q (f ++ l) f.length (spansFrom q f.length l) := by
  induction l using words_induction (q := q) generalizing f with
  | nil => simp [spansFrom, Tiles]
  | space a l ha ih =>
    rw [spansFrom_space _ l ha]
    have htail := ih (f ++ [a])
    rw [List.append_assoc, List.singleton_append, List.length_append, List.length_singleton] at htail
    refine htail.extend (Nat.le_succ _) fun b hb => ?_
    rw [slice_append_right f _ 1 (le_refl _), Nat.sub_self] at hb
    simp only [slice, List.take_succ_cons, List.take_zero, List.drop_zero,
      List.mem_singleton] at hb
    exact hb ▸ ha
  | word w l hne hw hl ih =>
    rw [spansFrom_word _ hne hw hl]
    have htail := ih (f ++ w)
    rw [List.append_assoc, List.length_append] at htail
    refine ⟨le_refl _, Nat.le_add_right _ _, by simp [slice_self], ?_, htail⟩
    refine apart_of_head _ fun b hb => hl b ?_
    rwa [List.drop_length_add_append, List.drop_left] at hb

theorem spans_tiles (l : List α) : Tiles q l 0 (spans q l) := spansFrom_tiles [] l

theorem spansFrom_solid (f l : List α) : ∀ r ∈ spansFrom q f.length l,
    slice (f ++ l) r.1 r.2 ≠ [] ∧ ∀ a ∈ slice (f ++ l) r.1 r.2, q a = false := by
  induction l using words_induction (q := q) generalizing f with
  | nil => simp [spansFrom]
  | space a l ha ih =>
    rw [spansFrom_space _ l ha]
    simpa using ih (f ++ [a])
  | word w l hne hw hl ih =>
    rw [spansFrom_word _ hne hw hl]
    intro r hr
    rcases List.mem_cons.mp hr with rfl | hr
    · rw [slice_append_right f _ w.length (le_refl _), Nat.sub_self, slice_zero, List.take_left]
      exact ⟨hne, hw⟩
    · have htail := ih (f ++ w)
      rw [List.append_assoc, List.length_append] at htail
      exact htail r hr

theorem spans_solid (l : List α) : ∀ r ∈ spans q l,
    slice l r.1 r.2 ≠ [] ∧ ∀ a ∈ slice l r.1 r.2, q a = false :=
  spansFrom_solid [] l

theorem spans_words (l : List α) : ∀ r ∈ spans q l, words q (slice l r.1 r.2) ≠ [] := by
  intro r hr
  obtain ⟨hne, hsolid⟩ := spans_solid l r hr
  rw [words_of_solid hne hsolid]
  simp

variable (q) in
/-- Nonempty runs of separators, in order from `p` on. -/
def Gaps (l : List α) : ℕ → List (ℕ × ℕ) → Prop
  | _, [] => True
  | p, m :: ms => p ≤ m.1 ∧ m.1 < m.2 ∧ (∀ a ∈ slice l m.1 m.2, q a = true) ∧ Gaps l m.2 ms

theorem Gaps.of_le {l : List α} {o p : ℕ} {ms : List (ℕ × ℕ)} (h : Gaps q l p ms) (ho : o ≤ p) :
    Gaps q l o ms := by
  cases ms with
  | nil => trivial
  | cons m ms => exact ⟨ho.trans h.1, h.2⟩

/-- Nonempty index ranges that walk from `i` up to `n`; behind one that stops at `j` the next may
    start at any `k` with `next j k`. -/
inductive Windows (next : ℕ → ℕ → Prop) (n : ℕ) : ℕ → List (ℕ × ℕ) → Prop
  | done {i : ℕ} (h : n ≤ i) : Windows next n i []
  | step {i j k : ℕ} {ws : List (ℕ × ℕ)} (hlt : i < j) (hj : j ≤ n) (hk : next j k)
    (hrest : Windows next n k ws) : Windows next n i ((i, j) :: ws)

def mergeWindow (rs : List (ℕ × ℕ)) (w : ℕ × ℕ) : ℕ × ℕ :=
  ((rs.getD w.1 (0, 0)).1, (rs.getD (w.2 - 1) (0, 0)).2)

theorem Windows.bounds {next : ℕ → ℕ → Prop} {n i : ℕ} {ws : List (ℕ × ℕ)}
    (h : Windows next n i ws) : ∀ w ∈ ws, w.1 < w.2 ∧ w.2 ≤ n := by
  induction h with
  | done => simp
  | step hlt hj _ _ ih =>
    intro w hw
    rcases List.mem_cons.mp hw with rfl | hw
    · exact ⟨hlt, hj⟩
    · exact ih w hw

theorem Windows.covers {n i u : ℕ} {ws : List (ℕ × ℕ)} (h : Windows (fun j k => k ≤ j) n i ws)
    (hi : i ≤ u) (hu : u < n) : ∃ w ∈ ws, w.1 ≤ u ∧ u < w.2 := by
  induction h with
  | done h => omega
  | @step i j k ws hlt hj hk _ ih =>
    rcases Nat.lt_or_ge u j with hlt' | hge
    · exact ⟨(i, j), by simp, hi, hlt'⟩
    · obtain ⟨w, hw, hin⟩ := ih (hk.trans hge)
      exact ⟨w, by simp [hw], hin⟩

theorem Windows.snoc {n m i : ℕ} {ws : List (ℕ × ℕ)} (h : Windows (fun j k => k = j) n i ws)
    (hi : i ≤ n) (hm : n < m) : Windows (fun j k => k = j) m i (ws ++ [(n, m)]) := by
  induction h with
  | done h =>
    have heq := Nat.le_antisymm hi h
    subst heq
    exact .step hm (le_refl m) rfl (.done (le_refl m))
  | step hlt hj hk _ ih => exact .step hlt (hj.trans hm.le) hk (ih (hk ▸ hj))

theorem Tiles.merge_front {l : List α} {p m : ℕ} {rs : List (ℕ × ℕ)} (h : Tiles q l p rs)
    (hm : m < rs.length) :
    Tiles q l p (((rs.getD 0 (0, 0)).1, (rs.getD m (0, 0)).2) :: rs.drop (m + 1)) := by
  induction rs generalizing p m with
  | nil => simp at hm
  | cons r rs ih =>
    cases m with
    | zero => simpa using h
    | succ m =>
      obtain ⟨hp, hr, hgap, hcut, htail⟩ := h
      obtain ⟨hp', hr', -, hcut', htail'⟩ := ih htail (by simpa using hm)
      refine ⟨hp, ?_, hgap, ?_, ?_⟩
      · change r.1 ≤ (rs.getD m (0, 0)).2
        change r.2 ≤ (rs.getD 0 (0, 0)).1 at hp'
        change (rs.getD 0 (0, 0)).1 ≤ (rs.getD m (0, 0)).2 at hr'
        omega
      · exact hcut'
      · exact htail'

/-- Windows that follow each other without overlap merge a tiling into a coarser one. -/
theorem Tiles.merge {l : List α} {p i : ℕ} {rs ws : List (ℕ × ℕ)} (h : Tiles q l p (rs.drop i))
    (hw : Windows (fun j k => k = j) rs.length i ws) : Tiles q l p (ws.map (mergeWindow rs)) := by
  induction hw generalizing p with
  | done hn => simpa [List.drop_eq_nil_of_le hn] using h
  | @step i j k ws hlt hj hk _ ih =>
    have hj' : j = k := hk.symm
    subst hj'
    have hfront := h.merge_front (m := j - 1 - i) (by simp; omega)
    rw [List.drop_drop, show i + (j - 1 - i + 1) = j by omega] at hfront
    obtain ⟨hp, hr, hgap, hcut, htail⟩ := hfront
    have hidx : ∀ m, (rs.drop i).getD m (0, 0) = rs.getD (i + m) (0, 0) := fun m => by
      simp [List.getD_eq_getElem?_getD]
    simp only [hidx, Nat.add_zero, show i + (j - 1 - i) = j - 1 by omega] at hp hr hgap hcut htail
    exact ⟨hp, hr, hgap, hcut, ih htail⟩

theorem Tiles.le_mergeWindow {l : List α} {p u : ℕ} {rs : List (ℕ × ℕ)} {w : ℕ × ℕ}
    (h : Tiles q l p rs) (hw : w.2 ≤ rs.length) (h1 : w.1 ≤ u) (h2 : u < w.2) :
    (mergeWindow rs w).1 ≤ (rs.getD u (0, 0)).1 ∧ (rs.getD u (0, 0)).2 ≤ (mergeWindow rs w).2 := by
  have hget : ∀ i (hi : i < rs.length), rs.getD i (0, 0) = rs[i] := fun i hi => by
    simp [List.getD_eq_getElem?_getD, hi]
  have hle : ∀ i (hi : i < rs.length), (rs[i]).1 ≤ (rs[i]).2 := fun i hi =>
    (h.le_starts _ (List.getElem_mem hi)).2
  have hord : ∀ i j (hij : i < j) (hj : j < rs.length), (rs[i]).2 ≤ (rs[j]).1 := fun i j hij hj =>
    List.pairwise_iff_getElem.mp h.ordered i j (by omega) hj hij
  simp only [mergeWindow, hget w.1 (by omega), hget (w.2 - 1) (by omega), hget u (by omega)]
  constructor
  · rcases Nat.eq_or_lt_of_le h1 with heq | hlt
    · simp [heq]
    · have := hord w.1 u hlt (by omega)
      have := hle w.1 (by omega)
      omega
  · rcases Nat.eq_or_lt_of_le (Nat.le_sub_one_of_lt h2) with heq | hlt
    · simp [heq]
    · have := hord u (w.2 - 1) hlt (by omega)
      have := hle (w.2 - 1) (by omega)
      omega

theorem Tiles.covers_windows {l : List α} {u : ℕ} {a : α} {rs ws : List (ℕ × ℕ)}
    (h : Tiles q l 0 rs) (hw : Windows (fun j k => k ≤ j) rs.length 0 ws) (hl : l[u]? = some a)
    (ha : q a = false) : ∃ r ∈ ws.map (mergeWindow rs), r.1 ≤ u ∧ u < r.2 := by
  obtain ⟨r, hr, hin⟩ := h.covers (Nat.zero_le u) hl ha
  obtain ⟨i, hi, rfl⟩ := List.mem_iff_getElem.mp hr
  obtain ⟨w, hmem, h1, h2⟩ := hw.covers (Nat.zero_le i) hi
  obtain ⟨hle, hge⟩ := h.le_mergeWindow (hw.bounds w hmem).2 h1 h2
  have hget : rs.getD i (0, 0) = rs[i] := by simp [List.getD_eq_getElem?_getD, hi]
  rw [hget] at hle hge
  exact ⟨_, List.mem_map_of_mem hmem, by omega, by omega⟩

/-- No boundary of a window over a tiling falls inside a word. -/
theorem Tiles.isCut_windows {next : ℕ → ℕ → Prop} {l : List α} {rs ws : List (ℕ × ℕ)}
    (h : Tiles q l 0 rs) (hw : Windows next rs.length 0 ws) :
    ∀ r ∈ ws.map (mergeWindow rs), IsCut q l r.1 ∧ IsCut q l r.2 := by
  intro r hr
  obtain ⟨w, hmem, rfl⟩ := List.mem_map.mp hr
  obtain ⟨hlt, hle⟩ := hw.bounds w hmem
  have hcut : ∀ i, i < rs.length →
      IsCut q l (rs.getD i (0, 0)).1 ∧ IsCut q l (rs.getD i (0, 0)).2 := by
    intro i hi
    have hget : rs.getD i (0, 0) = rs[i] := by simp [List.getD_eq_getElem?_getD, hi]
    obtain ⟨h1, h2, -⟩ := h.isCut (isCut_zero l) _ (List.getElem_mem hi)
    exact hget ▸ ⟨h1, h2⟩
  exact ⟨(hcut w.1 (by omega)).1, (hcut (w.2 - 1) (by omega)).2⟩

theorem trim_window (l : List α) {w : ℕ × ℕ} (hlt : w.1 < w.2) (hle : w.2 ≤ (spans q l).length) :
    slice l (mergeWindow (spans q l) w).1 (mergeWindow (spans q l) w).2 ≠ [] ∧
      trim q (slice l (mergeWindow (spans q l) w).1 (mergeWindow (spans q l) w).2) =
        slice l (mergeWindow (spans q l) w).1 (mergeWindow (spans q l) w).2 := by
  have hget : ∀ i, i < (spans q l).length → ∃ r ∈ spans q l, (spans q l).getD i (0, 0) = r := by
    intro i hi
    exact ⟨_, List.getElem_mem hi, by simp [List.getD_eq_getElem?_getD, hi]⟩
  obtain ⟨first, hfirst, hfirst'⟩ := hget w.1 (by omega)
  obtain ⟨last, hlast, hlast'⟩ := hget (w.2 - 1) (by omega)
  have hord := (spans_tiles (q := q) l).le_mergeWindow hle (Nat.le_sub_one_of_lt hlt)
    (show w.2 - 1 < w.2 by omega)
  rw [hlast'] at hord
  obtain ⟨hne, hsolid⟩ := spans_solid l first hfirst
  obtain ⟨hne', hsolid'⟩ := spans_solid l last hlast
  have hpos := List.length_pos_iff.mpr hne
  have hpos' := List.length_pos_iff.mpr hne'
  rw [slice_length] at hpos hpos'
  have hwindow : mergeWindow (spans q l) w = (first.1, last.2) := by
    rw [mergeWindow, hfirst', hlast']
  rw [hwindow] at hord ⊢
  simp only at hord ⊢
  have hlen : 0 < (slice l first.1 last.2).length := by
    rw [slice_length]
    omega
  refine ⟨List.length_pos_iff.mp hlen, ?_⟩
  apply trim_eq_self
  · intro a ha
    rw [slice, List.head?_drop, List.getElem?_take, if_pos (by omega)] at ha
    exact hsolid a (mem_slice.mpr ⟨first.1, le_refl _, by omega, ha⟩)
  · intro a ha
    have hidx : first.1 + ((slice l first.1 last.2).length - 1) = min last.2 l.length - 1 := by
      rw [slice_length] at hlen ⊢
      omega
    rw [List.getLast?_eq_getElem?] at ha
    simp only [slice, List.getElem?_drop] at ha hidx
    rw [hidx, List.getElem?_take] at ha
    split_ifs at ha
    · exact hsolid' a (mem_slice.mpr ⟨min last.2 l.length - 1, by omega, by omega, ha⟩)
    · simp at ha

variable (q) in
def TilesTo (l : List α) (e : ℕ) : ℕ → List (ℕ × ℕ) → Prop
  | p, [] => p ≤ e ∧ ∀ a ∈ slice l p e, q a = true
  | p, r :: rs =>
    p ≤ r.1 ∧ r.1 ≤ r.2 ∧ (∀ a ∈ slice l p r.1, q a = true) ∧ IsCut q l r.2 ∧ TilesTo l e r.2 rs

theorem TilesTo.widen {l : List α} {p e e' : ℕ} {rs : List (ℕ × ℕ)} (h : TilesTo q l e p rs)
    (he : e ≤ e') (hgap : ∀ a ∈ slice l e e', q a = true) : TilesTo q l e' p rs := by
  induction rs generalizing p with
  | nil =>
    refine ⟨h.1.trans he, fun a ha => ?_⟩
    rw [← slice_append_slice l h.1 he, List.mem_append] at ha
    exact ha.elim (h.2 a) (hgap a)
  | cons r rs ih =>
    obtain ⟨h1, h2, h3, h4, h5⟩ := h
    exact ⟨h1, h2, h3, h4, ih h5⟩

theorem TilesTo.snoc {l : List α} {p e : ℕ} {r : ℕ × ℕ} {rs : List (ℕ × ℕ)}
    (h : TilesTo q l e p rs) (he : e ≤ r.1) (hr : r.1 ≤ r.2)
    (hgap : ∀ a ∈ slice l e r.1, q a = true) (hcut : IsCut q l r.2) :
    TilesTo q l r.2 p (rs ++ [r]) := by
  induction rs generalizing p with
  | nil =>
    refine ⟨h.1.trans he, hr, fun a ha => ?_, hcut, le_refl _, by simp [slice_self]⟩
    rw [← slice_append_slice l h.1 he, List.mem_append] at ha
    exact ha.elim (h.2 a) (hgap a)
  | cons t rs ih =>
    obtain ⟨h1, h2, h3, h4, h5⟩ := h
    exact ⟨h1, h2, h3, h4, ih h5⟩

theorem TilesTo.tiles {l : List α} {p : ℕ} {rs : List (ℕ × ℕ)}
    (h : TilesTo q l l.length p rs) : Tiles q l p rs := by
  induction rs generalizing p with
  | nil =>
    have hgap := h.2
    rwa [slice_to_end] at hgap
  | cons r rs ih =>
    obtain ⟨h1, h2, h3, h4, h5⟩ := h
    exact ⟨h1, h2, h3, h4, ih h5⟩

variable (q) in
def Chained (l : List α) (e : ℕ) : ℕ → List (ℕ × ℕ) → Prop
  | s, [] => s = e
  | s, r :: rs => r.1 = s ∧ s ≤ r.2 ∧ IsCut q l r.2 ∧ Chained l e r.2 rs

theorem Chained.append {l : List α} {s m e : ℕ} {rs ts : List (ℕ × ℕ)}
    (hr : Chained q l m s rs) (ht : Chained q l e m ts) : Chained q l e s (rs ++ ts) := by
  induction rs generalizing s with
  | nil => exact hr ▸ ht
  | cons r rs ih =>
    obtain ⟨h1, h2, h3, h4⟩ := hr
    exact ⟨h1, h2, h3, ih h4⟩

theorem Chained.flatMap {l : List α} {s e : ℕ} {rs : List (ℕ × ℕ)} {f : ℕ × ℕ → List (ℕ × ℕ)}
    (hf : ∀ r : ℕ × ℕ, r.1 ≤ r.2 → IsCut q l r.2 → Chained q l r.2 r.1 (f r))
    (h : Chained q l e s rs) : Chained q l e s (rs.flatMap f) := by
  induction rs generalizing s with
  | nil => exact h
  | cons r rs ih =>
    obtain ⟨rfl, h2, h3, h4⟩ := h
    rw [List.flatMap_cons]
    exact (hf r h2 h3).append (ih h4)

theorem Chained.le {l : List α} {s e : ℕ} {rs : List (ℕ × ℕ)} (h : Chained q l e s rs) :
    s ≤ e := by
  induction rs generalizing s with
  | nil => exact Nat.le_of_eq h
  | cons r rs ih =>
    obtain ⟨-, h2, -, h4⟩ := h
    exact h2.trans (ih h4)

theorem Chained.split {l : List α} {s e : ℕ} {rs ts : List (ℕ × ℕ)}
    (h : Chained q l e s (rs ++ ts)) : ∃ m, Chained q l m s rs ∧ Chained q l e m ts := by
  induction rs generalizing s with
  | nil => exact ⟨s, rfl, h⟩
  | cons r rs ih =>
    obtain ⟨h1, h2, h3, h4⟩ := h
    obtain ⟨m, hm, hrest⟩ := ih h4
    exact ⟨m, ⟨h1, h2, h3, hm⟩, hrest⟩

def hull (rs : List (ℕ × ℕ)) : ℕ × ℕ :=
  ((rs.head?.getD (0, 0)).1, (rs.getLast?.getD (0, 0)).2)

theorem Chained.hull_eq {l : List α} {s e : ℕ} {rs : List (ℕ × ℕ)} (h : Chained q l e s rs)
    (hne : rs ≠ []) : hull rs = (s, e) ∧ IsCut q l e := by
  obtain ⟨rs, r, rfl⟩ := (List.eq_nil_or_concat rs).resolve_left hne
  rw [List.concat_eq_append] at h ⊢
  obtain ⟨m, hm, -, -, hcut, hend⟩ := h.split
  have he : r.2 = e := hend
  have hhead : ((rs ++ [r]).head?.getD (0, 0)).1 = s := by
    cases rs with
    | nil => exact h.1
    | cons t rs => exact h.1
  refine ⟨?_, he ▸ hcut⟩
  rw [hull, hhead, List.getLast?_concat, Option.getD_some, he]

/-- Grouping a chain of ranges gives a chain of wider ranges. -/
theorem Chained.hulls {l : List α} {s e : ℕ} {groups : List (List (ℕ × ℕ))}
    (hne : ∀ g ∈ groups, g ≠ []) (h : Chained q l e s groups.flatten) :
    Chained q l e s (groups.map hull) := by
  induction groups generalizing s with
  | nil => exact h
  | cons g groups ih =>
    rw [List.flatten_cons] at h
    obtain ⟨m, hg, hrest⟩ := h.split
    obtain ⟨hhull, hcut⟩ := hg.hull_eq (hne g List.mem_cons_self)
    rw [List.map_cons]
    refine ⟨by rw [hhull], by rw [hhull]; exact hg.le, by rw [hhull]; exact hcut, ?_⟩
    rw [hhull]
    exact ih (fun g' hg' => hne g' (List.mem_cons_of_mem g hg')) hrest

theorem Chained.of_mem_flatten {l : List α} {s e : ℕ} {groups : List (List (ℕ × ℕ))}
    (h : Chained q l e s groups.flatten) {g : List (ℕ × ℕ)} (hg : g ∈ groups) :
    ∃ s' e', Chained q l e' s' g := by
  obtain ⟨front, back, rfl⟩ := List.append_of_mem hg
  rw [List.flatten_append, List.flatten_cons] at h
  obtain ⟨s', -, hrest⟩ := h.split
  obtain ⟨e', hg', -⟩ := hrest.split
  exact ⟨s', e', hg'⟩

theorem Chained.tiles {l : List α} {s : ℕ} {rs : List (ℕ × ℕ)} (h : Chained q l l.length s rs) :
    Tiles q l s rs := by
  induction rs generalizing s with
  | nil =>
    have hs : s = l.length := h
    simp [Tiles, hs]
  | cons r rs ih =>
    obtain ⟨rfl, h2, h3, h4⟩ := h
    exact ⟨le_refl _, h2, by simp [slice_self], h3, ih h4⟩

end SpacedWords
