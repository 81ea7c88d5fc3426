import Mathlib.Algebra.Order.BigOperators.Group.List
import Ragent.ApproxTokens
import Ragent.RecursiveChunks

set_option autoImplicit false

/-!
# The budget of recursive chunks

`chunk_recursive` packs pieces by the sum of their counts. The default counter rounds each count,
so what it says of the joined text may be more than the sum.
-/
namespace Ragent.RecursiveBudget
open SpacedWords PyText SourceTypes FlattenedDocument RangeChunks RecursiveChunks ApproxTokens

def IsBreak (c : Char) : Prop := c = ' ' ∨ c = '\n'

theorem separators_break : ∀ sep ∈ separators, IsBreak (sep.text.getLast sep.nonempty) := by
  simp only [separators, List.forall_mem_cons, IsBreak]
  decide

theorem break_separator {c : Char} (h : IsBreak c) : ∃ sep ∈ separators, sep.text = [c] := by
  rcases h with rfl | rfl
  · exact ⟨⟨" ".toList, by decide⟩, by simp [separators], by decide⟩
  · exact ⟨⟨"\n".toList, by decide⟩, by simp [separators], by decide⟩

theorem isSpace_of_isBreak {c : Char} (h : IsBreak c) : isSpace c = true := by
  rcases h with rfl | rfl <;> decide

theorem unsplittable_iff {text : List Char} :
    (∀ sep ∈ separators, ¬ sep.text <:+: text) ↔ ∀ c ∈ text, ¬ IsBreak c := by
  constructor
  · intro h c hc hbreak
    obtain ⟨sep, hsep, heq⟩ := break_separator hbreak
    apply h sep hsep
    obtain ⟨front, back, rfl⟩ := List.append_of_mem hc
    exact ⟨front, back, by simp [heq]⟩
  · intro h sep hsep hin
    exact h _ (hin.subset (List.getLast_mem sep.nonempty)) (separators_break sep hsep)

section
variable (doc : List Char) (countTokens : TokenCounter) (target : ℤ)

def BehindBreak (p : ℕ) : Prop := ∃ k c, p = k + 1 ∧ doc[k]? = some c ∧ IsBreak c

theorem behindBreak_of_find {sep : Separator} (hsep : sep ∈ separators) {start stop found : ℕ}
    (h : find doc sep.text start stop = some found) :
    BehindBreak doc (found + sep.text.length) := by
  obtain ⟨-, -, hslice⟩ := find_spec h
  have hpos := sep.length_pos
  refine ⟨found + (sep.text.length - 1), sep.text.getLast sep.nonempty, by omega, ?_,
    separators_break sep hsep⟩
  have hlast := congrArg (fun l => l[sep.text.length - 1]?) hslice
  simp only [slice, List.getElem?_drop] at hlast
  rw [List.getElem?_take, if_pos (by omega), ← List.getLast?_eq_getElem?] at hlast
  rw [hlast, List.getLast?_eq_some_getLast sep.nonempty]

theorem cutPieces_breaks {sep : Separator} (hsep : sep ∈ separators) (stop cursor : ℕ) :
    ∀ p ∈ cutPieces doc sep stop cursor, p.2 = stop ∨ BehindBreak doc p.2 := by
  induction hn : stop - cursor using Nat.strong_induction_on generalizing cursor with
  | _ n ih =>
    rcases Nat.lt_or_ge cursor stop with hlt | hge
    · rw [cutPieces_of_lt doc sep hlt, plain_char]
      cases hfound : find doc sep.text cursor stop with
      | none => simp
      | some found =>
        have hspec := find_spec hfound
        have hpos := sep.length_pos
        intro p hp
        rcases List.mem_cons.mp hp with rfl | hp
        · exact Or.inr (behindBreak_of_find doc hsep hfound)
        · exact ih _ (by omega) _ rfl p hp
    · rw [cutPieces_of_le doc sep hge]
      simp

theorem splitRecursive_breaks {seps : List Separator} (hseps : ∀ sep ∈ seps, sep ∈ separators)
    (start stop : ℕ) : ∀ p ∈ splitRecursive doc countTokens target seps start stop,
      p.2 = stop ∨ BehindBreak doc p.2 := by
  induction seps generalizing start stop with
  | nil => simp [splitRecursive]
  | cons sep rest ih =>
    have hrest : ∀ sep ∈ rest, sep ∈ separators := fun s hs => hseps s (List.mem_cons_of_mem sep hs)
    unfold splitRecursive
    simp only
    split_ifs
    · simp
    · exact ih hrest start stop
    · intro p hp
      obtain ⟨piece, hpiece, hp⟩ := List.mem_flatMap.mp hp
      rcases ih hrest _ _ p hp with heq | hbreak
      · rw [heq]
        exact cutPieces_breaks doc (hseps sep List.mem_cons_self) stop start piece hpiece
      · exact Or.inr hbreak

/-- Inside the range, in front of its last place, the character does not occur. -/
def OnlyLast (c : Char) (p : ℕ × ℕ) : Prop := ∀ k, p.1 ≤ k → k + 1 < p.2 → doc[k]? ≠ some c

theorem cutPieces_onlyLast {sep : Separator} {c : Char} (hsep : sep.text = [c])
    (stop cursor : ℕ) : ∀ p ∈ cutPieces doc sep stop cursor, OnlyLast doc c p := by
  induction hn : stop - cursor using Nat.strong_induction_on generalizing cursor with
  | _ n ih =>
    rcases Nat.lt_or_ge cursor stop with hlt | hge
    · rw [cutPieces_of_lt doc sep hlt, plain_char, hsep]
      obtain ⟨hfirst, hnone⟩ := @find_char doc c cursor stop
      cases hfound : find doc [c] cursor stop with
      | none =>
        intro p hp
        rw [Option.elim_none, List.mem_singleton] at hp
        subst hp
        intro k hk hlt
        exact hnone hfound k hk (by omega)
      | some found =>
        have hspec := find_spec hfound
        intro p hp
        rcases List.mem_cons.mp hp with rfl | hp
        · intro k hk hlt
          rw [List.length_singleton] at hlt
          exact hfirst found hfound k hk (by omega)
        · rw [List.length_singleton] at hp
          exact ih _ (by omega) _ rfl p hp
    · rw [cutPieces_of_le doc sep hge]
      simp

theorem splitRecursive_onlyLast {seps : List Separator} {start stop : ℕ} (hlt : start < stop)
    {p : ℕ × ℕ} (hp : p ∈ splitRecursive doc countTokens target seps start stop)
    (hover : target < countTokens (slice doc p.1 p.2)) {sep : Separator} (hsep : sep ∈ seps)
    {c : Char} (hc : sep.text = [c]) : OnlyLast doc c p := by
  induction seps generalizing start stop with
  | nil => simp at hsep
  | cons first rest ih =>
    have hpieces := cutPieces_adjoining doc first hlt.le
    -- what the first separator leaves in a piece holds in every range inside it
    have hinside : ∀ {piece : ℕ × ℕ}, first = sep → OnlyLast doc c piece → piece.1 ≤ p.1 →
        p.2 ≤ piece.2 → OnlyLast doc c p := by
      intro piece _ honly h1 h2 k hk hlt
      exact honly k (h1.trans hk) (by omega)
    unfold splitRecursive at hp
    simp only [plain_char] at hp
    split_ifs at hp with hfit hone
    · rw [List.mem_singleton] at hp
      subst hp
      exact absurd hfit (not_le.mpr hover)
    · have hsub := (splitRecursive_adjoining doc countTokens target rest hlt).inside p hp
      rcases List.mem_cons.mp hsep with rfl | hsep
      · -- the only piece is the range itself
        have hmem : (start, stop) ∈ cutPieces doc sep stop start := by
          rw [hpieces.eq_singleton hone hlt]
          exact List.mem_singleton_self _
        exact hinside rfl (cutPieces_onlyLast doc hc stop start _ hmem) hsub.1 hsub.2.2
      · exact ih hlt hp hsep
    · obtain ⟨piece, hpiece, hp⟩ := List.mem_flatMap.mp hp
      have hne := (hpieces.inside piece hpiece).2.1
      have hsub := (splitRecursive_adjoining doc countTokens target rest hne).inside p hp
      rcases List.mem_cons.mp hsep with rfl | hsep
      · exact hinside rfl (cutPieces_onlyLast doc hc stop start piece hpiece) hsub.1 hsub.2.2
      · exact ih hne hp hsep

/-- The split cuts the range into ranges, and one above the budget has no break but at its end. -/
theorem split_partitions_the_range (seps : List Separator) {start stop : ℕ} (hlt : start < stop) :
    RangePartitions.Partition start stop
        (splitRecursive doc countTokens target seps start stop) ∧
      ∀ p ∈ splitRecursive doc countTokens target separators start stop,
        target < countTokens (slice doc p.1 p.2) →
          ∀ k, p.1 ≤ k → k + 1 < p.2 → doc[k]? ≠ some '\n' ∧ doc[k]? ≠ some ' ' := by
  constructor
  · exact (splitRecursive_adjoining doc countTokens target seps hlt).partition hlt
  · intro p hp hover k hk hinside
    have hnever : ∀ c, IsBreak c → doc[k]? ≠ some c := by
      intro c hbreak
      cases break_separator hbreak with
      | intro sep hsep =>
        apply splitRecursive_onlyLast doc countTokens target hlt hp hover hsep.1 hsep.2
        · exact hk
        · exact hinside
    exact ⟨hnever '\n' (Or.inr rfl), hnever ' ' (Or.inl rfl)⟩

theorem two_words_are_partitioned :
    RangePartitions.Partition 0 7
        (splitRecursive "one two".toList wordCount 0 separators 0 7) ∧
      ∀ p ∈ splitRecursive "one two".toList wordCount 0 separators 0 7,
        0 < wordCount (slice "one two".toList p.1 p.2) →
          ∀ k, p.1 ≤ k → k + 1 < p.2 →
            "one two".toList[k]? ≠ some '\n' ∧ "one two".toList[k]? ≠ some ' ' :=
  split_partitions_the_range "one two".toList wordCount 0 separators (by decide)

end

section
variable {isWord : Char → Bool} (hword : WordsAreSolid isWord) (doc : List Char)
include hword

theorem tokens_chained {s e : ℕ} {rs : List (ℕ × ℕ)} (h : Chained space doc e s rs) :
    tokens isWord (slice doc s e) =
      (rs.map fun p => tokens isWord (slice doc p.1 p.2)).sum := by
  induction rs generalizing s with
  | nil =>
    have hs : s = e := h
    rw [hs, slice_self]
    rfl
  | cons r rs ih =>
    obtain ⟨rfl, h2, h3, h4⟩ := h
    rw [List.map_cons, List.sum_cons, ← ih h4, ← slice_append_slice doc h2 h4.le]
    exact tokens_append hword (h3.slice_apart r.1 e)

theorem exists_solid_of_tokens {s e : ℕ} (h : tokens isWord (slice doc s e) ≠ 0) :
    ∃ k c, s ≤ k ∧ k < e ∧ doc[k]? = some c ∧ isSpace c = false := by
  by_contra hnone
  apply h
  apply tokens_of_spaces hword
  intro c hc
  obtain ⟨k, hk, hlt, hget⟩ := mem_slice.mp hc
  by_contra hsolid
  exact hnone ⟨k, c, hk, hlt, hget, by simpa using hsolid⟩

/-- Where the joined text has no break, one part of any cut behind a break has no tokens. -/
theorem tokens_zero_of_unbroken {s m e : ℕ} (hm : m = doc.length ∨ BehindBreak doc m)
    (hfree : ∀ c ∈ strip (slice doc s e), ¬ IsBreak c) (hsm : s ≤ m) (hme : m ≤ e) :
    tokens isWord (slice doc s m) = 0 ∨ tokens isWord (slice doc m e) = 0 := by
  rcases hm with rfl | ⟨k, c, rfl, hc, hbreak⟩
  · have hnil : slice doc doc.length e = [] := by simp [slice, List.drop_eq_nil_of_le]
    rw [hnil]
    exact Or.inr rfl
  · by_contra hboth
    rw [not_or] at hboth
    obtain ⟨i, a, hi, hi', ha, hsolid⟩ := exists_solid_of_tokens hword doc hboth.1
    obtain ⟨j, b, hj, hj', hb, hsolid'⟩ := exists_solid_of_tokens hword doc hboth.2
    have hget : ∀ {u x}, s ≤ u → u < e → doc[u]? = some x →
        (slice doc s e)[u - s]? = some x := by
      intro u x hu hlt hx
      rw [slice, List.getElem?_drop, List.getElem?_take, Nat.add_sub_cancel' hu, if_pos hlt, hx]
    apply hfree c _ hbreak
    exact mem_trim_of_between (hget hi (by omega) ha) (hget (by omega) (by omega) hc)
      (hget (by omega) hj' hb) (by omega) (by omega) hsolid hsolid'

end

/-- Where every cut of a list leaves one side without weight, all of the weight is in one place. -/
theorem sum_mem_of_cuts {l : List ℕ} (hne : l ≠ [])
    (h : ∀ xs ys, l = xs ++ ys → xs ≠ [] → ys ≠ [] → xs.sum = 0 ∨ ys.sum = 0) : l.sum ∈ l := by
  induction l with
  | nil => exact absurd rfl hne
  | cons n l ih =>
    cases l with
    | nil => simp
    | cons m l =>
      rcases h [n] (m :: l) rfl (by simp) (by simp) with hzero | hzero
      · have hn : n = 0 := by simpa using hzero
        rw [List.sum_cons, hn, Nat.zero_add]
        apply List.mem_cons_of_mem
        apply ih (by simp)
        intro xs ys heq hxs hys
        have hcut := h (n :: xs) ys (by rw [heq, List.cons_append]) (by simp) hys
        rwa [List.sum_cons, hn, Nat.zero_add] at hcut
      · rw [List.sum_cons, hzero, Nat.add_zero]
        exact List.mem_cons_self

section
variable (isWord : Char → Bool) (target : ℤ)

def pieceTokens (doc : List Char) : List ℕ :=
  (splitRecursive doc (approxTokens isWord) target separators 0 doc.length).map fun p =>
    tokens isWord (slice doc p.1 p.2)

/-- Packed by their rounded counts, no several pieces measure more than the target once joined. -/
def RoundingFits (counts : List ℕ) : Prop :=
  ∀ run ∈ NextFit.runs (fun n => (roundTokens n : ℤ)) target counts,
    2 ≤ run.length → (roundTokens run.sum : ℤ) ≤ target

instance (counts : List ℕ) : Decidable (RoundingFits target counts) :=
  inferInstanceAs (Decidable (∀ run ∈ NextFit.runs (fun n => (roundTokens n : ℤ)) target counts, _))

/-- Every chunk fits the target, or is text that no separator splits. -/
def KeepsBudget (blocks : List (SourceBlock Char)) : Prop :=
  ∀ c ∈ chunkRecursive (approxTokens isWord) target 0 blocks,
    c.tokenCount ≤ target ∨ ∀ sep ∈ separators, ¬ sep.text <:+: c.text

def documentRuns (doc : List Char) : List (List (ℕ × ℕ)) :=
  packedRuns doc (approxTokens isWord) target
    (splitRecursive doc (approxTokens isWord) target separators 0 doc.length)

variable {isWord} (hword : WordsAreSolid isWord) (doc : List Char)
include hword

theorem tokenRuns_eq : NextFit.runs (fun n => (roundTokens n : ℤ)) target
      (pieceTokens isWord target doc) =
    (documentRuns isWord target doc).map
      (List.map fun p => tokens isWord (slice doc p.1 p.2)) := by
  rw [pieceTokens, NextFit.runs_map, documentRuns, packedRuns]
  congr
  funext p
  rw [plain_char, approxTokens_eq hword]

omit hword in
theorem documentRuns_spec {run : List (ℕ × ℕ)} (hrun : run ∈ documentRuns isWord target doc) :
    run ≠ [] ∧ Chained space doc (hull run).2 (hull run).1 run ∧
      run ⊆ splitRecursive doc (approxTokens isWord) target separators 0 doc.length := by
  have hne := NextFit.runsFrom_ne_nil _ target run hrun
  have hflat : (documentRuns isWord target doc).flatten =
      splitRecursive doc (approxTokens isWord) target separators 0 doc.length :=
    NextFit.runs_flatten _ _ _
  have hall := split_chained doc (approxTokens isWord) target
  rw [← hflat] at hall ⊢
  obtain ⟨s, e, hchain⟩ := hall.of_mem_flatten hrun
  rw [(hchain.hull_eq hne).1]
  exact ⟨hne, hchain, fun p hp => List.mem_flatten.mpr ⟨run, hrun, hp⟩⟩

theorem tokenCount_run (spans : List (Span Char)) (seq : ℕ) {run : List (ℕ × ℕ)}
    (hrun : run ∈ documentRuns isWord target doc) :
    (rangeChunk doc spans "recursive" (approxTokens isWord) seq (hull run)).tokenCount =
      roundTokens (run.map fun p => tokens isWord (slice doc p.1 p.2)).sum := by
  obtain ⟨-, hchain, -⟩ := documentRuns_spec target doc hrun
  change approxTokens isWord (plain (strip _)) = _
  rw [plain_char, approxTokens_eq hword, tokens_strip hword, tokens_chained hword doc hchain]

/-- Several pieces that join to unbroken text are within the budget: all their tokens are in one
    of them. -/
theorem unbroken_run_fits {run : List (ℕ × ℕ)} (hrun : run ∈ documentRuns isWord target doc)
    (hlen : 2 ≤ run.length)
    (hfree : ∀ c ∈ strip (slice doc (hull run).1 (hull run).2), ¬ IsBreak c) :
    (roundTokens (run.map fun p => tokens isWord (slice doc p.1 p.2)).sum : ℤ) ≤ target := by
  obtain ⟨hne, hchain, hsub⟩ := documentRuns_spec target doc hrun
  generalize hull run = r at hchain hfree
  have hone : (run.map fun p => tokens isWord (slice doc p.1 p.2)).sum ∈
      run.map fun p => tokens isWord (slice doc p.1 p.2) := by
    apply sum_mem_of_cuts (by simpa using hne)
    intro xs ys heq hxs _
    obtain ⟨front, back, rfl, rfl, rfl⟩ := List.map_eq_append_iff.mp heq
    obtain ⟨m, hfront, hback⟩ := hchain.split
    have hend : m = doc.length ∨ BehindBreak doc m := by
      obtain ⟨hhull, -⟩ := hfront.hull_eq (by simpa using hxs)
      obtain ⟨init, last, rfl⟩ := (List.eq_nil_or_concat front).resolve_left (by simpa using hxs)
      have hlast : last.2 = m := by
        have hsnd := congrArg Prod.snd hhull
        simpa [hull] using hsnd
      rw [← hlast]
      apply splitRecursive_breaks doc (approxTokens isWord) target (fun _ h => h) 0 doc.length
      apply hsub
      simp
    rw [← tokens_chained hword doc hfront, ← tokens_chained hword doc hback]
    exact tokens_zero_of_unbroken hword doc hend hfree hfront.le hback.le
  have hwithin := NextFit.runs_within _ target hrun hlen
  obtain ⟨p, hp, hsum⟩ := List.mem_map.mp hone
  rw [← hsum]
  have hcost : (roundTokens (tokens isWord (slice doc p.1 p.2)) : ℤ) =
      approxTokens isWord (plain (slice doc p.1 p.2)) := by
    rw [plain_char, approxTokens_eq hword]
  rw [hcost]
  apply le_trans _ hwithin
  apply List.single_le_sum
  · intro cost hcost
    obtain ⟨q, -, rfl⟩ := List.mem_map.mp hcost
    rw [approxTokens_eq hword]
    exact Int.natCast_nonneg _
  · exact List.mem_map_of_mem hp

omit hword in
/-- A piece above the budget has no break but at its end, so its text is unbroken. -/
theorem piece_unbroken {p : ℕ × ℕ}
    (hp : p ∈ splitRecursive doc (approxTokens isWord) target separators 0 doc.length)
    (hover : target < approxTokens isWord (slice doc p.1 p.2)) :
    ∀ c ∈ strip (slice doc p.1 p.2), ¬ IsBreak c := by
  intro c hc hbreak
  have hne : trim space (slice doc p.1 p.2) ≠ [] := List.ne_nil_of_mem hc
  obtain ⟨front, back, hsplit, -⟩ := trim_split hne
  have hdoc : 0 < doc.length := by
    have hpos := List.length_pos_of_mem hc
    have hlen := congrArg List.length hsplit
    simp only [slice_length, List.length_append] at hlen
    change 0 < (trim space (slice doc p.1 p.2)).length at hpos
    omega
  obtain ⟨sep, hsep, heq⟩ := break_separator hbreak
  have honly := splitRecursive_onlyLast doc (approxTokens isWord) target hdoc hp hover hsep heq
  have hlast := trim_getLast hne
  change c ∈ trim space (slice doc p.1 p.2) at hc
  generalize trim space (slice doc p.1 p.2) = text at hc hne hlast hsplit
  obtain ⟨i, hi, hget⟩ := List.mem_iff_getElem.mp hc
  have hinner : i + 1 < text.length := by
    by_contra hend
    have hpos : i = text.length - 1 := by omega
    subst hpos
    rw [← List.getLast_eq_getElem hne] at hget
    rw [hget] at hlast
    have hspace := isSpace_of_isBreak hbreak
    change isSpace c = false at hlast
    simp [hspace] at hlast
  have hlen := congrArg List.length hsplit
  simp only [slice_length, List.length_append] at hlen
  apply honly (p.1 + (front.length + i)) (by omega) (by omega)
  have hat : (slice doc p.1 p.2)[front.length + i]? = some c := by
    rw [hsplit, List.append_assoc, List.getElem?_append_right (by omega), Nat.add_sub_cancel_left,
      List.getElem?_append_left hi, List.getElem?_eq_getElem hi, hget]
  rw [slice, List.getElem?_drop, List.getElem?_take, if_pos (by omega)] at hat
  exact hat

omit hword in
theorem chunkRecursive_runs (blocks : List (SourceBlock Char)) :
    chunkRecursive (approxTokens isWord) target 0 blocks =
      (((documentRuns isWord target (flatten (prepare blocks)).1).map hull).filter
        (notBlank (flatten (prepare blocks)).1)).mapIdx
          (rangeChunk (flatten (prepare blocks)).1 (flatten (prepare blocks)).2 "recursive"
            (approxTokens isWord)) := by
  have hflat := flatten_flattened (prepare blocks)
  rw [chunkRecursive, if_neg (lt_irrefl 0)]
  unfold packedChunks
  simp only
  generalize (flatten (prepare blocks)).1 = doc at hflat
  generalize (flatten (prepare blocks)).2 = spans at hflat
  split_ifs with hdoc
  · rw [List.isEmpty_iff.mp hdoc]
    have hblank : ∀ r ∈ (documentRuns isWord target []).map hull, ¬ notBlank ([] : List Char) r = true := by
      intro r _
      simp [notBlank, slice, words_nil]
    rw [List.filter_eq_nil_iff.mpr hblank]
    rfl
  · rw [packPieces_eq, appendRanges_eq "recursive" _ hflat, List.nil_append]
    simp only [List.length_nil, Nat.zero_add]
    rfl

theorem keepsBudget_iff_runs (blocks : List (SourceBlock Char)) :
    KeepsBudget isWord target blocks ↔
      ∀ run ∈ documentRuns isWord target (flatten (prepare blocks)).1,
        notBlank (flatten (prepare blocks)).1 (hull run) = true →
        (roundTokens (run.map fun p =>
            tokens isWord (slice (flatten (prepare blocks)).1 p.1 p.2)).sum : ℤ) ≤ target ∨
          ∀ c ∈ strip (slice (flatten (prepare blocks)).1 (hull run).1 (hull run).2),
            ¬ IsBreak c := by
  rw [KeepsBudget, chunkRecursive_runs]
  generalize (flatten (prepare blocks)).1 = doc
  generalize (flatten (prepare blocks)).2 = spans
  constructor
  · intro h run hrun hblank
    have hmem : hull run ∈ ((documentRuns isWord target doc).map hull).filter (notBlank doc) :=
      List.mem_filter.mpr ⟨List.mem_map_of_mem hrun, hblank⟩
    obtain ⟨i, hi, hget⟩ := List.mem_iff_getElem.mp hmem
    have hchunk := h _ (List.mem_mapIdx.mpr ⟨i, hi, rfl⟩)
    rw [hget, tokenCount_run target hword doc spans i hrun, unsplittable_iff] at hchunk
    exact hchunk
  · intro h c hc
    obtain ⟨i, hi, rfl⟩ := List.mem_mapIdx.mp hc
    obtain ⟨hmem, hblank⟩ := List.mem_filter.mp (List.getElem_mem hi)
    obtain ⟨run, hrun, heq⟩ := List.mem_map.mp hmem
    rw [← heq] at hblank ⊢
    rw [tokenCount_run target hword doc spans i hrun, unsplittable_iff]
    exact h run hrun hblank

theorem roundingFits_iff_runs : RoundingFits target (pieceTokens isWord target doc) ↔
    ∀ run ∈ documentRuns isWord target doc, 2 ≤ run.length →
      (roundTokens (run.map fun p => tokens isWord (slice doc p.1 p.2)).sum : ℤ) ≤ target := by
  rw [RoundingFits, tokenRuns_eq target hword]
  simp only [List.forall_mem_map, List.length_map]

theorem tokens_blank_run {run : List (ℕ × ℕ)} (hrun : run ∈ documentRuns isWord target doc)
    (hblank : ¬ notBlank doc (hull run) = true) :
    (run.map fun p => tokens isWord (slice doc p.1 p.2)).sum = 0 := by
  obtain ⟨-, hchain, -⟩ := documentRuns_spec target doc hrun
  rw [← tokens_chained hword doc hchain]
  apply tokens_of_spaces hword
  rw [notBlank_iff, not_not] at hblank
  exact words_eq_nil_iff.mp hblank

/-- The chunks keep the budget exactly if rounding leaves every run of several pieces within it. -/
theorem budget_kept_iff (htarget : 1 ≤ target) (blocks : List (SourceBlock Char)) :
    KeepsBudget isWord target blocks ↔
      RoundingFits target (pieceTokens isWord target (flatten (prepare blocks)).1) := by
  rw [keepsBudget_iff_runs target hword, roundingFits_iff_runs target hword]
  generalize (flatten (prepare blocks)).1 = doc
  constructor
  · intro h run hrun hlen
    by_cases hblank : notBlank doc (hull run) = true
    · rcases h run hrun hblank with hfits | hfree
      · exact hfits
      · exact unbroken_run_fits target hword doc hrun hlen hfree
    · have hzero : (roundTokens 0 : ℤ) = 0 := rfl
      rw [tokens_blank_run target hword doc hrun hblank]
      omega
  · intro h run hrun _
    obtain ⟨hne, -, hsub⟩ := documentRuns_spec target doc hrun
    by_cases hlen : 2 ≤ run.length
    · exact Or.inl (h run hrun hlen)
    · obtain ⟨p, rfl⟩ : ∃ p, run = [p] := by
        have hpos := List.length_pos_iff.mpr hne
        exact List.length_eq_one_iff.mp (by omega)
      by_cases hfits : approxTokens isWord (slice doc p.1 p.2) ≤ target
      · rw [approxTokens_eq hword] at hfits
        exact Or.inl (by simpa using hfits)
      · exact Or.inr (piece_unbroken target doc (hsub (List.mem_singleton_self p))
          (Int.not_le.mp hfits))

end

/-- `\w` in ASCII. -/
def asciiWord (c : Char) : Bool :=
  let n := c.toNat
  (48 ≤ n && n ≤ 57) || (65 ≤ n && n ≤ 90) || n == 95 || (97 ≤ n && n ≤ 122)

theorem asciiWord_solid : WordsAreSolid asciiWord := by
  intro c hc
  simp only [asciiWord, isSpace, Bool.or_eq_true, Bool.and_eq_true, decide_eq_true_eq,
    beq_iff_eq, Bool.or_eq_false_iff, Bool.and_eq_false_iff, decide_eq_false_iff_not,
    beq_eq_false_iff_ne] at hc ⊢
  omega

def threeLines : List (SourceBlock Char) :=
  [SourceBlock.paragraph "a" 0 "a b c" 0, SourceBlock.paragraph "b" 1 "d e f" 6,
    SourceBlock.paragraph "c" 2 "g h i" 12]

theorem three_lines_keep_budget : KeepsBudget asciiWord 8 threeLines :=
  (budget_kept_iff 8 asciiWord_solid (by decide) threeLines).mpr (by decide +kernel)

def tenLetters : List (SourceBlock Char) :=
  [SourceBlock.paragraph "a" 0 "a b c d e f g h i j" 0]

/-- Ten words of one token each fill a chunk of ten tokens; together they are thirteen. -/
theorem ten_letters_break_budget : ¬ ∀ c ∈ chunkRecursive (approxTokens asciiWord) 10 0 tenLetters,
    c.tokenCount ≤ 10 ∨ ∀ sep ∈ separators, ¬ sep.text <:+: c.text := by
  decide +kernel

end Ragent.RecursiveBudget
