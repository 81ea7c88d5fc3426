import Ragent.CellSteps

set_option autoImplicit false

/-!
# The steps around the digits

From the suffix to the cleanup, the steps read only what stands around the digits of the numeral.
-/
namespace Ragent.CellFrames
open SpacedWords PyText FlowText NumericCells Numerals EdgeCuts CellSteps

theorem not_upper_of_isDecimal {c : Char} (h : isDecimal c = true) : c.isUpper = false := by
  have hcode : ∀ n < 128, isDecimal (Char.ofNat n) = true → (Char.ofNat n).isUpper = false := by
    decide +kernel
  by_contra hupper
  have hrange := isUpper_iff.mp (by simpa using hupper)
  have hfalse := hcode c.toNat (by omega) (by rw [Char.ofNat_toNat]; exact h)
  rw [Char.ofNat_toNat] at hfalse
  exact hupper hfalse

theorem toLower_of_isDecimal {c : Char} (h : isDecimal c = true) : c.toLower = c :=
  toLower_of_not_upper (not_upper_of_isDecimal h)

theorem not_isPad_of_isDecimal {c : Char} (h : isDecimal c = true) : isPad c = false := by
  have hnone : ∀ c ∈ ' ' :: currency, isDecimal c = false := forall_of_check (by decide)
  by_contra hpad
  have hmem : c ∈ ' ' :: currency := by
    by_cases hspace : c = ' '
    · exact hspace ▸ List.mem_cons_self
    · simpa [isPad, hspace] using hpad
  rw [hnone c hmem] at h
  cases h

theorem toLower_not_mem {unit : List Char} (hunit : ∀ c ∈ unit, isDecimal c = false) {c : Char}
    (h : isDecimal c = true) : decide (c.toLower ∈ unit) = false := by
  rw [toLower_of_isDecimal h]
  apply decide_eq_false
  intro hmem
  rw [hunit c hmem] at h
  cases h

theorem suffix_append_iff {x y unit : List Char} (hx : ∀ rest a, x = rest ++ [a] → a ∉ unit) :
    unit <:+ x ++ y ↔ unit <:+ y := by
  constructor
  · intro h
    cases List.suffix_or_suffix_of_suffix h (List.suffix_append x y) with
    | inl hunit => exact hunit
    | inr hy =>
      obtain ⟨w, hw⟩ := hy
      rw [← hw, List.suffix_append_self_iff] at h
      induction w using List.reverseRecOn with
      | nil => rw [← hw, List.nil_append]
      | append_singleton w a _ =>
        obtain ⟨rest, hrest⟩ := h
        have hmem : a ∈ unit := by rw [← hw]; simp
        exact absurd hmem (hx (rest ++ w) a (by rw [List.append_assoc, hrest]))
  · intro h
    exact h.trans (List.suffix_append x y)

theorem isSuffixOf_lower {u m v unit : List Char} (hm : Firm isDecimal m)
    (hunit : ∀ c ∈ unit, isDecimal c = false) :
    unit.isSuffixOf (lower (u ++ m ++ v)) = unit.isSuffixOf (lower v) := by
  have hsplit : lower (u ++ m ++ v) = lower (u ++ m) ++ lower v := by simp [lower]
  rw [Bool.eq_iff_iff, List.isSuffixOf_iff_suffix, List.isSuffixOf_iff_suffix, hsplit]
  apply suffix_append_iff
  intro rest a hlast
  obtain ⟨-, body, d, hbody, hd⟩ := hm
  have ha : a = d := by
    have heq : lower (u ++ body) ++ [d.toLower] = rest ++ [a] := by
      rw [← hlast, hbody]
      simp [lower]
    have hinj := (List.append_inj' heq rfl).2
    rw [toLower_of_isDecimal hd] at hinj
    simpa using hinj.symm
  intro hmem
  rw [ha] at hmem
  rw [hunit d hmem] at hd
  cases hd

theorem take_around (u m v : List Char) {n : ℕ} (h : n ≤ v.length) :
    (u ++ m ++ v).take ((u ++ m ++ v).length - n) = u ++ m ++ v.take (v.length - n) := by
  rw [List.length_append, Nat.add_sub_assoc h, List.take_length_add_append]

theorem dropLast_around (u m : List Char) {v w : List Char} {c : Char} (hv : v = w ++ [c]) :
    (u ++ m ++ v).dropLast = u ++ m ++ w := by
  rw [hv, ← List.append_assoc, List.dropLast_concat]

theorem cut_unit (u : List Char) {v unit : List Char} (hunit : ∀ c ∈ unit, isDecimal c = false)
    (hsuffix : unit.isSuffixOf (lower v) = true) :
    ((v.take (v.length - unit.length)).rdropWhile space).filter isDecimal = v.filter isDecimal ∧
      ∀ m, Firm isDecimal m → strip ((u ++ m ++ v).take ((u ++ m ++ v).length - unit.length)) =
        u.dropWhile space ++ m ++ (v.take (v.length - unit.length)).rdropWhile space := by
  have hspace : ∀ c, isDecimal c = true → space c = false := fun c => not_isSpace_of_isDecimal
  have hlength := (List.isSuffixOf_iff_suffix.mp hsuffix).length_le
  have hle : unit.length ≤ v.length := by simpa [lower] using hlength
  constructor
  · rw [(Cut.rdropWhile space _).filter_eq hspace,
      (take_cut hsuffix).filter_eq fun c => toLower_not_mem hunit]
  · intro m hm
    rw [take_around u m v hle]
    exact trim_firm hm hspace

theorem takeSuffix_frames : Frames (Firm isDecimal) isDecimal fun x : Bool × List Char =>
    takeSuffix x.2 := by
  intro b u v
  have hspace : ∀ c, isDecimal c = true → space c = false := fun c => not_isSpace_of_isDecimal
  have hbpsUnit : ∀ c ∈ "bps".toList, isDecimal c = false := forall_of_check (by decide)
  have hbpUnit : ∀ c ∈ "bp".toList, isDecimal c = false := forall_of_check (by decide)
  have hfront := (Cut.dropWhile space u).filter_eq hspace
  by_cases hpercent : v.getLast? = some '%'
  · obtain ⟨w, hw⟩ := List.getLast?_eq_some_iff.mp hpercent
    refine ⟨true, u.dropWhile space, w.rdropWhile space, hfront, ?_, ?_⟩
    · rw [(Cut.rdropWhile space w).filter_eq hspace, hw, List.filter_append]
      simp [show isDecimal '%' = false by decide]
    · intro m hm
      have hlast := (last_firm (u := u) (v := v) hm (by decide)).mpr hpercent
      change takeSuffix (u ++ m ++ v) = _
      unfold takeSuffix
      rw [if_pos hlast, dropLast_around u m hw]
      exact congrArg (Prod.mk true) (trim_firm hm hspace)
  · have hlast : ∀ m, Firm isDecimal m → (u ++ m ++ v).getLast? ≠ some '%' := fun m hm =>
      mt (last_firm hm (by decide)).mp hpercent
    by_cases hbps : "bps".toList.isSuffixOf (lower v) = true
    · have hcut := cut_unit u hbpsUnit hbps
      refine ⟨false, u.dropWhile space, _, hfront, hcut.1, ?_⟩
      intro m hm
      change takeSuffix (u ++ m ++ v) = _
      unfold takeSuffix
      rw [if_neg (hlast m hm), if_pos ((isSuffixOf_lower hm hbpsUnit).trans hbps)]
      exact congrArg (Prod.mk false) (hcut.2 m hm)
    · by_cases hbp : "bp".toList.isSuffixOf (lower v) = true
      · have hcut := cut_unit u hbpUnit hbp
        refine ⟨false, u.dropWhile space, _, hfront, hcut.1, ?_⟩
        intro m hm
        change takeSuffix (u ++ m ++ v) = _
        unfold takeSuffix
        rw [if_neg (hlast m hm), if_neg (by rw [isSuffixOf_lower hm hbpsUnit]; exact hbps),
          if_pos ((isSuffixOf_lower hm hbpUnit).trans hbp)]
        exact congrArg (Prod.mk false) (hcut.2 m hm)
      · refine ⟨false, u, v, rfl, rfl, ?_⟩
        intro m hm
        change takeSuffix (u ++ m ++ v) = _
        unfold takeSuffix
        rw [if_neg (hlast m hm), if_neg (by rw [isSuffixOf_lower hm hbpsUnit]; exact hbps),
          if_neg (by rw [isSuffixOf_lower hm hbpUnit]; exact hbp)]

theorem peel_frames : Frames (Firm isDecimal) isDecimal fun x : Bool × List Char =>
    peel x.1 x.2 := by
  intro b u
  have hspace : ∀ c, isDecimal c = true → space c = false := fun c => not_isSpace_of_isDecimal
  have hclose : isDecimal ')' = false := by decide
  induction hn : u.length using Nat.strong_induction_on generalizing b u with
  | _ n ih =>
  intro v
  cases u with
  | nil =>
    refine ⟨b, [], v, rfl, rfl, ?_⟩
    intro m hm
    obtain ⟨⟨d, rest, hfirst, hd⟩, -⟩ := hm
    have hopen : d ≠ '(' := by
      intro heq
      rw [heq] at hd
      exact absurd hd (by decide)
    rw [hfirst]
    change peel b (d :: (rest ++ v)) = _
    rw [peel, if_neg fun h => hopen h.1]
    rfl
  | cons c u =>
    by_cases hparens : c = '(' ∧ v.getLast? = some ')'
    · obtain ⟨w, hw⟩ := List.getLast?_eq_some_iff.mp hparens.2
      have hshort : (u.dropWhile space).length < n := by
        have hle := (List.dropWhile_suffix space (l := u)).sublist.length_le
        rw [List.length_cons] at hn
        omega
      obtain ⟨b', u', v', hu, hv, hpeel⟩ := ih _ hshort (!b) (u.dropWhile space) rfl
        (w.rdropWhile space)
      rw [(Cut.dropWhile space u).filter_eq hspace] at hu
      rw [(Cut.rdropWhile space w).filter_eq hspace] at hv
      refine ⟨b', u', v', ?_, ?_, ?_⟩
      · rw [hu, hparens.1, List.filter_cons_of_neg (by decide)]
      · rw [hv, hw, List.filter_append]
        simp [hclose]
      · intro m hm
        have hlast := (last_firm (u := u) (v := v) hm hclose).mpr hparens.2
        change peel b (c :: (u ++ m ++ v)) = _
        rw [peel, if_pos ⟨hparens.1, hlast⟩, dropLast_around u m hw]
        exact (congrArg (peel (!b)) (trim_firm hm hspace)).trans (hpeel m hm)
    · refine ⟨b, c :: u, v, rfl, rfl, ?_⟩
      intro m hm
      have hplain : ¬ (c = '(' ∧ (u ++ m ++ v).getLast? = some ')') := by
        rw [last_firm hm hclose]
        exact hparens
      change peel b (c :: (u ++ m ++ v)) = _
      rw [peel, if_neg hplain]
      rfl

theorem takeSign_frames : Frames (Firm isDecimal) isDecimal fun x : Bool × List Char =>
    takeSign x.1 x.2 := by
  intro b u v
  have hspace : ∀ c, isDecimal c = true → space c = false := fun c => not_isSpace_of_isDecimal
  cases u with
  | nil =>
    refine ⟨b, [], v, rfl, rfl, ?_⟩
    intro m hm
    obtain ⟨⟨d, rest, hfirst, hd⟩, -⟩ := hm
    have hsigns : d ≠ '-' ∧ d ≠ '+' := by
      refine ⟨?_, ?_⟩
      · intro heq
        rw [heq] at hd
        exact absurd hd (by decide)
      · intro heq
        rw [heq] at hd
        exact absurd hd (by decide)
    rw [hfirst]
    simp [takeSign, hsigns.1, hsigns.2]
  | cons c u =>
    by_cases hminus : c = '-'
    · refine ⟨!b, u.dropWhile space, v.rdropWhile space, ?_,
        (Cut.rdropWhile space v).filter_eq hspace, ?_⟩
      · rw [(Cut.dropWhile space u).filter_eq hspace, hminus,
          List.filter_cons_of_neg (by decide)]
      · intro m hm
        rw [hminus]
        exact congrArg (Prod.mk _) (trim_firm hm hspace)
    · by_cases hplus : c = '+'
      · refine ⟨b, u.dropWhile space, v.rdropWhile space, ?_,
          (Cut.rdropWhile space v).filter_eq hspace, ?_⟩
        · rw [(Cut.dropWhile space u).filter_eq hspace, hplus,
            List.filter_cons_of_neg (by decide)]
        · intro m hm
          rw [hplus]
          exact congrArg (Prod.mk _) (trim_firm hm hspace)
      · refine ⟨b, c :: u, v, rfl, rfl, ?_⟩
        intro m _
        simp [takeSign, hminus, hplus]

def withoutX (text : List Char) : List Char :=
  if text.getLast? = some 'x' ∨ text.getLast? = some 'X' then text.dropLast else text

theorem dropMultiple_eq (text : List Char) : dropMultiple text =
    if text.getLast? = some '\n' then withoutX text.dropLast ++ ['\n'] else withoutX text := by
  induction text using List.reverseRecOn with
  | nil => rfl
  | append_singleton body c _ =>
    unfold dropMultiple
    rw [List.reverse_concat, List.getLast?_concat, List.dropLast_concat]
    by_cases hfeed : c = '\n'
    · rw [hfeed, if_pos rfl]
      induction body using List.reverseRecOn with
      | nil => rfl
      | append_singleton body c' _ =>
        rw [List.reverse_concat]
        unfold withoutX
        rw [List.getLast?_concat, List.dropLast_concat]
        by_cases hx : c' = 'x'
        · simp [hx]
        · by_cases hX : c' = 'X'
          · simp [hX]
          · simp [hx, hX]
    · rw [if_neg (by simpa using hfeed)]
      unfold withoutX
      rw [List.getLast?_concat, List.dropLast_concat]
      by_cases hx : c = 'x'
      · simp [hx]
      · by_cases hX : c = 'X'
        · simp [hX]
        · simp [hx, hX, hfeed]

theorem withoutX_frames (v : List Char) : ∃ v', v'.filter isDecimal = v.filter isDecimal ∧
    ∀ u m, Firm isDecimal m → withoutX (u ++ m ++ v) = u ++ m ++ v' := by
  have hletters : isDecimal 'x' = false ∧ isDecimal 'X' = false := by decide
  have hiff : ∀ u m, Firm isDecimal m →
      ((u ++ m ++ v).getLast? = some 'x' ∨ (u ++ m ++ v).getLast? = some 'X' ↔
        v.getLast? = some 'x' ∨ v.getLast? = some 'X') := fun u m hm =>
    or_congr (last_firm hm hletters.1) (last_firm hm hletters.2)
  by_cases hx : v.getLast? = some 'x' ∨ v.getLast? = some 'X'
  · have hne : v ≠ [] := by
      intro hnil
      rw [hnil] at hx
      exact hx.elim nofun nofun
    have hsplit := List.dropLast_append_getLast hne
    refine ⟨v.dropLast, ?_, ?_⟩
    · have hlast : isDecimal (v.getLast hne) = false := by
        rw [List.getLast?_eq_some_getLast hne, Option.some_inj, Option.some_inj] at hx
        cases hx with
        | inl hx => exact hx ▸ hletters.1
        | inr hx => exact hx ▸ hletters.2
      conv_rhs => rw [← hsplit, List.filter_append]
      simp [hlast]
    · intro u m hm
      unfold withoutX
      rw [if_pos ((hiff u m hm).mpr hx), List.dropLast_append_of_ne_nil hne]
  · refine ⟨v, rfl, ?_⟩
    intro u m hm
    unfold withoutX
    rw [if_neg (mt (hiff u m hm).mp hx)]

theorem dropMultiple_frames : Frames (σ := Bool) (Firm isDecimal) isDecimal
    (Prod.map id dropMultiple) := by
  intro b u v
  have hfeed : isDecimal '\n' = false := by decide
  by_cases hlast : v.getLast? = some '\n'
  · obtain ⟨w, hw⟩ := List.getLast?_eq_some_iff.mp hlast
    obtain ⟨v', hv, hframes⟩ := withoutX_frames w
    refine ⟨b, u, v' ++ ['\n'], rfl, ?_, ?_⟩
    · rw [hw, List.filter_append, List.filter_append, hv]
    · intro m hm
      have hdrop : (u ++ m ++ v).dropLast = u ++ m ++ w := by
        rw [hw, ← List.append_assoc, List.dropLast_concat]
      rw [Prod.map_apply, dropMultiple_eq, if_pos ((last_firm hm hfeed).mpr hlast), hdrop,
        hframes u m hm, List.append_assoc]
      rfl
  · obtain ⟨v', hv, hframes⟩ := withoutX_frames v
    refine ⟨b, u, v', rfl, hv, ?_⟩
    intro m hm
    rw [Prod.map_apply, dropMultiple_eq, if_neg (mt (last_firm hm hfeed).mp hlast), hframes u m hm]
    rfl

def Digits (m : List Char) : Prop := m ≠ [] ∧ ∀ c ∈ m, isDecimal c = true

theorem Digits.firm {m : List Char} (h : Digits m) : Firm isDecimal m := by
  obtain ⟨hne, hall⟩ := h
  constructor
  · obtain ⟨d, rest, heq⟩ := List.exists_cons_of_ne_nil hne
    exact ⟨d, rest, heq, hall d (by rw [heq]; exact List.mem_cons_self)⟩
  · have heq := List.dropLast_append_getLast hne
    exact ⟨m.dropLast, m.getLast hne, heq.symm, hall _ (List.getLast_mem hne)⟩

theorem kept_of_isDecimal {c : Char} (h : isDecimal c = true) : kept c = true := by
  have hnone : isDecimal ',' = false ∧ isDecimal ' ' = false := by decide
  unfold kept
  rw [Bool.and_eq_true, bne_iff_ne, bne_iff_ne]
  constructor
  · intro heq
    rw [heq, hnone.1] at h
    cases h
  · intro heq
    rw [heq, hnone.2] at h
    cases h

theorem filter_kept_frames : Frames (σ := Bool) Digits isDecimal
    (Prod.map id (List.filter kept)) := by
  intro b u v
  have hfilter : ∀ l : List Char, (l.filter kept).filter isDecimal = l.filter isDecimal := by
    intro l
    rw [List.filter_filter]
    exact List.filter_congr fun c _ => by
      by_cases hc : isDecimal c = true
      · simp [hc, kept_of_isDecimal hc]
      · simp [hc]
  refine ⟨b, u.filter kept, v.filter kept, hfilter u, hfilter v, ?_⟩
  intro m hm
  have hself : m.filter kept = m :=
    List.filter_eq_self.mpr fun c hc => kept_of_isDecimal (hm.2 c hc)
  rw [Prod.map_apply, List.filter_append, List.filter_append, hself]
  rfl

theorem cleaned_frames : Frames (σ := Bool) Digits isDecimal (Prod.map id cleaned) := by
  have hpad : Frames (σ := Bool) Digits isDecimal (Prod.map id (trim isPad)) :=
    (Frames.trim fun c => not_isPad_of_isDecimal).mono fun m => Digits.firm
  exact (dropMultiple_frames.mono fun m => Digits.firm).comp (filter_kept_frames.comp hpad)

/-- What the steps behind the footnotes make of a text. -/
def finish (text : List Char) : Bool × List Char := readNumber (takeSuffix (strip text)).2

theorem finish_frames : Frames Digits isDecimal fun x : Bool × List Char => finish x.2 := by
  have hspace : ∀ c, isDecimal c = true → space c = false := fun c => not_isSpace_of_isDecimal
  have hfirm : ∀ m, Digits m → Firm isDecimal m := fun m => Digits.firm
  have hstrip : Frames (σ := Bool) Digits isDecimal (Prod.map id strip) :=
    (Frames.trim hspace).mono hfirm
  have hdrop : Frames (σ := Bool) Digits isDecimal (Prod.map id (List.dropWhile isPad)) :=
    (Frames.dropWhile fun c => not_isPad_of_isDecimal).mono hfirm
  have hnegative : Frames (σ := Bool) Digits isDecimal (Prod.map (fun _ => false) id) :=
    fun _ u v => ⟨false, u, v, rfl, rfl, fun _ _ => rfl⟩
  exact cleaned_frames.comp ((takeSign_frames.mono hfirm).comp ((peel_frames.mono hfirm).comp
    (hdrop.comp (hnegative.comp ((takeSuffix_frames.mono hfirm).comp hstrip)))))

def notDecimal (c : Char) : Bool := !isDecimal c

section
variable {x m y : List Char} (hm : Digits m) (hy : ∀ c ∈ y, isDecimal c = false)
include hm hy

theorem rdropWhile_behind : (x ++ m ++ y).rdropWhile notDecimal = x ++ m := by
  have hpq : ∀ c, isDecimal c = true → notDecimal c = false := fun c hc => by simp [notDecimal, hc]
  have hdrop : y.rdropWhile notDecimal = [] :=
    List.rdropWhile_eq_nil_iff.mpr fun c hc => by simp [notDecimal, hy c hc]
  rw [rdropWhile_firm hm.firm hpq, hdrop, List.append_nil]

theorem rtakeWhile_behind : (x ++ m ++ y).rtakeWhile notDecimal = y := by
  have hsplit := List.rdropWhile_append_rtakeWhile (p := notDecimal) (l := x ++ m ++ y)
  rw [rdropWhile_behind hm hy] at hsplit
  exact List.append_cancel_left hsplit

end

theorem Digits.of_cons {d : Char} {m : List Char} (hd : isDecimal d = true)
    (hm : ∀ c ∈ m, isDecimal c = true) : Digits (d :: m) :=
  ⟨List.cons_ne_nil d m, fun c hc => (List.mem_cons.mp hc).elim (fun h => h ▸ hd) (hm c)⟩

theorem Mark.digits_ok (k : Mark) : Digits k.digits :=
  ⟨List.ne_nil_of_length_pos k.few.1, k.digits_decimal⟩

theorem Mark.back_not_decimal (k : Mark) :
    ∀ c ∈ k.back ++ k.close :: k.after, isDecimal c = false := by
  have hspace : ∀ {c}, isSpace c = true → isDecimal c = false := by
    intro c hc
    by_contra hd
    rw [not_isSpace_of_isDecimal (by simpa using hd)] at hc
    cases hc
  intro c hc
  simp only [List.mem_append, List.mem_cons] at hc
  obtain hc | hc | hc := hc
  · exact hspace (k.back_space c hc)
  · exact hc ▸ (bracket_not (bracket_of_close k.close_mem)).2
  · exact hspace (k.after_space c hc)

theorem last_digit {text : List Char} (h : ∃ d ∈ text, isDecimal d = true) :
    ∃ u d v, text = u ++ [d] ++ v ∧ text.rdropWhile notDecimal = u ++ [d] ∧ isDecimal d = true ∧
      ∀ c ∈ v, isDecimal c = false := by
  have hsplit := List.rdropWhile_append_rtakeWhile (p := notDecimal) (l := text)
  have hbehind : ∀ c ∈ text.rtakeWhile notDecimal, isDecimal c = false := by
    intro c hc
    simpa [notDecimal] using List.mem_rtakeWhile_imp hc
  cases (text.rdropWhile notDecimal).eq_nil_or_concat with
  | inl hnil =>
    obtain ⟨d, hd, hdigit⟩ := h
    rw [hnil, List.nil_append] at hsplit
    rw [← hsplit] at hd
    rw [hbehind d hd] at hdigit
    cases hdigit
  | inr hlast =>
    obtain ⟨u, d, hu⟩ := hlast
    rw [List.concat_eq_append] at hu
    refine ⟨u, d, text.rtakeWhile notDecimal, ?_, hu, ?_, hbehind⟩
    · rw [← hu, hsplit]
    · have hne : text.rdropWhile notDecimal ≠ [] := by rw [hu]; simp
      have hkeep := List.rdropWhile_last_not notDecimal text hne
      have hlast' : (text.rdropWhile notDecimal).getLast hne = d := by simp [hu]
      rw [hlast'] at hkeep
      simpa [notDecimal] using hkeep

theorem any_isDigit {text : List Char} {d : Char} (hd : isDecimal d = true) (hmem : d ∈ text) :
    text.any isDigit = true :=
  List.any_eq_true.mpr ⟨d, hmem, by simp [isDigit, hd]⟩

theorem isNull_of_digit {text : List Char} {d : Char} (hd : isDecimal d = true) (hmem : d ∈ text) :
    isNull text = false := by
  have hnone : ∀ c ∈ nullTokens.flatten, isDecimal c = false := forall_of_check (by decide)
  by_contra h
  have hnull : lower text ∈ nullTokens := by simpa [isNull] using h
  have hlower : d ∈ lower text := by
    rw [← toLower_of_isDecimal hd]
    exact List.mem_map_of_mem hmem
  rw [hnone d (List.mem_flatten.mpr ⟨_, hnull, hlower⟩)] at hd
  cases hd

end Ragent.CellFrames
