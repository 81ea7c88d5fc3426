import Mathlib.Algebra.Order.BigOperators.Group.List
import Mathlib.Algebra.Order.Ring.Nat
import Ragent.EventStream

set_option autoImplicit false

/-!
# Cuts inside a line ending

Each read is normalised on its own, so a CRLF that is cut counts as two line endings. The text that
was meant is kept here along with a note of which of its line endings were doubled.
-/
namespace Ragent.StreamCuts
open Formats EventStream

def cutAfter : List Char → List (Char × Bool)
  | [] => []
  | c :: text => (c, text.isEmpty) :: cutAfter text

/-- `normalise` with a mark on each line ending whose CRLF is cut. -/
def mark : List (Char × Bool) → List (Char × Bool)
  | [] => []
  | ('\r', isCut) :: ('\n', _) :: text => ('\n', isCut) :: mark text
  | (c, _) :: text => (if c = '\r' then '\n' else c, false) :: mark text

def doubled (m : Char × Bool) : List Char := if m.1 = '\n' ∧ m.2 = true then ['\n', '\n'] else [m.1]

theorem mark_cons {c : Char} {isCut : Bool} {text : List (Char × Bool)}
    (h : c = '\r' → (text.head?.map (·.1)) ≠ some '\n') :
    mark ((c, isCut) :: text) = (if c = '\r' then '\n' else c, false) :: mark text := by
  apply mark.eq_3
  intro other rest htext hc
  exact h hc (htext ▸ rfl)

theorem normalise_cons {c : Char} {text : List Char} (h : c = '\r' → text.head? ≠ some '\n') :
    normalise (c :: text) = (if c = '\r' then '\n' else c) :: normalise text := by
  apply normalise.eq_3
  intro rest hc htext
  exact h hc (htext ▸ rfl)

theorem cutAfter_fst (text : List Char) : (cutAfter text).map (·.1) = text := by
  induction text with
  | nil => rfl
  | cons c text ih => rw [cutAfter, List.map_cons, ih]

theorem flatMap_cutAfter_fst (texts : List (List Char)) :
    (texts.flatMap cutAfter).map (·.1) = texts.flatten := by
  induction texts with
  | nil => rfl
  | cons text texts ih =>
    rw [List.flatMap_cons, List.map_append, cutAfter_fst, ih, List.flatten_cons]

theorem mark_fst (text : List (Char × Bool)) :
    (mark text).map (·.1) = normalise (text.map (·.1)) := by
  fun_induction mark text with
  | case1 => rfl
  | case2 isCut other text ih => rw [List.map_cons, ih]; rfl
  | case3 c isCut text hsingle ih =>
    have hcons : normalise (c :: text.map (·.1)) =
        (if c = '\r' then '\n' else c) :: normalise (text.map (·.1)) := by
      apply normalise_cons
      intro hc hhead
      cases text with
      | nil => cases hhead
      | cons m text =>
        have hm : m = ('\n', m.2) := by rw [← Option.some.inj hhead]
        exact hsingle m.2 text (by rw [← hm]) hc
    rw [List.map_cons, List.map_cons, ih, hcons]

theorem doubled_mark_cutAfter (text : List Char) (behind : List (Char × Bool)) :
    (mark (cutAfter text ++ behind)).flatMap doubled =
      normalise text ++ (mark behind).flatMap doubled := by
  fun_induction normalise text with
  | case1 => rfl
  | case2 text ih =>
    change (('\n', false) :: mark (cutAfter text ++ behind)).flatMap doubled = _
    rw [List.flatMap_cons, ih]
    rfl
  | case3 c text hsingle ih =>
    by_cases hcut : c = '\r' ∧ (cutAfter text ++ behind).head?.map (·.1) = some '\n'
    · obtain ⟨rfl, hhead⟩ := hcut
      cases text with
      | cons d text =>
        have hd : d = '\n' := Option.some.inj hhead
        exact absurd (by rw [hd]) (hsingle text rfl)
      | nil =>
        cases behind with
        | nil => cases hhead
        | cons m behind =>
          have hm : m = ('\n', m.2) := by rw [← Option.some.inj hhead]
          have hbehind : mark (('\n', m.2) :: behind) = ('\n', false) :: mark behind :=
            mark_cons fun hc => absurd hc (by decide)
          rw [hm, hbehind, List.flatMap_cons]
          change (('\n', true) :: mark behind).flatMap doubled = _
          rw [List.flatMap_cons]
          rfl
    · have hcons : mark ((c, text.isEmpty) :: (cutAfter text ++ behind)) =
          (if c = '\r' then '\n' else c, false) :: mark (cutAfter text ++ behind) := by
        apply mark_cons
        intro hc hhead
        exact hcut ⟨hc, hhead⟩
      rw [cutAfter, List.cons_append, hcons, List.flatMap_cons, ih]
      simp [doubled]

theorem doubled_mark (texts : List (List Char)) :
    (mark (texts.flatMap cutAfter)).flatMap doubled = (texts.map normalise).flatten := by
  induction texts with
  | nil => rfl
  | cons text texts ih =>
    rw [List.flatMap_cons, doubled_mark_cutAfter, ih, List.map_cons, List.flatten_cons]

def markedLines : List Char → List (Char × Bool) → List (List Char × Bool)
  | _, [] => []
  | line, m :: text =>
    if m.1 = '\n' then (line, m.2) :: markedLines [] text else markedLines (line ++ [m.1]) text

/-- A doubled line ending leaves an empty line behind. -/
def withBreak (l : List Char × Bool) : List (List Char) := if l.2 then [l.1, []] else [l.1]

theorem terminated_fst (text : List (Char × Bool)) (line : List Char) :
    terminated line (text.map (·.1)) = (markedLines line text).map (·.1) := by
  induction text generalizing line with
  | nil => rfl
  | cons m text ih =>
    rw [List.map_cons, terminated_cons, markedLines]
    by_cases hm : m.1 = '\n'
    · rw [if_pos hm, if_pos hm, ih, List.map_cons]
    · rw [if_neg hm, if_neg hm, ih]

theorem terminated_doubled (text : List (Char × Bool)) (line : List Char) :
    terminated line (text.flatMap doubled) = (markedLines line text).flatMap withBreak := by
  induction text generalizing line with
  | nil => rfl
  | cons m text ih =>
    rw [List.flatMap_cons, markedLines]
    by_cases hm : m.1 = '\n'
    · rw [if_pos hm, List.flatMap_cons, ← ih]
      by_cases hcut : m.2 = true
      · have hdoubled : doubled m = ['\n', '\n'] := if_pos ⟨hm, hcut⟩
        simp [hdoubled, hcut, withBreak, terminated_cons]
      · have hdoubled : doubled m = ['\n'] := by simp [doubled, hm, hcut]
        simp [hdoubled, hcut, withBreak, terminated_cons]
    · have hdoubled : doubled m = [m.1] := by simp [doubled, hm]
      rw [if_neg hm, ← ih, hdoubled, List.singleton_append, terminated_cons, if_neg hm]

/-- The lines of the frames that an empty line has closed, and those of the frame begun. -/
def frameGroups : List (List Char × Bool) → List (List Char × Bool) →
    List (List (List Char × Bool)) × List (List Char × Bool)
  | pending, [] => ([], pending)
  | pending, l :: lines =>
    if l.1 = [] then
      let groups := frameGroups [] lines
      (pending :: groups.1, groups.2)
    else frameGroups (pending ++ [l]) lines

/-- The pieces a frame has broken into, and the one still open. -/
def breakAt (s : List (List (List Char)) × List (List Char)) (l : List Char × Bool) :
    List (List (List Char)) × List (List Char) :=
  if l.2 then (s.1 ++ [s.2 ++ [l.1]], []) else (s.1, s.2 ++ [l.1])

def broken (frame : List (List Char × Bool)) : List (List (List Char)) × List (List Char) :=
  frame.foldl breakAt ([], [])

def pieces (frame : List (List Char × Bool)) : List (List (List Char)) :=
  (broken frame).1 ++ [(broken frame).2]

theorem broken_concat (frame : List (List Char × Bool)) (l : List Char × Bool) :
    broken (frame ++ [l]) = breakAt (broken frame) l := by
  rw [broken, List.foldl_append]
  rfl

theorem callsOf_fst (lines pending : List (List Char × Bool)) :
    callsOf (pending.map (·.1)) (lines.map (·.1)) =
      (frameGroups pending lines).1.flatMap fun frame => (readFrame (frame.map (·.1))).toList := by
  induction lines generalizing pending with
  | nil => rfl
  | cons l lines ih =>
    rw [List.map_cons, callsOf, frameGroups]
    by_cases hl : l.1 = []
    · rw [if_pos hl, if_pos hl, List.flatMap_cons, ← ih]
      rfl
    · rw [if_neg hl, if_neg hl, ← ih, List.map_append]
      rfl

theorem callsOf_withBreak (lines pending : List (List Char × Bool)) :
    (broken pending).1.filterMap readFrame ++
        callsOf (broken pending).2 (lines.flatMap withBreak) =
      ((frameGroups pending lines).1.flatMap fun frame => (pieces frame).filterMap readFrame) ++
        (broken (frameGroups pending lines).2).1.filterMap readFrame := by
  induction lines generalizing pending with
  | nil => simp [callsOf, frameGroups]
  | cons l lines ih =>
    rw [List.flatMap_cons, frameGroups]
    by_cases hl : l.1 = []
    · have hbreak : callsOf (broken pending).2 (withBreak l ++ lines.flatMap withBreak) =
          (readFrame (broken pending).2).toList ++ callsOf [] (lines.flatMap withBreak) := by
        unfold withBreak
        by_cases hcut : l.2 = true
        · rw [if_pos hcut, hl]
          rfl
        · rw [if_neg hcut, hl]
          rfl
      have hrest : callsOf [] (lines.flatMap withBreak) = _ := ih []
      rw [if_pos hl, hbreak, hrest, List.flatMap_cons, pieces, List.filterMap_append]
      simp only [List.append_assoc]
      congr 2
    · rw [if_neg hl, ← ih, broken_concat]
      unfold withBreak breakAt
      by_cases hcut : l.2 = true
      · rw [if_pos hcut, if_pos hcut, List.filterMap_append, List.append_assoc]
        congr 1
        change callsOf _ (l.1 :: [] :: lines.flatMap withBreak) = _
        rw [callsOf, if_neg hl, callsOf, if_pos rfl]
        rfl
      · rw [if_neg hcut, if_neg hcut, List.singleton_append, callsOf, if_neg hl]

theorem dataLines_readLine (s : Fields) (line : List Char) :
    (readLine s line).dataLines = s.dataLines ++ (readLine {} line).dataLines := by
  unfold readLine
  split_ifs
  · exact (List.append_nil _).symm
  · exact (List.append_nil _).symm
  · rfl
  · exact (List.append_nil _).symm

theorem dataLines_foldl (lines : List (List Char)) (s : Fields) :
    (lines.foldl readLine s).dataLines =
      s.dataLines ++ lines.flatMap fun line => (readLine {} line).dataLines := by
  induction lines generalizing s with
  | nil => simp
  | cons line lines ih =>
    rw [List.foldl_cons, ih, dataLines_readLine, List.flatMap_cons, List.append_assoc]

theorem readFrame_eq_none_iff {lines : List (List Char)} :
    readFrame lines = none ↔ ∀ line ∈ lines, (readLine {} line).dataLines = [] := by
  have hdata : (lines.foldl readLine {}).dataLines =
      lines.flatMap fun line => (readLine {} line).dataLines := dataLines_foldl lines {}
  rw [← List.flatMap_eq_nil_iff, ← hdata]
  by_cases hnone : (lines.foldl readLine {}).dataLines = []
  · simp only [readFrame, hnone, if_true]
  · simp only [readFrame, hnone, if_false, reduceCtorEq]

theorem flatten_pieces (frame : List (List Char × Bool)) :
    (pieces frame).flatten = frame.map (·.1) := by
  induction frame using List.reverseRecOn with
  | nil => rfl
  | append_singleton frame l ih =>
    unfold pieces at ih ⊢
    rw [broken_concat, List.map_append, ← ih]
    unfold breakAt
    split_ifs <;> simp

theorem length_le_pieces (frame : List (List Char × Bool)) :
    (readFrame (frame.map (·.1))).toList.length ≤ ((pieces frame).filterMap readFrame).length := by
  cases hread : readFrame (frame.map (·.1)) with
  | none => exact Nat.zero_le _
  | some read =>
    apply List.length_pos_iff.mpr
    intro hnone
    rw [List.filterMap_eq_nil_iff] at hnone
    have hall : readFrame (frame.map (·.1)) = none := by
      rw [readFrame_eq_none_iff, ← flatten_pieces]
      intro line hline
      obtain ⟨piece, hpiece, hmem⟩ := List.mem_flatten.mp hline
      exact readFrame_eq_none_iff.mp (hnone piece hpiece) line hmem
    rw [hall] at hread
    cases hread

theorem blocks_eq {α β : Type} {items : List α} {long short : α → List β} {rest : List β}
    (hle : ∀ a ∈ items, (short a).length ≤ (long a).length)
    (h : items.flatMap long ++ rest = items.flatMap short) :
    (∀ a ∈ items, long a = short a) ∧ rest = [] := by
  induction items with
  | nil =>
    refine ⟨fun a ha => ?_, h⟩
    cases ha
  | cons a items ih =>
    have hlength : (items.flatMap short).length ≤ (items.flatMap long).length := by
      rw [List.length_flatMap, List.length_flatMap]
      apply List.sum_le_sum
      intro b hb
      exact hle b (List.mem_cons_of_mem a hb)
    have htotal := congrArg List.length h
    rw [List.flatMap_cons, List.flatMap_cons, List.append_assoc] at h
    simp only [List.flatMap_cons, List.length_append] at htotal
    have hfirst := hle a List.mem_cons_self
    obtain ⟨heq, hrest⟩ := List.append_inj h (by omega)
    obtain ⟨hothers, hnil⟩ := ih (fun b hb => hle b (List.mem_cons_of_mem a hb)) hrest
    refine ⟨fun b hb => ?_, hnil⟩
    obtain rfl | hb := List.mem_cons.mp hb
    · exact heq
    · exact hothers b hb

section
variable (decoder : TextDecoder) (reads : List Bytes)

def markedFrames : List (List (List Char × Bool)) × List (List Char × Bool) :=
  frameGroups [] (markedLines [] (mark ((decoder.decodeAll decoder.start reads).flatMap cutAfter)))

/-- The pieces of a frame say what the frame says. -/
def Spared (frame : List (List Char × Bool)) : Prop :=
  (pieces frame).filterMap readFrame = (readFrame (frame.map (·.1))).toList

instance (frame : List (List Char × Bool)) : Decidable (Spared frame) :=
  inferInstanceAs (Decidable (_ = _))

variable {decoder reads}

theorem frames_of_reads (texts : List (List Char)) :
    (splitFrames (texts.map normalise).flatten).dropLast.filterMap
        (fun frame => readFrame (splitLines [] frame)) =
      callsOf [] (terminated [] (texts.map normalise).flatten) := by
  rw [← callsBehind_splitFrames _ _ _ fun _ => .inl rfl, callsBehind_nil]

variable (decoder reads) in
theorem calls_of_cut_reads :
    (splitFrames (((decoder.decodeAll decoder.start reads).map normalise).flatten)).dropLast.filterMap
        (fun frame => readFrame (splitLines [] frame)) =
      ((markedFrames decoder reads).1.flatMap fun frame => (pieces frame).filterMap readFrame) ++
        (broken (markedFrames decoder reads).2).1.filterMap readFrame := by
  rw [frames_of_reads, ← doubled_mark, terminated_doubled]
  exact callsOf_withBreak _ []

variable (reads) in
theorem calls_of_whole_reads (hdecoder : decoder.Incremental) :
    (splitFrames (((decoder.decodeAll decoder.start [reads.flatten]).map normalise).flatten)).dropLast.filterMap
        (fun frame => readFrame (splitLines [] frame)) =
      (markedFrames decoder reads).1.flatMap fun frame =>
        (readFrame (frame.map (·.1))).toList := by
  have htext : ((decoder.decodeAll decoder.start [reads.flatten]).map normalise).flatten =
      (mark ((decoder.decodeAll decoder.start reads).flatMap cutAfter)).map (·.1) := by
    rw [mark_fst, flatMap_cutAfter_fst, hdecoder]
    simp [TextDecoder.decodeAll]
  rw [frames_of_reads, htext, terminated_fst]
  exact callsOf_fst _ []

theorem filterMap_frameCall {V : Type} (handles : List Char → Bool) (parse : List Char → Option V)
    (frames : List (List Char)) :
    frames.filterMap (frameCall handles parse) =
      (frames.filterMap fun frame => readFrame (splitLines [] frame)).filterMap
        (dispatch handles parse) := by
  rw [List.filterMap_filterMap]
  rfl

/-- Whatever the handlers are, cutting the stream changes no call. -/
def Uncut (decoder : TextDecoder) (reads : List Bytes) : Prop :=
  ∀ (V : Type) (handles : List Char → Bool) (parse : List Char → Option V),
    streamEvents handles parse decoder decoder.start [] reads =
      streamEvents handles parse decoder decoder.start [] [reads.flatten]

theorem streamEvents_start {V : Type} (handles : List Char → Bool) (parse : List Char → Option V)
    (reads : List Bytes) :
    streamEvents handles parse decoder decoder.start [] reads =
      ((splitFrames (((decoder.decodeAll decoder.start reads).map normalise).flatten)).dropLast.filterMap
        fun frame => readFrame (splitLines [] frame)).filterMap (dispatch handles parse) := by
  rw [streamEvents_eq decoder decoder.start [] reads rfl, filterMap_frameCall, List.nil_append]

theorem uncut_of_spared (hdecoder : decoder.Incremental)
    (hspared : ∀ frame ∈ (markedFrames decoder reads).1, Spared frame)
    (hopen : (broken (markedFrames decoder reads).2).1.filterMap readFrame = []) :
    Uncut decoder reads := by
  intro V handles parse
  rw [streamEvents_start, streamEvents_start, calls_of_cut_reads, calls_of_whole_reads reads hdecoder,
    hopen, List.append_nil]
  congr 1
  apply List.flatMap_congr
  intro frame hframe
  exact hspared frame hframe

/-- Cutting a stream changes no call exactly if no frame it has breaks apart where that shows, and
    no frame it has begun. -/
theorem cuts_change_no_call_iff (hdecoder : decoder.Incremental) :
    Uncut decoder reads ↔
      (∀ frame ∈ (markedFrames decoder reads).1, Spared frame) ∧
        (broken (markedFrames decoder reads).2).1.filterMap readFrame = [] := by
  refine ⟨fun huncut => ?_, fun h => uncut_of_spared hdecoder h.1 h.2⟩
  have hraw := huncut (List Char) (fun _ => true) some
  rw [streamEvents_start, streamEvents_start, calls_of_cut_reads, calls_of_whole_reads reads hdecoder]
    at hraw
  have hdispatch : dispatch (fun _ => true) (some : List Char → Option (List Char)) = some := rfl
  rw [hdispatch, List.filterMap_some, List.filterMap_some] at hraw
  exact blocks_eq (fun frame _ => length_le_pieces frame) hraw

theorem markedLines_unmarked {text : List (Char × Bool)} (h : ∀ m ∈ text, m.2 = false)
    (line : List Char) : ∀ l ∈ markedLines line text, l.2 = false := by
  induction text generalizing line with
  | nil =>
    intro l hl
    cases hl
  | cons m text ih =>
    have hrest := ih fun m hm => h m (List.mem_cons_of_mem _ hm)
    rw [markedLines]
    by_cases hm : m.1 = '\n'
    · rw [if_pos hm]
      intro l hl
      obtain rfl | hl := List.mem_cons.mp hl
      · exact h m List.mem_cons_self
      · exact hrest [] l hl
    · rw [if_neg hm]
      exact hrest _

theorem frameGroups_subset (lines pending : List (List Char × Bool)) :
    (∀ frame ∈ (frameGroups pending lines).1, ∀ l ∈ frame, l ∈ pending ∨ l ∈ lines) ∧
      ∀ l ∈ (frameGroups pending lines).2, l ∈ pending ∨ l ∈ lines := by
  induction lines generalizing pending with
  | nil =>
    refine ⟨fun frame hframe => ?_, fun l hl => .inl hl⟩
    cases hframe
  | cons first lines ih =>
    rw [frameGroups]
    by_cases hfirst : first.1 = []
    · rw [if_pos hfirst]
      have hrest := ih []
      grind
    · rw [if_neg hfirst]
      have hrest := ih (pending ++ [first])
      grind

theorem broken_of_unmarked {frame : List (List Char × Bool)} (h : ∀ l ∈ frame, l.2 = false) :
    broken frame = ([], frame.map (·.1)) := by
  induction frame using List.reverseRecOn with
  | nil => rfl
  | append_singleton frame l ih =>
    have hl : l.2 = false := h l (List.mem_append_right _ List.mem_cons_self)
    rw [broken_concat, ih fun l hl => h l (List.mem_append_left _ hl), List.map_append]
    simp [breakAt, hl]

/-- Cuts that leave every CRLF whole do no harm. -/
theorem uncut_of_whole_line_endings (hdecoder : decoder.Incremental)
    (h : ∀ m ∈ mark ((decoder.decodeAll decoder.start reads).flatMap cutAfter), m.2 = false) :
    Uncut decoder reads := by
  have hlines := markedLines_unmarked h []
  have hgroups := frameGroups_subset
    (markedLines [] (mark ((decoder.decodeAll decoder.start reads).flatMap cutAfter))) []
  have hbroken : ∀ frame ∈ (markedFrames decoder reads).1, broken frame = ([], frame.map (·.1)) := by
    intro frame hframe
    apply broken_of_unmarked
    intro l hl
    exact hlines l ((hgroups.1 frame hframe l hl).resolve_left (by simp))
  have hopen : broken (markedFrames decoder reads).2 =
      ([], (markedFrames decoder reads).2.map (·.1)) := by
    apply broken_of_unmarked
    intro l hl
    exact hlines l ((hgroups.2 l hl).resolve_left (by simp))
  apply uncut_of_spared hdecoder
  · intro frame hframe
    unfold Spared pieces
    rw [hbroken frame hframe]
    cases hread : readFrame (frame.map (·.1)) <;> simp [hread]
  · rw [hopen]
    rfl

end

def asciiDecoder : TextDecoder where
  State := Unit
  start := ()
  decode _ read := ((), read.map fun b => Char.ofNat b.toNat)

theorem asciiDecoder_incremental : asciiDecoder.Incremental := by
  intro reads
  induction reads with
  | nil => rfl
  | cons read reads ih =>
    rw [TextDecoder.decodeAll, List.flatten_cons]
    change _ ++ (asciiDecoder.decodeAll asciiDecoder.start reads).flatten = _
    rw [ih]
    exact List.map_append.symm

/-- The line that names the event is cut off from the data. -/
theorem cut_line_ending_renames_the_event :
    ¬ ∀ (decoder : TextDecoder) (reads : List Bytes), decoder.Incremental → Uncut decoder reads := by
  intro hall
  have huncut := hall asciiDecoder [bytes "event: delta\r", bytes "\ndata: 1\r\n\r\n"]
    asciiDecoder_incremental ℕ (fun event => event = "delta".toList)
    (fun data => if data = "1".toList then some 1 else none)
  exact absurd huncut (by decide)

theorem cut_behind_the_data :
    Uncut asciiDecoder [bytes "event: delta\r\ndata: 1\r", bytes "\n\r\n"] := by
  apply (cuts_change_no_call_iff asciiDecoder_incremental).mpr
  decide

end Ragent.StreamCuts
