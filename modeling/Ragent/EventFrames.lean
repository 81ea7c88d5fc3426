import Ragent.StreamCuts

set_option autoImplicit false

/-!
# Events on the wire

`EventSourceResponse` writes the events of `ask` and `document_events` line by line, with comments
in between that keep the connection alive. `streamEvents` reads them in whatever pieces arrive.
-/
namespace Ragent.EventFrames
open Formats SpacedWords EventStream StreamCuts

inductive Sent
  | event (name data : List Char)
  | comment (text : List Char)

def Sent.lines : Sent → List (List Char)
  | .event name data => ["event: ".toList ++ name, "data: ".toList ++ data, []]
  | .comment text => [": ".toList ++ text, []]

inductive LineEnding
  | crlf
  | lf
  | cr

def LineEnding.text : LineEnding → List Char
  | .crlf => ['\r', '\n']
  | .lf => ['\n']
  | .cr => ['\r']

def written (ending : LineEnding) (sent : List Sent) : List Char :=
  (sent.flatMap Sent.lines).flatMap (· ++ ending.text)

def OneLine (text : List Char) : Prop := ∀ c ∈ text, c ≠ '\r' ∧ c ≠ '\n'

instance (text : List Char) : Decidable (OneLine text) := List.decidableBAll _ _

structure Plain (text : List Char) : Prop where
  one_line : OneLine text
  trimmed : trim isJsSpace text = text

def Sent.Clean : Sent → Prop
  | .event name data => Plain name ∧ Plain data
  | .comment text => OneLine text

def linesRead (decoder : TextDecoder) (reads : List Bytes) : List (List Char × Bool) :=
  markedLines [] (mark ((decoder.decodeAll decoder.start reads).flatMap cutAfter))

/-- What arrives of the lines, each with a note whether its ending was cut: an event goes by its
    name unless the line with the name was cut off. -/
def arrivals : List Sent → List (List Char × Bool) → List (List Char × List Char)
  | .event name data :: sent, (_, isCut) :: _ :: _ :: lines =>
    (if isCut then "message".toList else name, data) :: arrivals sent lines
  | .comment _ :: sent, _ :: _ :: lines => arrivals sent lines
  | _, _ => []

def Sent.payload? : Sent → Option (List Char × List Char)
  | .event name data => some (name, data)
  | .comment _ => none

theorem OneLine.append {text text' : List Char} (h : OneLine text) (h' : OneLine text') :
    OneLine (text ++ text') := by
  intro c hc
  cases List.mem_append.mp hc with
  | inl hc => exact h c hc
  | inr hc => exact h' c hc

theorem oneLine_lines {s : Sent} (h : s.Clean) : ∀ line ∈ s.lines, OneLine line := by
  have hevent : OneLine "event: ".toList := by decide
  have hdata : OneLine "data: ".toList := by decide
  have hcolon : OneLine ": ".toList := by decide
  have hempty : OneLine [] := List.forall_mem_nil _
  intro line hline
  cases s with
  | event name data =>
    simp only [Sent.lines, List.mem_cons, List.not_mem_nil, or_false] at hline
    obtain rfl | rfl | rfl := hline
    · exact hevent.append h.1.one_line
    · exact hdata.append h.2.one_line
    · exact hempty
  | comment text =>
    simp only [Sent.lines, List.mem_cons, List.not_mem_nil, or_false] at hline
    obtain rfl | rfl := hline
    · exact hcolon.append h
    · exact hempty

theorem normalise_oneLine {line : List Char} (h : OneLine line) (text : List Char) :
    normalise (line ++ text) = line ++ normalise text := by
  induction line with
  | nil => rfl
  | cons c line ih =>
    have hc := h c List.mem_cons_self
    rw [List.cons_append, normalise_cons fun heq => absurd heq hc.1, if_neg hc.1,
      ih fun d hd => h d (List.mem_cons_of_mem _ hd)]
    rfl

theorem head?_of_lines (ending : LineEnding) {lines : List (List Char)}
    (h : ∀ line ∈ lines, OneLine line) (hending : ending = .cr) :
    (lines.flatMap (· ++ ending.text)).head? ≠ some '\n' := by
  subst hending
  cases lines with
  | nil => exact fun hhead => by cases hhead
  | cons line lines =>
    rw [List.flatMap_cons]
    cases line with
    | nil => exact fun hhead => absurd (Option.some.inj hhead) (by decide)
    | cons c line =>
      intro hhead
      exact (h _ List.mem_cons_self c List.mem_cons_self).2 (Option.some.inj hhead)

theorem normalise_lines (ending : LineEnding) {lines : List (List Char)}
    (h : ∀ line ∈ lines, OneLine line) :
    normalise (lines.flatMap (· ++ ending.text)) = lines.flatMap (· ++ ['\n']) := by
  induction lines with
  | nil => rfl
  | cons line lines ih =>
    have hrest := fun line hline => h line (List.mem_cons_of_mem _ hline)
    have hend : normalise (ending.text ++ lines.flatMap (· ++ ending.text)) =
        '\n' :: normalise (lines.flatMap (· ++ ending.text)) := by
      cases ending with
      | crlf => rfl
      | lf => exact normalise_cons fun heq => absurd heq (by decide)
      | cr => exact normalise_cons fun _ => head?_of_lines .cr hrest rfl
    rw [List.flatMap_cons, List.append_assoc, normalise_oneLine (h line List.mem_cons_self), hend,
      ih hrest, List.flatMap_cons, List.append_assoc]
    rfl

theorem terminated_oneLine {line : List Char} (h : OneLine line) (before text : List Char) :
    terminated before (line ++ '\n' :: text) = (before ++ line) :: terminated [] text := by
  induction line generalizing before with
  | nil => rw [List.nil_append, terminated_cons, if_pos rfl, List.append_nil]
  | cons c line ih =>
    rw [List.cons_append, terminated_cons, if_neg (h c List.mem_cons_self).2,
      ih fun d hd => h d (List.mem_cons_of_mem _ hd), List.append_assoc]
    rfl

theorem terminated_lines {lines : List (List Char)} (h : ∀ line ∈ lines, OneLine line) :
    terminated [] (lines.flatMap (· ++ ['\n'])) = lines := by
  induction lines with
  | nil => rfl
  | cons line lines ih =>
    rw [List.flatMap_cons, List.append_assoc, List.singleton_append,
      terminated_oneLine (h line List.mem_cons_self), List.nil_append,
      ih fun line hline => h line (List.mem_cons_of_mem _ hline)]

/-- The lines that arrive are those that were written, however the text is cut. -/
theorem linesRead_written {decoder : TextDecoder} {reads : List Bytes} {ending : LineEnding}
    {sent : List Sent} (h : ∀ s ∈ sent, s.Clean)
    (hreads : (decoder.decodeAll decoder.start reads).flatten = written ending sent) :
    (linesRead decoder reads).map (·.1) = sent.flatMap Sent.lines := by
  have hlines : ∀ line ∈ sent.flatMap Sent.lines, OneLine line := by
    intro line hline
    obtain ⟨s, hs, hline⟩ := List.mem_flatMap.mp hline
    exact oneLine_lines (h s hs) line hline
  rw [linesRead, ← terminated_fst, mark_fst, flatMap_cutAfter_fst, hreads, written,
    normalise_lines ending hlines, terminated_lines hlines]

theorem trim_behind_blank {text : List Char} (h : trim isJsSpace text = text) :
    trim isJsSpace (' ' :: text) = text := by
  have hblank : isJsSpace ' ' = true := by decide
  unfold trim at h ⊢
  rw [List.dropWhile_cons, if_pos hblank]
  exact h

theorem readLine_name {name : List Char} (h : Plain name) (s : Fields) :
    readLine s ("event: ".toList ++ name) = { s with event := name } := by
  have hname : trim isJsSpace (' ' :: name) = name := trim_behind_blank h.trimmed
  exact congrArg (fun event => { s with event := event }) hname

theorem readLine_data {data : List Char} (h : Plain data) (s : Fields) :
    readLine s ("data: ".toList ++ data) = { s with dataLines := s.dataLines ++ [data] } := by
  have hdata : trim isJsSpace (' ' :: data) = data := trim_behind_blank h.trimmed
  exact congrArg (fun line => { s with dataLines := s.dataLines ++ [line] }) hdata

theorem read_event {name data : List Char} (hname : Plain name) (hdata : Plain data)
    (isCut isCut' : Bool) :
    (pieces [("event: ".toList ++ name, isCut), ("data: ".toList ++ data, isCut')]).filterMap
        readFrame = [(if isCut then "message".toList else name, data)] := by
  have hnone : readFrame ["event: ".toList ++ name] = none := by
    unfold readFrame
    rw [List.foldl_cons, List.foldl_nil, readLine_name hname]
    rfl
  have hrest : readFrame ["data: ".toList ++ data] = some ("message".toList, data) := by
    unfold readFrame
    rw [List.foldl_cons, List.foldl_nil, readLine_data hdata]
    rfl
  have hwhole : readFrame ["event: ".toList ++ name, "data: ".toList ++ data] =
      some (name, data) := by
    unfold readFrame
    rw [List.foldl_cons, List.foldl_cons, List.foldl_nil, readLine_name hname, readLine_data hdata]
    rfl
  have hempty : readFrame [] = none := rfl
  cases isCut <;> cases isCut' <;>
    simp only [pieces, broken, List.foldl_cons, List.foldl_nil, breakAt, if_true,
      Bool.false_eq_true, if_false, List.nil_append, List.cons_append, List.filterMap_cons,
      List.filterMap_nil, hnone, hrest, hwhole, hempty]

theorem read_comment (text : List Char) (isCut : Bool) :
    (pieces [(": ".toList ++ text, isCut)]).filterMap readFrame = [] := by
  cases isCut <;> rfl

theorem lines_of_event {name data : List Char} {rest : List (List Char)}
    {lines : List (List Char × Bool)}
    (h : lines.map (·.1) = (Sent.event name data).lines ++ rest) :
    ∃ isCut isCut' isCut'' lines',
      lines = ("event: ".toList ++ name, isCut) :: ("data: ".toList ++ data, isCut') ::
        ([], isCut'') :: lines' ∧ lines'.map (·.1) = rest := by
  obtain ⟨⟨_, isCut⟩, _, rfl, rfl, hsecond⟩ := List.map_eq_cons_iff.mp h
  obtain ⟨⟨_, isCut'⟩, _, rfl, rfl, hthird⟩ := List.map_eq_cons_iff.mp hsecond
  obtain ⟨⟨_, isCut''⟩, lines', rfl, rfl, hrest⟩ := List.map_eq_cons_iff.mp hthird
  exact ⟨isCut, isCut', isCut'', lines', rfl, hrest⟩

theorem lines_of_comment {text : List Char} {rest : List (List Char)}
    {lines : List (List Char × Bool)} (h : lines.map (·.1) = (Sent.comment text).lines ++ rest) :
    ∃ isCut isCut' lines', lines = (": ".toList ++ text, isCut) :: ([], isCut') :: lines' ∧
      lines'.map (·.1) = rest := by
  obtain ⟨⟨_, isCut⟩, _, rfl, rfl, hsecond⟩ := List.map_eq_cons_iff.mp h
  obtain ⟨⟨_, isCut'⟩, lines', rfl, rfl, hrest⟩ := List.map_eq_cons_iff.mp hsecond
  exact ⟨isCut, isCut', lines', rfl, hrest⟩

/-- The induction is over what was sent: each item is the frame of its own lines. -/
theorem read_arrivals {sent : List Sent} (h : ∀ s ∈ sent, s.Clean) {lines : List (List Char × Bool)}
    (hlines : lines.map (·.1) = sent.flatMap Sent.lines) :
    ((frameGroups [] lines).1.flatMap fun frame => (pieces frame).filterMap readFrame) =
        arrivals sent lines ∧ (frameGroups [] lines).2 = [] := by
  induction sent generalizing lines with
  | nil =>
    rw [List.map_eq_nil_iff.mp hlines]
    exact ⟨rfl, rfl⟩
  | cons s sent ih =>
    have hclean := h s List.mem_cons_self
    have hrest := fun s hs => h s (List.mem_cons_of_mem _ hs)
    rw [List.flatMap_cons] at hlines
    cases s with
    | event name data =>
      obtain ⟨isCut, isCut', _, others, rfl, hothers⟩ := lines_of_event hlines
      obtain ⟨hcalls, hopen⟩ := ih hrest hothers
      refine ⟨?_, hopen⟩
      change (pieces [("event: ".toList ++ name, isCut),
        ("data: ".toList ++ data, isCut')]).filterMap readFrame ++ _ = _ :: arrivals sent others
      rw [read_event hclean.1 hclean.2, ← hcalls]
      rfl
    | comment text =>
      obtain ⟨isCut, _, others, rfl, hothers⟩ := lines_of_comment hlines
      obtain ⟨hcalls, hopen⟩ := ih hrest hothers
      refine ⟨?_, hopen⟩
      change (pieces [(": ".toList ++ text, isCut)]).filterMap readFrame ++ _ = arrivals sent others
      rw [read_comment, ← hcalls]
      rfl

theorem arrivals_of_whole {sent : List Sent} {lines : List (List Char × Bool)}
    (hlines : lines.map (·.1) = sent.flatMap Sent.lines)
    (hwhole : ∀ l ∈ lines, "event: ".toList <+: l.1 → l.2 = false) :
    arrivals sent lines = sent.filterMap Sent.payload? := by
  induction sent generalizing lines with
  | nil => rfl
  | cons s sent ih =>
    rw [List.flatMap_cons] at hlines
    cases s with
    | event name data =>
      obtain ⟨isCut, _, _, others, rfl, hothers⟩ := lines_of_event hlines
      have hcut : isCut = false := hwhole _ List.mem_cons_self (List.prefix_append _ _)
      have hrest := ih hothers fun l hl => hwhole l (by simp only [List.mem_cons, hl, or_true])
      rw [arrivals, hcut, hrest]
      rfl
    | comment text =>
      obtain ⟨_, _, others, rfl, hothers⟩ := lines_of_comment hlines
      have hrest := ih hothers fun l hl => hwhole l (by simp only [List.mem_cons, hl, or_true])
      rw [arrivals, hrest]
      rfl

section
variable {decoder : TextDecoder} {reads : List Bytes} {ending : LineEnding} {sent : List Sent}

theorem calls_of_written (h : ∀ s ∈ sent, s.Clean)
    (hreads : (decoder.decodeAll decoder.start reads).flatten = written ending sent)
    {V : Type} (handles : List Char → Bool) (parse : List Char → Option V) :
    streamEvents handles parse decoder decoder.start [] reads =
      (arrivals sent (linesRead decoder reads)).filterMap (dispatch handles parse) := by
  obtain ⟨hcalls, hopen⟩ := read_arrivals h (linesRead_written h hreads)
  have hframes : markedFrames decoder reads = frameGroups [] (linesRead decoder reads) := rfl
  rw [streamEvents_start, calls_of_cut_reads, hframes, hcalls, hopen]
  exact congrArg (List.filterMap (dispatch handles parse)) (List.append_nil _)

theorem calls_of_first_reads {V : Type} (handles : List Char → Bool) (parse : List Char → Option V)
    (s : decoder.State) (buffer : List Char) (n : ℕ) :
    streamEvents handles parse decoder s buffer (reads.take n) <+:
      streamEvents handles parse decoder s buffer reads := by
  induction reads generalizing s buffer n with
  | nil => rw [List.take_nil]
  | cons read reads ih =>
    cases n with
    | zero => exact List.nil_prefix
    | succ n => exact (List.prefix_append_right_inj _).mpr (ih _ _ n)

variable (decoder reads) in
/-- Each event arrives once and in order, at no time is more of them called for than were sent, and
    one goes by another name only where the ending of its first line was cut. -/
theorem events_arrive_in_order (h : ∀ s ∈ sent, s.Clean)
    (hreads : (decoder.decodeAll decoder.start reads).flatten = written ending sent) :
    ∀ (V : Type) (handles : List Char → Bool) (parse : List Char → Option V),
      streamEvents handles parse decoder decoder.start [] reads =
          (arrivals sent (linesRead decoder reads)).filterMap (dispatch handles parse) ∧
        ∀ n, streamEvents handles parse decoder decoder.start [] (reads.take n) <+:
          (arrivals sent (linesRead decoder reads)).filterMap (dispatch handles parse) := by
  intro V handles parse
  have hcalls := calls_of_written h hreads handles parse
  refine ⟨hcalls, fun n => ?_⟩
  rw [← hcalls]
  exact calls_of_first_reads handles parse _ _ n

end

instance (text : List Char) : Decidable (Plain text) :=
  decidable_of_iff (OneLine text ∧ trim isJsSpace text = text)
    ⟨fun h => ⟨h.1, h.2⟩, fun h => ⟨h.one_line, h.trimmed⟩⟩

instance : (s : Sent) → Decidable s.Clean
  | .event _ _ => inferInstanceAs (Decidable (_ ∧ _))
  | .comment _ => inferInstanceAs (Decidable (OneLine _))

theorem one_name_is_cut :
    streamEvents (fun _ => true) some asciiDecoder asciiDecoder.start []
        [bytes "event: delta\r\ndata: 1\r", bytes "\n\r\n: ping\r\n\r\nevent: done\r",
          bytes "\ndata: 2\r\n\r\n"] =
      [("delta".toList, "1".toList), ("message".toList, "2".toList)] := by
  have hreads : (asciiDecoder.decodeAll asciiDecoder.start
      [bytes "event: delta\r\ndata: 1\r", bytes "\n\r\n: ping\r\n\r\nevent: done\r",
        bytes "\ndata: 2\r\n\r\n"]).flatten =
      written .crlf [.event "delta".toList "1".toList, .comment "ping".toList,
        .event "done".toList "2".toList] := by decide
  rw [(events_arrive_in_order _ _ (by decide) hreads (List Char) (fun _ => true) some).1]
  decide

end Ragent.EventFrames
