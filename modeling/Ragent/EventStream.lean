import Ragent.Formats
import Ragent.SpacedWords

set_option autoImplicit false

/-!
# Reading server-sent events

`streamEvents` of `web/lib/api.ts`. Parsing the data and looking up the handler are parameters; a
call that is not made leaves no trace.
-/
namespace Ragent.EventStream
open Formats SpacedWords

/-- A `TextDecoder` that is called with `stream: true`. -/
structure TextDecoder where
  State : Type
  start : State
  decode : State → Bytes → State × List Char

namespace TextDecoder

def decodeAll (decoder : TextDecoder) : decoder.State → List Bytes → List (List Char)
  | _, [] => []
  | s, read :: reads =>
    (decoder.decode s read).2 :: decoder.decodeAll (decoder.decode s read).1 reads

/-- It decodes incrementally without loss. -/
def Incremental (decoder : TextDecoder) : Prop :=
  ∀ reads, (decoder.decodeAll decoder.start reads).flatten =
    (decoder.decode decoder.start reads.flatten).2

end TextDecoder

/-- What `String.prototype.trim` removes. -/
def isJsSpace (c : Char) : Bool :=
  let n := c.toNat
  (9 ≤ n && n ≤ 13) || n == 32 || n == 0xA0 || n == 0x1680 || (0x2000 ≤ n && n ≤ 0x200A) ||
    n == 0x2028 || n == 0x2029 || n == 0x202F || n == 0x205F || n == 0x3000 || n == 0xFEFF

/-- `.replace(/\r\n?/g, "\n")` -/
def normalise : List Char → List Char
  | [] => []
  | '\r' :: '\n' :: text => '\n' :: normalise text
  | c :: text => (if c = '\r' then '\n' else c) :: normalise text

def onHead (c : Char) : List (List Char) → List (List Char)
  | [] => [[c]]
  | piece :: pieces => (c :: piece) :: pieces

/-- `.split("\n\n")` -/
def splitFrames : List Char → List (List Char)
  | [] => [[]]
  | '\n' :: '\n' :: text => [] :: splitFrames text
  | c :: text => onHead c (splitFrames text)

/-- `.split("\n")`, behind the beginning of a line. -/
def splitLines : List Char → List Char → List (List Char)
  | line, [] => [line]
  | line, c :: text => if c = '\n' then line :: splitLines [] text else splitLines (line ++ [c]) text

structure Fields where
  event : List Char := "message".toList
  dataLines : List (List Char) := []

def readLine (s : Fields) (line : List Char) : Fields :=
  if ":".toList.isPrefixOf line then s
  else if "event:".toList.isPrefixOf line then { s with event := trim isJsSpace (line.drop 6) }
  else if "data:".toList.isPrefixOf line then
    { s with dataLines := s.dataLines ++ [trim isJsSpace (line.drop 5)] }
  else s

/-- `dataLines.join("\n")` -/
def joinLines : List (List Char) → List Char
  | [] => []
  | [line] => line
  | line :: lines => line ++ '\n' :: joinLines lines

def readFrame (lines : List (List Char)) : Option (List Char × List Char) :=
  let fields := lines.foldl readLine {}
  if fields.dataLines = [] then none else some (fields.event, joinLines fields.dataLines)

section
variable {V : Type} (handles : List Char → Bool) (parse : List Char → Option V)

def dispatch (read : List Char × List Char) : Option (List Char × V) :=
  if handles read.1 then (parse read.2).map fun data => (read.1, data) else none

def streamEvents (decoder : TextDecoder) :
    decoder.State → List Char → List Bytes → List (List Char × V)
  | _, _, [] => []
  | s, buffer, value :: reads =>
    let decoded := decoder.decode s value
    let pieces := splitFrames (buffer ++ normalise decoded.2)
    (pieces.dropLast.filterMap fun frame =>
        (readFrame (splitLines [] frame)).bind (dispatch handles parse)) ++
      streamEvents decoder decoded.1 (pieces.getLast?.getD []) reads

end

theorem splitFrames_cons {c : Char} {text : List Char} (h : c = '\n' → text.head? ≠ some '\n') :
    splitFrames (c :: text) = onHead c (splitFrames text) := by
  apply splitFrames.eq_3
  intro rest hc htext
  exact h hc (htext ▸ rfl)

theorem onHead_ne_nil (c : Char) (pieces : List (List Char)) : onHead c pieces ≠ [] := by
  cases pieces with
  | nil => exact List.cons_ne_nil _ _
  | cons piece pieces => exact List.cons_ne_nil _ _

theorem splitFrames_ne_nil (text : List Char) : splitFrames text ≠ [] := by
  fun_cases splitFrames text with
  | case1 => exact List.cons_ne_nil _ _
  | case2 text => exact List.cons_ne_nil _ _
  | case3 c text _ => exact onHead_ne_nil c _

theorem eq_of_splitFrames {text piece : List Char} (h : splitFrames text = [piece]) :
    piece = text := by
  fun_induction splitFrames text generalizing piece with
  | case1 => exact (List.cons.inj h).1.symm
  | case2 text ih => exact absurd (List.cons.inj h).2 (splitFrames_ne_nil text)
  | case3 c text _ ih =>
    cases hpieces : splitFrames text with
    | nil => exact absurd hpieces (splitFrames_ne_nil text)
    | cons first pieces =>
      rw [hpieces] at h
      obtain ⟨rfl, rfl⟩ := List.cons.inj h
      rw [ih hpieces]

theorem splitFrames_append (before after : List Char) :
    splitFrames (before ++ after) = (splitFrames before).dropLast ++
      splitFrames ((splitFrames before).getLast?.getD [] ++ after) := by
  fun_induction splitFrames before with
  | case1 => rfl
  | case2 text ih =>
    have hne := splitFrames_ne_nil text
    rw [List.dropLast_cons_of_ne_nil hne, List.getLast?_cons_of_ne_nil hne]
    change [] :: splitFrames (text ++ after) = _
    rw [ih]
    rfl
  | case3 c text hsingle ih =>
    cases hpieces : splitFrames text with
    | nil => exact absurd hpieces (splitFrames_ne_nil text)
    | cons first pieces =>
      cases pieces with
      | nil =>
        rw [eq_of_splitFrames hpieces]
        rfl
      | cons second pieces =>
        have hcons : splitFrames (c :: (text ++ after)) = onHead c (splitFrames (text ++ after)) := by
          apply splitFrames_cons
          intro hc hhead
          cases text with
          | nil => cases hpieces
          | cons d text => exact hsingle text hc (by rw [Option.some.inj hhead])
        rw [List.cons_append, hcons, ih, hpieces]
        simp [onHead]

theorem splitFrames_last (text : List Char) :
    splitFrames ((splitFrames text).getLast?.getD []) = [(splitFrames text).getLast?.getD []] := by
  have hne := splitFrames_ne_nil text
  have hlast : (splitFrames text).getLast?.getD [] = (splitFrames text).getLast hne := by
    rw [List.getLast?_eq_getLast_of_ne_nil hne, Option.getD_some]
  have happend := splitFrames_append text []
  rw [List.append_nil, List.append_nil] at happend
  have hsplit : (splitFrames text).dropLast ++ splitFrames ((splitFrames text).getLast?.getD []) =
      (splitFrames text).dropLast ++ [(splitFrames text).getLast?.getD []] := by
    rw [← happend, hlast, List.dropLast_append_getLast]
  exact List.append_cancel_left hsplit

section
variable {V : Type} {handles : List Char → Bool} {parse : List Char → Option V}

def frameCall (handles : List Char → Bool) (parse : List Char → Option V) (frame : List Char) :
    Option (List Char × V) :=
  (readFrame (splitLines [] frame)).bind (dispatch handles parse)

/-- The calls are those of the frames of all that was decoded, each read normalised on its own. -/
theorem streamEvents_eq (decoder : TextDecoder) (s : decoder.State) (buffer : List Char)
    (reads : List Bytes) (hbuffer : splitFrames buffer = [buffer]) :
    streamEvents handles parse decoder s buffer reads =
      (splitFrames (buffer ++ ((decoder.decodeAll s reads).map normalise).flatten)).dropLast.filterMap
        (frameCall handles parse) := by
  induction reads generalizing s buffer with
  | nil => simp [streamEvents, TextDecoder.decodeAll, hbuffer]
  | cons read reads ih =>
    have hne : splitFrames ((splitFrames (buffer ++ normalise (decoder.decode s read).2)).getLast?.getD
        [] ++ ((decoder.decodeAll (decoder.decode s read).1 reads).map normalise).flatten) ≠ [] :=
      splitFrames_ne_nil _
    rw [TextDecoder.decodeAll, List.map_cons, List.flatten_cons, ← List.append_assoc,
      splitFrames_append, List.dropLast_append_of_ne_nil hne, List.filterMap_append,
      ← ih _ _ (splitFrames_last _)]
    rfl

end

def terminated (line text : List Char) : List (List Char) := (splitLines line text).dropLast

theorem splitLines_ne_nil (line text : List Char) : splitLines line text ≠ [] := by
  fun_induction splitLines line text with
  | case1 => exact List.cons_ne_nil _ _
  | case2 => exact List.cons_ne_nil _ _
  | case3 _ _ _ _ ih => exact ih

theorem terminated_cons (line : List Char) (c : Char) (text : List Char) :
    terminated line (c :: text) =
      if c = '\n' then line :: terminated [] text else terminated (line ++ [c]) text := by
  unfold terminated
  rw [splitLines]
  by_cases hc : c = '\n'
  · rw [if_pos hc, if_pos hc, List.dropLast_cons_of_ne_nil (splitLines_ne_nil _ _)]
  · rw [if_neg hc, if_neg hc]

/-- What the lines dispatch, an empty line closing a frame. -/
def callsOf : List (List Char) → List (List Char) → List (List Char × List Char)
  | _, [] => []
  | pending, line :: lines =>
    if line = [] then (readFrame pending).toList ++ callsOf [] lines
    else callsOf (pending ++ [line]) lines

def callsBehind (pending : List (List Char)) (line : List Char) :
    List (List Char) → List (List Char × List Char)
  | [] => []
  | [_] => []
  | piece :: pieces =>
    (readFrame (pending ++ splitLines line piece)).toList ++
      pieces.dropLast.filterMap fun frame => readFrame (splitLines [] frame)

theorem callsBehind_onHead (pending : List (List Char)) (line : List Char) (c : Char)
    (pieces : List (List Char)) (hne : pieces ≠ []) :
    callsBehind pending line (onHead c pieces) =
      if c = '\n' then callsBehind (pending ++ [line]) [] pieces
      else callsBehind pending (line ++ [c]) pieces := by
  match pieces with
  | [] => exact absurd rfl hne
  | [piece] => simp [onHead, callsBehind]
  | piece :: second :: pieces =>
    by_cases hc : c = '\n'
    · simp [onHead, callsBehind, splitLines, hc]
    · simp [onHead, callsBehind, splitLines, hc]

theorem callsBehind_empty_line (pieces : List (List Char)) :
    callsBehind [[]] [] pieces = callsBehind [] [] pieces := by
  match pieces with
  | [] => rfl
  | [_] => rfl
  | _ :: _ :: _ => rfl

theorem callsBehind_nil (pieces : List (List Char)) :
    callsBehind [] [] pieces =
      pieces.dropLast.filterMap fun frame => readFrame (splitLines [] frame) := by
  match pieces with
  | [] => rfl
  | [_] => rfl
  | piece :: second :: pieces =>
    rw [List.dropLast_cons_cons, List.filterMap_cons]
    cases hread : readFrame (splitLines [] piece) with
    | none => simp [callsBehind, hread]
    | some read => simp [callsBehind, hread]

theorem callsBehind_splitFrames (text : List Char) (pending : List (List Char)) (line : List Char)
    (h : line = [] → pending = [] ∨ text.head? ≠ some '\n') :
    callsBehind pending line (splitFrames text) = callsOf pending (terminated line text) := by
  fun_induction splitFrames text generalizing pending line with
  | case1 => rfl
  | case2 text ih =>
    have hrest := ih [] [] fun _ => .inl rfl
    have hpieces : callsBehind pending line ([] :: splitFrames text) =
        (readFrame (pending ++ [line])).toList ++ callsBehind [] [] (splitFrames text) := by
      rw [callsBehind_nil]
      cases hpieces : splitFrames text with
      | nil => exact absurd hpieces (splitFrames_ne_nil text)
      | cons piece pieces => rfl
    rw [hpieces, hrest, terminated_cons, if_pos rfl, terminated_cons, if_pos rfl]
    by_cases hline : line = []
    · subst hline
      obtain rfl := (h rfl).resolve_right (by simp)
      rfl
    · simp only [callsOf, if_neg hline, if_true]
  | case3 c text hsingle ih =>
    rw [callsBehind_onHead _ _ _ _ (splitFrames_ne_nil text), terminated_cons]
    by_cases hc : c = '\n'
    · subst hc
      have hhead : text.head? ≠ some '\n' := by
        intro hhead
        cases text with
        | nil => cases hhead
        | cons d text => exact hsingle text rfl (by rw [Option.some.inj hhead])
      rw [if_pos rfl, if_pos rfl]
      by_cases hline : line = []
      · subst hline
        obtain rfl := (h rfl).resolve_right (by simp)
        rw [List.nil_append, callsBehind_empty_line, ih [] [] fun _ => .inl rfl]
        rfl
      · rw [ih _ _ fun _ => .inr hhead]
        simp only [callsOf, if_neg hline]
    · rw [if_neg hc, if_neg hc]
      apply ih
      intro hline
      simp at hline

end Ragent.EventStream
