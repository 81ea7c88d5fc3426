import Mathlib.Data.List.Basic

set_option autoImplicit false

/-!
# Cutting UTF-8

A prefix of an encoded text is an encoded text itself exactly if it ends in front of the first byte
of a character.
-/
namespace Utf8

def encode (text : List Char) : List UInt8 := text.flatMap String.utf8EncodeChar

def Valid (data : List UInt8) : Prop := ∃ text, encode text = data

theorem encode_cons (c : Char) (text : List Char) :
    encode (c :: text) = String.utf8EncodeChar c ++ encode text := rfl

theorem encode_append (s t : List Char) : encode (s ++ t) = encode s ++ encode t :=
  List.flatMap_append

theorem toByteArray_encode (text : List Char) : (encode text).toByteArray = text.utf8Encode := rfl

theorem encodeChar_length_pos (c : Char) : 0 < (String.utf8EncodeChar c).length :=
  List.length_pos_iff.mpr String.utf8EncodeChar_ne_nil

theorem head_unique {c d : Char} {x y : List UInt8}
    (h : String.utf8EncodeChar c ++ x = String.utf8EncodeChar d ++ y) : c = d := by
  have hbytes := congrArg List.toByteArray h
  rw [List.toByteArray_append, List.toByteArray_append] at hbytes
  have hc := ByteArray.utf8DecodeChar?_utf8EncodeChar_append (b := x.toByteArray) (c := c)
  rw [hbytes, ByteArray.utf8DecodeChar?_utf8EncodeChar_append] at hc
  exact (Option.some.inj hc).symm

theorem encode_injective : Function.Injective encode := by
  intro s
  induction s with
  | nil =>
    intro t h
    cases t with
    | nil => rfl
    | cons d t => exact absurd (List.append_eq_nil_iff.mp h.symm).1 String.utf8EncodeChar_ne_nil
  | cons c s ih =>
    intro t h
    cases t with
    | nil => exact absurd (List.append_eq_nil_iff.mp h).1 String.utf8EncodeChar_ne_nil
    | cons d t =>
      rw [encode_cons, encode_cons] at h
      obtain rfl := head_unique h
      rw [ih (List.append_cancel_left h)]

theorem zero_mem_encodeChar {c : Char} (h : 0 ∈ String.utf8EncodeChar c) : c = '\x00' := by
  obtain ⟨i, hi, hzero⟩ := List.mem_iff_getElem.mp h
  have hfirst : ((String.utf8EncodeChar c)[i]).IsUTF8FirstByte := by
    rw [hzero]
    decide
  obtain rfl := UInt8.isUTF8FirstByte_getElem_utf8EncodeChar.mp hfirst
  have hcode : String.utf8EncodeChar c ++ [] =
      String.utf8EncodeChar '\x00' ++ (String.utf8EncodeChar c).drop 1 := by
    conv_lhs => rw [List.append_nil, ← List.drop_zero (l := String.utf8EncodeChar c),
      List.drop_eq_getElem_cons hi, hzero]
    rfl
  exact head_unique hcode

theorem zero_notMem_encode {text : List Char} (h : '\x00' ∉ text) : 0 ∉ encode text := by
  intro hmem
  obtain ⟨c, hc, hzero⟩ := List.mem_flatMap.mp hmem
  exact h (zero_mem_encodeChar hzero ▸ hc)

theorem valid_encodeChar_append {c : Char} {data : List UInt8} :
    Valid (String.utf8EncodeChar c ++ data) ↔ Valid data := by
  constructor
  · rintro ⟨text, htext⟩
    cases text with
    | nil => exact absurd (List.append_eq_nil_iff.mp htext.symm).1 String.utf8EncodeChar_ne_nil
    | cons d text =>
      rw [encode_cons] at htext
      obtain rfl := head_unique htext
      exact ⟨text, List.append_cancel_left htext⟩
  · rintro ⟨text, rfl⟩
    exact ⟨c :: text, rfl⟩

theorem valid_encode_append {text : List Char} {data : List UInt8} :
    Valid (encode text ++ data) ↔ Valid data := by
  induction text with
  | nil => rfl
  | cons c text ih => rw [encode_cons, List.append_assoc, valid_encodeChar_append, ih]

theorem first_byte_of_valid {b : UInt8} {data : List UInt8} (h : Valid (b :: data)) :
    b.IsUTF8FirstByte := by
  obtain ⟨text, htext⟩ := h
  cases text with
  | nil => cases htext
  | cons c text =>
    have hpos := encodeChar_length_pos c
    have hhead := congrArg (·[0]?) htext
    simp only [encode_cons, List.getElem?_append_left hpos, List.getElem?_cons_zero,
      List.getElem?_eq_getElem hpos, Option.some.injEq] at hhead
    rw [← hhead]
    exact UInt8.isUTF8FirstByte_getElem_utf8EncodeChar.mpr rfl

theorem not_valid_take_encodeChar {c : Char} {n : ℕ} (hpos : 0 < n)
    (hn : n < (String.utf8EncodeChar c).length) : ¬ Valid ((String.utf8EncodeChar c).take n) := by
  rintro ⟨text, htext⟩
  have hlen := congrArg List.length htext
  rw [List.length_take, Nat.min_eq_left (Nat.le_of_lt hn)] at hlen
  cases text with
  | nil =>
    change 0 = n at hlen
    omega
  | cons d text =>
    have hcode : String.utf8EncodeChar d ++ (encode text ++ (String.utf8EncodeChar c).drop n) =
        String.utf8EncodeChar c ++ [] := by
      rw [← List.append_assoc, ← encode_cons, htext, List.take_append_drop, List.append_nil]
    obtain rfl := head_unique hcode
    rw [encode_cons, List.length_append] at hlen
    omega

theorem valid_take_iff {text : List Char} {n : ℕ} :
    Valid ((encode text).take n) ↔ ∀ b, (encode text)[n]? = some b → b.IsUTF8FirstByte := by
  induction text generalizing n with
  | nil => exact iff_of_true ⟨[], by simp [encode]⟩ (by simp [encode])
  | cons c text ih =>
    have hpos := encodeChar_length_pos c
    rw [encode_cons]
    rcases Nat.lt_or_ge n (String.utf8EncodeChar c).length with hlt | hge
    · rw [List.take_append_of_le_length (Nat.le_of_lt hlt), List.getElem?_append_left hlt,
        List.getElem?_eq_getElem hlt]
      by_cases hn : n = 0
      · subst hn
        refine iff_of_true ⟨[], rfl⟩ ?_
        rintro b ⟨⟩
        exact UInt8.isUTF8FirstByte_getElem_utf8EncodeChar.mpr rfl
      · refine iff_of_false (not_valid_take_encodeChar (Nat.pos_of_ne_zero hn) hlt) fun h => ?_
        exact hn (UInt8.isUTF8FirstByte_getElem_utf8EncodeChar.mp (h _ rfl))
    · rw [List.take_append, List.take_of_length_le hge, valid_encodeChar_append,
        List.getElem?_append_right hge]
      exact ih

end Utf8
