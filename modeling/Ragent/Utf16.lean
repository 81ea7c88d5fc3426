import Ragent.RangeTilings

set_option autoImplicit false

/-!
# Offsets in UTF-16

A text counted in code points and in 16-bit units. The two countings part behind the first character
beyond U+FFFF, which takes two units.
-/
namespace Utf16
open SpacedWords

def units (c : Char) : List UInt16 :=
  if c.toNat < 0x10000 then [UInt16.ofNat c.toNat]
  else [UInt16.ofNat (0xD800 + (c.toNat - 0x10000) / 0x400),
    UInt16.ofNat (0xDC00 + (c.toNat - 0x10000) % 0x400)]

def encode (text : List Char) : List UInt16 := text.flatMap units

def wide (c : Char) : Bool := 0x10000 ≤ c.toNat

theorem encode_append (s t : List Char) : encode (s ++ t) = encode s ++ encode t :=
  List.flatMap_append

theorem length_units (c : Char) : (units c).length = if wide c then 2 else 1 := by
  unfold units wide
  by_cases h : c.toNat < 0x10000
  · simp [h, Nat.not_le_of_lt h]
  · simp [h, Nat.le_of_not_lt h]

theorem length_encode (text : List Char) :
    (encode text).length = text.length + text.countP wide := by
  induction text with
  | nil => rfl
  | cons c text ih =>
    change (units c ++ encode text).length = _
    rw [List.length_append, length_units, ih, List.length_cons, List.countP_cons]
    split_ifs <;> omega

/-- A slice by unit offsets is the slice by code points exactly if all of its characters take one
    unit and the units read the same as many places further on as wide characters stand before. -/
theorem slice_encode_eq_iff {text : List Char} {s e : ℕ} (hs : s ≤ e) (he : e ≤ text.length) :
    slice (encode text) s e = encode (slice text s e) ↔
      (∀ c ∈ slice text s e, wide c = false) ∧
        ∀ i, s ≤ i → i < e →
          (encode text)[i]? = (encode text)[i + (text.take s).countP wide]? := by
  have hfront : (encode (text.take s)).length = s + (text.take s).countP wide := by
    rw [length_encode, List.length_take, Nat.min_eq_left (hs.trans he)]
  have hmiddle : (encode (slice text s e)).length = e - s + (slice text s e).countP wide := by
    rw [length_encode, slice_length, Nat.min_eq_left he]
  have hsplit : encode text = encode (text.take s) ++ (encode (slice text s e) ++
      encode (text.drop e)) := by
    rw [← encode_append, ← encode_append, ← List.append_assoc, take_append_slice text hs,
      List.take_append_drop]
  have hlen : (slice (encode text) s e).length = e - s := by
    have hall := length_encode text
    rw [slice_length, Nat.min_eq_left (by omega)]
  have hread : ∀ i, s ≤ i → i < e → (slice (encode text) s e)[i - s]? = (encode text)[i]? := by
    intro i hi hie
    rw [slice, List.getElem?_drop, Nat.add_sub_cancel' hi, List.getElem?_take_of_lt hie]
  have hshift : ∀ i, s ≤ i → i - s < (encode (slice text s e)).length →
      (encode (slice text s e))[i - s]? = (encode text)[i + (text.take s).countP wide]? := by
    intro i hi hlt
    rw [hsplit, List.getElem?_append_right (by omega), hfront, List.getElem?_append_left (by omega)]
    congr 1
    omega
  have hwide : (∀ c ∈ slice text s e, wide c = false) ↔ (slice text s e).countP wide = 0 := by
    simp [List.countP_eq_zero]
  rw [hwide]
  constructor
  · intro h
    have hzero : (slice text s e).countP wide = 0 := by
      rw [← h, hlen] at hmiddle
      omega
    refine ⟨hzero, fun i hi hie => ?_⟩
    rw [← hread i hi hie, h, hshift i hi (by omega)]
  · rintro ⟨hzero, hsame⟩
    apply List.ext_getElem?
    intro j
    by_cases hj : j < e - s
    · have hi := hread (s + j) (by omega) (by omega)
      have hi' := hshift (s + j) (by omega) (by omega)
      rw [Nat.add_sub_cancel_left] at hi hi'
      rw [hi, hi', hsame (s + j) (by omega) (by omega)]
    · rw [List.getElem?_eq_none (by omega), List.getElem?_eq_none (by omega)]

end Utf16
