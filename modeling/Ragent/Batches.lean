import Mathlib.Data.List.Basic
import Mathlib.Algebra.Order.Ring.Nat
import Mathlib.Tactic.Common

set_option autoImplicit false

/-!
# Batches

A sequence is cut into consecutive batches of one size; only the last one may be shorter.
-/
namespace Batches

section
variable {β : Type} {size : ℕ}

/-- The batches of `items`, `batch` being the open one. -/
def batchesFrom (size : ℕ) (batch : List β) : List β → List (List β)
  | [] => if batch.isEmpty then [] else [batch]
  | item :: items =>
    if size ≤ (batch ++ [item]).length then (batch ++ [item]) :: batchesFrom size [] items
    else batchesFrom size (batch ++ [item]) items

def batches (size : ℕ) (items : List β) : List (List β) := batchesFrom size [] items

theorem batchesFrom_getElem? {batch : List β} (items : List β) (h : batch.length < size) (x : ℕ) :
    (batchesFrom size batch items)[x]? = if size * x < (batch ++ items).length then
      some (((batch ++ items).drop (size * x)).take size) else none := by
  induction items generalizing batch x with
  | nil =>
    rw [batchesFrom, List.append_nil]
    cases batch with
    | nil => simp
    | cons b batch =>
      cases x with
      | zero =>
        rw [Nat.mul_zero, List.drop_zero, List.take_of_length_le h.le]
        simp
      | succ x =>
        have hlarge : ¬ size * (x + 1) < (b :: batch).length := by
          rw [Nat.mul_succ]
          omega
        rw [if_neg hlarge]
        simp
  | cons item items ih =>
    have hall : batch ++ item :: items = (batch ++ [item]) ++ items := by simp
    rw [batchesFrom, hall]
    by_cases hfull : size ≤ (batch ++ [item]).length
    · have hlen : (batch ++ [item]).length = size := by
        simp only [List.length_append, List.length_singleton] at hfull ⊢
        omega
      rw [if_pos hfull]
      cases x with
      | zero =>
        rw [List.getElem?_cons_zero, Nat.mul_zero, List.drop_zero, List.take_left' hlen, if_pos]
        simp only [List.length_append, List.length_singleton]
        omega
      | succ x =>
        have hempty : ([] : List β).length < size := by
          rw [List.length_nil]
          omega
        rw [List.getElem?_cons_succ, ih hempty, List.nil_append, List.length_append, hlen,
          Nat.mul_succ, Nat.add_comm (size * x), ← List.drop_drop, List.drop_left' hlen]
        simp only [Nat.add_lt_add_iff_left]
    · rw [if_neg hfull]
      exact ih (Nat.lt_of_not_le hfull) x

theorem batches_getElem? (items : List β) (h : 0 < size) (x : ℕ) :
    (batches size items)[x]? =
      if size * x < items.length then some ((items.drop (size * x)).take size) else none :=
  batchesFrom_getElem? items h x

theorem batchesFrom_flatten (size : ℕ) (batch items : List β) :
    (batchesFrom size batch items).flatten = batch ++ items := by
  induction items generalizing batch with
  | nil => cases batch with
    | nil => rfl
    | cons b batch => simp [batchesFrom]
  | cons item items ih =>
    rw [batchesFrom]
    by_cases hfull : size ≤ (batch ++ [item]).length
    · rw [if_pos hfull, List.flatten_cons, ih, List.nil_append, List.append_assoc,
        List.singleton_append]
    · rw [if_neg hfull, ih, List.append_assoc, List.singleton_append]

theorem batches_flatten (size : ℕ) (items : List β) : (batches size items).flatten = items :=
  batchesFrom_flatten size [] items

theorem ne_nil_of_mem_batches {items batch : List β} (h : 0 < size)
    (hbatch : batch ∈ batches size items) : batch ≠ [] := by
  rcases List.mem_iff_getElem?.mp hbatch with ⟨x, hx⟩
  rw [batches_getElem? items h] at hx
  split_ifs at hx with hlt
  rw [← Option.some.inj hx]
  apply List.ne_nil_of_length_pos
  rw [List.length_take, List.length_drop]
  omega

theorem batches_eq_map (items : List β) (h : 0 < size) : batches size items =
    (List.range ((items.length + size - 1) / size)).map fun x =>
      (items.drop (size * x)).take size := by
  apply List.ext_getElem?
  intro x
  rw [batches_getElem? items h, List.getElem?_map]
  have hcount : x < (items.length + size - 1) / size ↔ size * x < items.length := by
    rw [Nat.lt_div_iff_mul_lt h, Nat.mul_comm x]
    omega
  by_cases hx : size * x < items.length
  · rw [if_pos hx, List.getElem?_range (hcount.mpr hx), Option.map_some]
  · have hlarge : (List.range ((items.length + size - 1) / size))[x]? = none := by
      rw [List.getElem?_eq_none_iff, List.length_range]
      exact Nat.le_of_not_lt fun hlt => hx (hcount.mp hlt)
    rw [if_neg hx, hlarge, Option.map_none]

def batchStop (size length x : ℕ) : ℕ := min (size * x + size) length

theorem batchStop_le (size length x : ℕ) : batchStop size length x ≤ length := Nat.min_le_right _ _

theorem lt_batchStop {length x : ℕ} (h : 0 < size) (hlt : size * x < length) :
    size * x < batchStop size length x := by
  unfold batchStop
  omega

theorem batchStop_le_start (size length : ℕ) {x y : ℕ} (h : x < y) :
    batchStop size length x ≤ size * y := by
  have hmul : size * (x + 1) ≤ size * y := Nat.mul_le_mul_left size h
  rw [Nat.mul_succ] at hmul
  exact (Nat.min_le_left _ _).trans hmul

theorem of_batches_getElem? {items batch : List β} {x : ℕ} (h : 0 < size)
    (hbatch : (batches size items)[x]? = some batch) : size * x < items.length ∧
      batch.head? = items[size * x]? ∧
      batch.getLast? = items[batchStop size items.length x - 1]? := by
  rw [batches_getElem? items h] at hbatch
  split_ifs at hbatch with hlt
  cases hbatch
  refine ⟨hlt, ?_, ?_⟩
  · rw [List.head?_take, if_neg (by omega), List.head?_drop]
  · rw [List.getLast?_eq_getElem?, List.length_take, List.length_drop,
      List.getElem?_take_of_lt (by omega), List.getElem?_drop]
    unfold batchStop
    congr 1
    omega

end

/-- The items `i` to `i + n - 1` lie in one batch, strictly inside it at either end unless the
    batch may end right there. -/
theorem exists_batch_iff {size i n length : ℕ} {front back : Prop} (hn : 0 < n)
    (hlength : i + n ≤ length) (hsize : 0 < size) :
    (∃ x, size * x < length ∧ (size * x < i ∨ size * x = i ∧ front) ∧
      (i + n < batchStop size length x ∨ batchStop size length x = i + n ∧ back)) ↔
    i / size = (i + n - 1) / size ∧ (i % size ≠ 0 ∨ front) ∧
      (back ∨ (i + n) % size ≠ 0 ∧ i + n < length) := by
  have hi := Nat.div_add_mod i size
  have hj := Nat.div_add_mod (i + n - 1) size
  have himod := Nat.mod_lt i hsize
  have hjmod := Nat.mod_lt (i + n - 1) hsize
  unfold batchStop
  constructor
  · rintro ⟨x, hx, hfront, hback⟩
    have hle : size * x ≤ i := by omega
    have hge : i + n ≤ size * x + size := by omega
    have hidiv : i / size = x := by
      rw [Nat.div_eq_iff hsize, Nat.mul_comm x]
      omega
    have hjdiv : (i + n - 1) / size = x := by
      rw [Nat.div_eq_iff hsize, Nat.mul_comm x]
      omega
    rw [hidiv] at hi
    refine ⟨hidiv.trans hjdiv.symm, ?_, ?_⟩
    · by_cases hzero : i % size = 0
      · apply Or.inr
        rcases hfront with hfront | hfront
        · omega
        · exact hfront.2
      · exact Or.inl hzero
    · rcases hback with hback | hback
      · apply Or.inr
        have hmod : (i + n) % size = i + n - size * x := by
          have hsplit : i + n = (i + n - size * x) + size * x := by omega
          rw [hsplit, Nat.add_mul_mod_self_left, Nat.add_sub_cancel]
          apply Nat.mod_eq_of_lt
          omega
        omega
      · exact Or.inl hback.2
  · rintro ⟨hsame, hfront, hback⟩
    rw [← hsame] at hj
    refine ⟨i / size, by omega, ?_, ?_⟩
    · rcases hfront with hfront | hfront
      · omega
      · rcases Nat.eq_zero_or_pos (i % size) with hzero | hpos
        · exact Or.inr ⟨by omega, hfront⟩
        · exact Or.inl (by omega)
    · by_cases hend : min (size * (i / size) + size) length = i + n
      · apply Or.inr
        refine ⟨hend, ?_⟩
        apply hback.resolve_right
        rintro ⟨hmod, hlt⟩
        have hmul : i + n = size * (i / size + 1) := by
          rw [Nat.mul_succ]
          omega
        rw [hmul, Nat.mul_mod_right] at hmod
        exact hmod rfl
      · exact Or.inl (by omega)

end Batches
