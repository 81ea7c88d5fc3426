import Mathlib.Data.Finset.Basic

set_option autoImplicit false

/-!
# JSON values in Python

What `json.loads` returns and `json.dumps` takes. A dictionary is a finite map, since `==` ignores
the order of its keys.
-/
namespace Ragent.PyJson

inductive Json (F : Type)
  | null
  | bool (b : Bool)
  | int (n : ℤ)
  | float (x : F)
  | str (s : String)
  | list (items : List (Json F))
  | dict (keys : Finset String) (item : {k : String // k ∈ keys} → Json F)

structure Dict (F : Type) where
  keys : Finset String
  item : {k : String // k ∈ keys} → Json F

inductive LoadsError
  | decodeError (text : String)
  /-- Any other exception of the decoder, such as a `RecursionError`. -/
  | other (typeName : String)
  deriving DecidableEq

/-- The library and the built-in functions on its values. -/
structure Platform (F : Type) where
  loads : List Char → Except LoadsError (Json F)
  dumps : Json F → List Char
  str : Json F → String
  repr : Json F → String
  isZero : F → Bool

section
variable {F : Type}

namespace Dict

def json (d : Dict F) : Json F := .dict d.keys d.item

theorem json_injective : Function.Injective (json : Dict F → Json F) := by
  intro d e h
  cases d
  cases e
  cases h
  rfl

/-- `d.get(key)` -/
def get (d : Dict F) (key : String) : Option (Json F) :=
  if h : key ∈ d.keys then some (d.item ⟨key, h⟩) else none

def empty : Dict F where
  keys := ∅
  item k := absurd k.2 (Finset.notMem_empty _)

theorem isSome_lookup_iff {fields : List (String × Json F)} {key : String} :
    (fields.lookup key).isSome ↔ key ∈ (fields.map (·.1)).toFinset := by
  rw [List.lookup_isSome_iff, List.mem_toFinset, List.mem_map]
  simp only [beq_iff_eq]
  simp only [eq_comm]

/-- A dictionary display with distinct keys. -/
def ofFields (fields : List (String × Json F)) : Dict F where
  keys := (fields.map (·.1)).toFinset
  item k := (fields.lookup k.1).get (isSome_lookup_iff.mpr k.2)

theorem get_ofFields (fields : List (String × Json F)) (key : String) :
    (ofFields fields).get key = fields.lookup key := by
  unfold get
  by_cases h : key ∈ (fields.map (·.1)).toFinset
  · rw [dif_pos (show key ∈ (ofFields fields).keys from h)]
    exact Option.some_get _
  · rw [dif_neg (show key ∉ (ofFields fields).keys from h), eq_comm, ← Option.not_isSome_iff_eq_none,
      isSome_lookup_iff]
    exact h

theorem mem_keys_iff {d : Dict F} {key : String} : key ∈ d.keys ↔ (d.get key).isSome := by
  unfold get
  by_cases h : key ∈ d.keys <;> simp [h]

end Dict

namespace Json

/-- `type(v).__name__` -/
def typeName : Json F → String
  | .null => "NoneType"
  | .bool _ => "bool"
  | .int _ => "int"
  | .float _ => "float"
  | .str _ => "str"
  | .list _ => "list"
  | .dict _ _ => "dict"

/-- `bool(v)` -/
def truthy (isZero : F → Bool) : Json F → Bool
  | .null => false
  | .bool b => b
  | .int n => n ≠ 0
  | .float x => !isZero x
  | .str s => s ≠ ""
  | .list items => !items.isEmpty
  | .dict keys _ => keys ≠ ∅

end Json
end
end Ragent.PyJson
