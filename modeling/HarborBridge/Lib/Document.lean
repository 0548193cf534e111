import HarborBridge.Lib.GoStrings

/-! Documents of maps, lists and scalars, as a program that reads YAML or JSON into
`map[string]any` holds them. -/
namespace Document

open GoStrings

inductive Scalar where
  | null
  | bool (b : Bool)
  /-- A number, by its canonical text. -/
  | num (text : GoString)
  | str (s : GoString)
  deriving DecidableEq

/-- A map is its fields in the order of their keys. -/
inductive Value where
  | scalar (s : Scalar)
  | list (l : List Value)
  | map (fields : List (GoString × Value))

abbrev Fields := List (GoString × Value)

namespace Value

@[match_pattern] def str (s : GoString) : Value := .scalar (.str s)

@[match_pattern] def null : Value := .scalar .null

mutual
def decEq : (v w : Value) → Decidable (v = w)
  | .scalar s, .scalar t => if h : s = t then .isTrue (by rw [h]) else .isFalse (by simp [h])
  | .list l, .list m =>
    match decEqList l m with
    | .isTrue h => .isTrue (by rw [h])
    | .isFalse h => .isFalse (by simp [h])
  | .map f, .map g =>
    match decEqFields f g with
    | .isTrue h => .isTrue (by rw [h])
    | .isFalse h => .isFalse (by simp [h])
  | .scalar _, .list _ => .isFalse (by simp)
  | .scalar _, .map _ => .isFalse (by simp)
  | .list _, .scalar _ => .isFalse (by simp)
  | .list _, .map _ => .isFalse (by simp)
  | .map _, .scalar _ => .isFalse (by simp)
  | .map _, .list _ => .isFalse (by simp)

def decEqList : (l m : List Value) → Decidable (l = m)
  | [], [] => .isTrue rfl
  | [], _ :: _ => .isFalse (by simp)
  | _ :: _, [] => .isFalse (by simp)
  | v :: l, w :: m =>
    match decEq v w with
    | .isFalse h => .isFalse (by simp [h])
    | .isTrue h =>
      match decEqList l m with
      | .isTrue hl => .isTrue (by rw [h, hl])
      | .isFalse hl => .isFalse (by simp [hl])

def decEqFields : (f g : List (GoString × Value)) → Decidable (f = g)
  | [], [] => .isTrue rfl
  | [], _ :: _ => .isFalse (by simp)
  | _ :: _, [] => .isFalse (by simp)
  | (k, v) :: f, (l, w) :: g =>
    if hk : k = l then
      match decEq v w with
      | .isFalse h => .isFalse (by simp [h])
      | .isTrue h =>
        match decEqFields f g with
        | .isTrue hf => .isTrue (by rw [hk, h, hf])
        | .isFalse hf => .isFalse (by simp [hf])
    else .isFalse (by simp [hk])
end

instance : DecidableEq Value := decEq

def asString : Value → Option GoString
  | .str s => some s
  | _ => none

def asBool : Value → Option Bool
  | .scalar (.bool b) => some b
  | _ => none

def asList : Value → Option (List Value)
  | .list l => some l
  | _ => none

def asMap : Value → Option Fields
  | .map m => some m
  | _ => none

end Value

namespace Fields

def get : Fields → GoString → Option Value
  | [], _ => none
  | (k, v) :: m, key => if k = key then some v else get m key

def string (m : Fields) (key : GoString) : Option GoString := (get m key).bind Value.asString

def replace : Fields → GoString → Value → Fields
  | [], _, _ => []
  | (k, v) :: m, key, w => if k = key then (k, w) :: m else (k, v) :: replace m key w

def insert : Fields → GoString → Value → Fields
  | [], key, w => [(key, w)]
  | (k, v) :: m, key, w => if key < k then (key, w) :: (k, v) :: m else (k, v) :: insert m key w

def set (m : Fields) (key : GoString) (v : Value) : Fields :=
  if (get m key).isSome then replace m key v else insert m key v

theorem string_eq_some {m : Fields} {key s : GoString} : string m key = some s ↔ get m key = some (.str s) := by
  unfold string
  cases get m key with
  | none => simp
  | some v =>
    cases v with
    | scalar c => cases c <;> simp [Value.asString, Value.str]
    | list l => simp [Value.asString, Value.str]
    | map f => simp [Value.asString, Value.str]

theorem get_replace {m : Fields} {key : GoString} (v : Value) (h : (get m key).isSome = true) :
    get (replace m key v) key = some v := by
  induction m with
  | nil => cases h
  | cons f m ih =>
    obtain ⟨k, w⟩ := f
    rw [replace]
    split_ifs with hk
    · rw [get, if_pos hk]
    · rw [get, if_neg hk] at h ⊢
      exact ih h

theorem get_insert {m : Fields} {key : GoString} (v : Value) (h : get m key = none) :
    get (insert m key v) key = some v := by
  induction m with
  | nil => simp [insert, get]
  | cons f m ih =>
    obtain ⟨k, w⟩ := f
    rw [get] at h
    split_ifs at h with hk
    rw [insert]
    split_ifs with hlt
    · rw [get, if_pos rfl]
    · rw [get, if_neg hk]
      exact ih h

theorem get_set (m : Fields) (key : GoString) (v : Value) : get (set m key v) key = some v := by
  unfold set
  split_ifs with h
  · exact get_replace v h
  · exact get_insert v (Option.not_isSome_iff_eq_none.mp h)

theorem get_replace_of_ne (m : Fields) {key other : GoString} (v : Value) (h : other ≠ key) :
    get (replace m key v) other = get m other := by
  induction m with
  | nil => rfl
  | cons f m ih =>
    obtain ⟨k, w⟩ := f
    rw [replace]
    split_ifs with hk
    · rw [get, get, if_neg (hk ▸ h.symm), if_neg (hk ▸ h.symm)]
    · rw [get, get, ih]

theorem get_insert_of_ne (m : Fields) {key other : GoString} (v : Value) (h : other ≠ key) :
    get (insert m key v) other = get m other := by
  induction m with
  | nil => simp [insert, get, h.symm]
  | cons f m ih =>
    obtain ⟨k, w⟩ := f
    rw [insert]
    split_ifs with hlt
    · rw [get, if_neg h.symm]
    · rw [get, get, ih]

theorem get_set_of_ne (m : Fields) {key other : GoString} (v : Value) (h : other ≠ key) :
    get (set m key v) other = get m other := by
  unfold set
  split_ifs
  · exact get_replace_of_ne m v h
  · exact get_insert_of_ne m v h

theorem set_get {m : Fields} {key : GoString} {v : Value} (h : get m key = some v) : set m key v = m := by
  have hreplace : ∀ m : Fields, get m key = some v → replace m key v = m := by
    intro m
    induction m with
    | nil => exact fun _ => rfl
    | cons f m ih =>
      obtain ⟨k, w⟩ := f
      rw [get, replace]
      split_ifs with hk
      · intro hw
        rw [Option.some.inj hw]
      · intro hm
        rw [ih hm]
  rw [set, if_pos (by rw [h]; rfl), hreplace m h]

end Fields

end Document
