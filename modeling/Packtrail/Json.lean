import Mathlib

/-
# JSON values and string-keyed maps

| here | there |
| --- | --- |
| `Json`               | a JSON text, by its value; an object keeps its members as written |
| `Raw`                | `json.RawMessage`: `none` is the nil (or empty) message, `some .null` the text `null` |
| `isNull`, `isObject` | `internal/fold/reduce.go:54-57`, `internal/fold/decide.go:1302-1306` |
| `SMap`               | a Go map keyed by strings; its keys come out sorted, as `slices.Sorted(maps.Keys(m))` and `encoding/json` have them |
| `reduce`             | `Reduce` and the four reducers (`internal/fold/reduce.go:28-119`) |

Every `RawMessage` of the program was decoded from JSON or made by `json.Marshal`, so it is a valid
text (or absent). Numbers are exact: a rational stands for the number the text denotes. So what `float64` refuses is
accepted here: a literal out of its range, and a sum that overflows.
-/

namespace Packtrail

inductive Json
  | null
  | bool (b : Bool)
  | num (q : Rat)
  | str (s : String)
  | arr (xs : List Json)
  | obj (members : List (String × Json))
  deriving Inhabited

abbrev Raw := Option Json

abbrev SMap (V : Type) := Std.ExtTreeMap String V

/-! ## Looking up in a changed map -/

section
variable {V : Type} {m : SMap V} {a k : String} {v w : V}

theorem get_insert : (m.insert k v)[a]? = if k = a then some v else m[a]? := by
  simp [Std.ExtTreeMap.getElem?_insert]

theorem get_erase : (m.erase k)[a]? = if k = a then none else m[a]? := by
  simp [Std.ExtTreeMap.getElem?_erase]

theorem get_of_erase (h : (m.erase k)[a]? = some v) : k ≠ a ∧ m[a]? = some v := by
  rw [get_erase] at h
  split at h
  · cases h
  · exact ⟨‹_›, h⟩

theorem get_of_insert (h : (m.insert k v)[a]? = some w) : k = a ∧ v = w ∨ k ≠ a ∧ m[a]? = some w := by
  rw [get_insert] at h
  split at h
  · exact .inl ⟨‹_›, Option.some.inj h⟩
  · exact .inr ⟨‹_›, h⟩

theorem get_filter {p : String → V → Bool} : (m.filter p)[a]? = some v ↔ m[a]? = some v ∧ p a v = true := by
  rw [Std.ExtTreeMap.getElem?_filter']
  simp [Option.filter_eq_some_iff]

theorem get_of_filter {p : String → V → Bool} (h : (m.filter p)[a]? = some v) : m[a]? = some v ∧ p a v = true :=
  get_filter.1 h

theorem get_empty : (∅ : SMap V)[a]? = none := Std.ExtTreeMap.getElem?_empty

end

def isNull : Raw → Bool
  | none | some .null => true
  | _ => false

def isObject : Raw → Bool
  | some (.obj _) => true
  | _ => false

/-- What `json.Marshal` writes for a raw message inside a map or a list: nil becomes `null`. -/
def Raw.encoded (r : Raw) : Json := r.getD .null

/-- `json.Marshal` of a map of values: an object with sorted keys. -/
def objectOf (m : SMap Json) : Json := .obj m.toList

/-- Members into a map, as `json.Unmarshal` fills one: the last of two equal keys wins. -/
def mapOf (members : List (String × Json)) : SMap Json :=
  members.foldl (fun m kv => m.insert kv.1 kv.2) ∅

/-! ## Reducers -/

/-- `Channel.Reducer` as written in a flow. -/
inductive Reducer
  | unset | replace | append | merge | sum
  | unknown (s : String)
  deriving DecidableEq, Repr

/-- `json.Unmarshal(delta, &items)` succeeds on an array and on `null`; anything else is one item. -/
def appendItems : Json → List Json
  | .arr ys => ys
  | .null => []
  | v => [v]

def reduceAppend (cur : Raw) (delta : Json) : Except String Json :=
  match cur with
  | none | some .null => .ok (.arr (appendItems delta))
  | some (.arr xs) => .ok (.arr (xs ++ appendItems delta))
  | some _ => .error "reducer: append: current value is not an array"

def mergeInto (obj : SMap Json) : Json → Except String Json
  | .obj ms => .ok (objectOf (ms.foldl (fun m kv => m.insert kv.1 kv.2) obj))
  | _ => .error "reducer: merge: delta is not an object"

def reduceMerge (cur : Raw) (delta : Json) : Except String Json :=
  match cur with
  | none | some .null => mergeInto ∅ delta
  | some (.obj ms) => mergeInto (mapOf ms) delta
  | some _ => .error "reducer: merge: current value is not an object"

/-- `json.Unmarshal` into a `float64`: `null` leaves the zero. -/
def numberOf : Json → Option Rat
  | .num q => some q
  | .null => some 0
  | _ => none

def reduceSum (cur : Raw) (delta : Json) : Except String Json :=
  match numberOf cur.encoded with
  | none => .error "reducer: sum: current value is not a number"
  | some a =>
    match numberOf delta with
    | none => .error "reducer: sum: delta is not a number"
    | some b => .ok (.num (a + b))

/-- `quote` is how `fmt` prints a string under `%q`. -/
def reduce (quote : String → String) (r : Reducer) (cur : Raw) (delta : Json) : Except String Json :=
  match r with
  | .replace | .unset => .ok delta
  | .append => reduceAppend cur delta
  | .merge => reduceMerge cur delta
  | .sum => reduceSum cur delta
  | .unknown s => .error ("reducer: unknown reducer " ++ quote s)

end Packtrail
