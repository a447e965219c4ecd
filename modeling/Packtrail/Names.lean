import Packtrail.Json

/-
# Tokens, instance keys and derived ids

| here | there |
| --- | --- |
| `validToken`, `checkToken` | `names.ValidToken`, `names.CheckToken` (`internal/names/names.go:33-60`) |
| `trimSpace`            | `strings.TrimSpace`, with the white space of `unicode.IsSpace` |
| `atoi`                 | `strconv.Atoi` |
| `itemKey`              | the key of a map item, `n.ID + "#" + strconv.Itoa(i)` (`internal/fold/decide.go:1099`) |
| `timerID`              | `"t" + strconv.Itoa(nr)` (`internal/fold/decide.go:505`, `:973`) |
-/

namespace Packtrail

def tokenChar (c : Char) : Bool :=
  ('a' ≤ c ∧ c ≤ 'z') ∨ ('A' ≤ c ∧ c ≤ 'Z') ∨ ('0' ≤ c ∧ c ≤ '9') ∨ c = '_' ∨ c = '-'

/-- One to 128 letters, digits, `_` or `-`. -/
def validToken (s : String) : Bool :=
  s.toList.all tokenChar && decide (1 ≤ s.toList.length) && decide (s.toList.length ≤ 128)

/-- `names.CheckToken`: the error when `s` is not a valid token. -/
def checkToken (quote : String → String) (what s : String) : Option String :=
  if validToken s then none
  else some ("invalid " ++ what ++ " " ++ quote s ++ ": must match [A-Za-z0-9_-]\x7b1,128\x7d")

def isSpace (c : Char) : Bool :=
  let n := c.toNat
  (9 ≤ n && n ≤ 13) || n == 0x20 || n == 0x85 || n == 0xA0 || n == 0x1680 || (0x2000 ≤ n && n ≤ 0x200a) ||
    n == 0x2028 || n == 0x2029 || n == 0x202f || n == 0x205f || n == 0x3000

def trimSpace (s : String) : String :=
  .ofList ((s.toList.dropWhile isSpace).reverse.dropWhile isSpace).reverse

/-- `strings.TrimPrefix` when `strings.HasPrefix` holds, else nothing. -/
def dropPrefix? (p s : String) : Option String :=
  if p.toList.isPrefixOf s.toList then some (.ofList (s.toList.drop p.toList.length)) else none

/-- Decimal digits, most significant first; at least one. -/
def digits? : List Char → Option Nat
  | [] => none
  | cs => cs.foldlM (fun n c => if c.isDigit then some (10 * n + (c.toNat - '0'.toNat)) else none) 0

/-- `strconv.Atoi`: an optional sign, decimal digits, in the range of a 64-bit `int`. -/
def atoi (s : String) : Option Int :=
  let signed : Option Int :=
    match s.toList with
    | '-' :: cs => (digits? cs).map fun n => -(n : Int)
    | '+' :: cs => (digits? cs).map fun n => (n : Int)
    | cs => (digits? cs).map fun n => (n : Int)
  match signed with
  | some i => if -2 ^ 63 ≤ i ∧ i < 2 ^ 63 then some i else none
  | none => none

def itemKey (node : String) (i : Nat) : String := node ++ "#" ++ toString i

def timerID (nr : Nat) : String := "t" ++ toString nr

/-! ## The ids determine what they were made of -/

theorem toString_toList (n : Nat) : (toString n).toList = Nat.toDigits 10 n := by
  show (Nat.repr n).toList = _
  simp [Nat.repr]

theorem toString_inj {m n : Nat} (h : toString m = toString n) : m = n := Nat.repr_inj.1 h

theorem append_toString_inj {p : String} {m n : Nat} (h : p ++ toString m = p ++ toString n) : m = n := by
  have h := congrArg String.toList h
  rw [String.toList_append, String.toList_append] at h
  exact toString_inj (String.toList_injective (List.append_cancel_left h))

theorem timerID_inj {m n : Nat} (h : timerID m = timerID n) : m = n := append_toString_inj h

theorem itemKey_inj {node : String} {i j : Nat} (h : itemKey node i = itemKey node j) : i = j := append_toString_inj h

theorem itemKey_ne_empty (node : String) (i : Nat) : itemKey node i ≠ "" := by
  intro h
  have h := congrArg (List.length ∘ String.toList) h
  simp [itemKey] at h

/-- `id` ends in `-c` and the number `m`, as the ids of children do. -/
def Numbered (id : String) (m : Nat) : Prop := ∃ p : String, id = p ++ "-c" ++ toString m

/-- The digits after the last `c` of a child id. -/
theorem numbered_digits {id : String} {m : Nat} (h : Numbered id m) :
    id.toList.reverse.takeWhile (· ≠ 'c') = (toString m).toList.reverse := by
  obtain ⟨p, rfl⟩ := h
  have hd : ∀ c ∈ (toString m).toList.reverse, c ≠ 'c' := by
    intro c hc
    rw [List.mem_reverse, toString_toList] at hc
    have := Nat.isDigit_of_mem_toDigits (by decide) (by decide) hc
    rintro rfl
    exact absurd this (by decide)
  simp only [String.toList_append, List.reverse_append]
  rw [List.takeWhile_append_of_pos (by simpa using hd)]
  simp

theorem Numbered.inj {id : String} {m n : Nat} (hm : Numbered id m) (hn : Numbered id n) : m = n := by
  have h := (numbered_digits hm).symm.trans (numbered_digits hn)
  exact toString_inj (String.toList_injective (List.reverse_injective h))

end Packtrail
