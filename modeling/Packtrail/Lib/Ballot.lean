import Mathlib.Data.List.Basic

/-
# Ballots that are counted while votes come in

Voters `W` say yes or no, one after another, and `need` of them must say yes. `Allows v a` says that the
final votes `a` are among those the votes `v` counted so far still allow. The result is known before
everyone has voted when all of these agree on it: `forall_reach` and `forall_miss` say when that is, by
counting the votes cast and the votes that are out.
-/

namespace Ballot

variable {β : Type} [DecidableEq β]

/-- The final votes `a` have `v` among them. -/
def Allows (v : List (β × Bool)) (a : β → Bool) : Prop := ∀ b ok, v.lookup b = some ok → a b = ok

def yes (v : List (β × Bool)) (b : β) : Bool := v.lookup b == some true

def out (v : List (β × Bool)) (b : β) : Bool := v.lookup b == none

variable {v : List (β × Bool)} {W : List β} {need : Int}

theorem allows_yes (v : List (β × Bool)) : Allows v (yes v) := by
  intro b ok hb
  simp only [yes, hb]
  cases ok <;> rfl

theorem allows_out (v : List (β × Bool)) : Allows v fun b => yes v b || out v b := by
  intro b ok hb
  simp only [yes, out, hb]
  cases ok <;> rfl

theorem Allows.yes_le {a : β → Bool} (h : Allows v a) : W.countP (yes v) ≤ W.countP a := by
  refine List.countP_mono_left fun b _ hb => h b true ?_
  simpa [yes] using hb

theorem Allows.le_out {a : β → Bool} (h : Allows v a) : W.countP a ≤ W.countP fun b => yes v b || out v b := by
  refine List.countP_mono_left fun b _ hb => ?_
  cases hl : v.lookup b with
  | none => simp [out, hl]
  | some ok =>
    have : ok = true := (h b ok hl).symm.trans hb
    simp [yes, hl, this]

theorem countP_out (W : List β) : (W.countP fun b => yes v b || out v b) = W.countP (yes v) + W.countP (out v) := by
  induction W with
  | nil => rfl
  | cons b W ih =>
    simp only [List.countP_cons, ih]
    cases hl : v.lookup b with
    | none => simp [yes, out, hl]; omega
    | some ok => cases ok <;> simp [yes, out, hl]; omega

/-- Enough votes are sure once enough yes votes are in. -/
theorem forall_reach : (∀ a, Allows v a → need ≤ W.countP a) ↔ need ≤ W.countP (yes v) := by
  constructor
  · intro h
    exact h _ (allows_yes v)
  · intro h a ha
    have := ha.yes_le (W := W)
    omega

/-- Too few votes are sure once even the votes that are out would not do. -/
theorem forall_miss : (∀ a, Allows v a → ¬ need ≤ W.countP a) ↔ ¬ need ≤ W.countP (yes v) + W.countP (out v) := by
  constructor
  · intro h
    have := h _ (allows_out v)
    rw [countP_out] at this
    push_cast at this
    exact this
  · intro h a ha
    have := ha.le_out (W := W)
    rw [countP_out] at this
    omega

end Ballot
