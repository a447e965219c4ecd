import Mathlib
import Packtrail.Lib.Replay

/-!
# Runs of a labelled system

`step w a w'` says that action `a` leads from `w` to `w'`. A run takes one step after the other, and every
step of it meets a condition `ok` on the state it is taken in and its action: what is proved of a run
holds as long as the system keeps to that condition, and of every run when the condition is `True`.
-/

namespace Transition

variable {σ α : Type}

/-- The states reached from `w` by steps that meet `ok`. -/
inductive Run (step : σ → α → σ → Prop) (ok : σ → α → Prop) (w : σ) : σ → Prop
  | refl : Run step ok w w
  | tail {w' w'' : σ} {a : α} (h : Run step ok w w') (ha : ok w' a) (hs : step w' a w'') : Run step ok w w''

namespace Run

variable {step : σ → α → σ → Prop} {ok : σ → α → Prop} {w w' : σ}

/-- What holds at first and is kept by every step holds in every state reached. -/
theorem invariant {I : σ → Prop} (h : Run step ok w w') (h₀ : I w)
    (hstep : ∀ u a u', I u → ok u a → step u a u' → I u') : I w' := by
  induction h with
  | refl => exact h₀
  | tail _ ha hs ih => exact hstep _ _ _ ih ha hs

end Run

/-- Take choices one after the other; `none` if one of them cannot be taken. -/
def exec {β : Type} (next : σ → β → Option σ) : σ → List β → Option σ
  | w, [] => some w
  | w, b :: bs =>
    match next w b with
    | none => none
    | some w' => exec next w' bs

/-- Choices that are actions meeting `ok` in the states that meet an invariant are a run once they are executed. -/
theorem Run.of_exec_invariant {β : Type} {next : σ → β → Option σ} {step : σ → α → σ → Prop} {ok : σ → α → Prop} {I : σ → Prop}
    {w₀ w w' : σ} {bs : List β} (h₀ : Run step ok w₀ w) (hI : I w)
    (hok : ∀ b ∈ bs, ∀ u u', I u → next u b = some u' → I u' ∧ ∃ a, ok u a ∧ step u a u') (h : exec next w bs = some w') :
    Run step ok w₀ w' ∧ I w' := by
  induction bs generalizing w with
  | nil => cases h; exact ⟨h₀, hI⟩
  | cons b bs ih =>
    simp only [exec] at h
    cases hn : next w b with
    | none => rw [hn] at h; cases h
    | some u =>
      rw [hn] at h
      obtain ⟨hu, a, ha, hs⟩ := hok b List.mem_cons_self w u hI hn
      exact ih (h₀.tail ha hs) hu (fun b hb => hok b (List.mem_cons_of_mem _ hb)) h

theorem Run.of_exec {β : Type} {next : σ → β → Option σ} {step : σ → α → σ → Prop} {ok : σ → α → Prop} {w₀ w w' : σ} {bs : List β}
    (h₀ : Run step ok w₀ w) (hok : ∀ b ∈ bs, ∀ u u', next u b = some u' → ∃ a, ok u a ∧ step u a u')
    (h : exec next w bs = some w') : Run step ok w₀ w' :=
  (h₀.of_exec_invariant (I := fun _ => True) trivial (fun b hb u u' _ hn => ⟨trivial, hok b hb u u' hn⟩) h).1

theorem Run.trans {step : σ → α → σ → Prop} {ok : σ → α → Prop} {w w' w'' : σ} (h : Run step ok w w') (h' : Run step ok w' w'') :
    Run step ok w w'' := by
  induction h' with
  | refl => exact h
  | tail _ ha hs ih => exact ih.tail ha hs

end Transition
