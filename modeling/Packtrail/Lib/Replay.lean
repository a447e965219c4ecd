import Mathlib

/-!
# Replaying a log of events

A state that is only ever changed by applying events: `apply s e` is the next state, or the
reason why `e` cannot be applied. `replay` folds a list of events, `Path` is a replay of which every
event also meets a guard (what its writer promises about it, in the state it is written in).
Whatever is proved of a `Path` is proved once for every writer that keeps to the guard.
-/

namespace Replay

variable {σ ε η : Type}

/-- Fold `evs` into `s`, stopping at the first event that cannot be applied. -/
def replay (apply : σ → ε → Except η σ) : σ → List ε → Except η σ
  | s, [] => .ok s
  | s, e :: es =>
    match apply s e with
    | .ok s' => replay apply s' es
    | .error x => .error x

/-- `Path apply G s evs s'`: the events `evs` lead from `s` to `s'`, each meeting `G` when applied. -/
inductive Path (apply : σ → ε → Except η σ) (G : σ → ε → Prop) : σ → List ε → σ → Prop
  | nil (s : σ) : Path apply G s [] s
  | cons {s s₁ s₂ : σ} {e : ε} {es : List ε} (guard : G s e) (ok : apply s e = .ok s₁)
      (rest : Path apply G s₁ es s₂) : Path apply G s (e :: es) s₂

variable {apply : σ → ε → Except η σ} {G H : σ → ε → Prop}

theorem replay_append (s : σ) (xs ys : List ε) :
    replay apply s (xs ++ ys) = (replay apply s xs).bind fun s' => replay apply s' ys := by
  induction xs generalizing s with
  | nil => rfl
  | cons x xs ih =>
    simp only [List.cons_append, replay]
    cases apply s x with
    | ok s' => exact ih s'
    | error e => rfl

variable {s s' : σ}

theorem replay_append_ok {s'' : σ} {xs ys : List ε} (hx : replay apply s xs = .ok s')
    (hy : replay apply s' ys = .ok s'') : replay apply s (xs ++ ys) = .ok s'' := by
  rw [replay_append, hx]; exact hy

/-- States related by what `apply` respects stay related along the same events. -/
theorem replay_congr {R : σ → σ → Prop} (step : ∀ {s s' e t}, R s s' → apply s e = .ok t → ∃ t', apply s' e = .ok t' ∧ R t t')
    {t : σ} {evs : List ε} (h : R s s') (ht : replay apply s evs = .ok t) :
    ∃ t', replay apply s' evs = .ok t' ∧ R t t' := by
  induction evs generalizing s s' with
  | nil => cases ht; exact ⟨s', rfl, h⟩
  | cons e es ih =>
    simp only [replay] at ht ⊢
    cases he : apply s e with
    | error x => rw [he] at ht; cases ht
    | ok s₁ =>
      rw [he] at ht
      obtain ⟨s₁', he', h₁⟩ := step h he
      rw [he']
      exact ih h₁ ht

namespace Path

variable {s s' : σ} {evs : List ε}

theorem replay (h : Path apply G s evs s') : replay apply s evs = .ok s' := by
  induction h with
  | nil s => rfl
  | cons _ ok _ ih => simp only [Replay.replay, ok, ih]

theorem single {e : ε} (guard : G s e) (ok : apply s e = .ok s') : Path apply G s [e] s' :=
  .cons guard ok (.nil s')

theorem eq_of_nil (h : Path apply G s [] s') : s' = s := by
  cases h
  rfl

theorem append {s'' : σ} {xs ys : List ε} (hx : Path apply G s xs s') (hy : Path apply G s' ys s'') :
    Path apply G s (xs ++ ys) s'' := by
  induction hx with
  | nil _ => exact hy
  | cons guard ok _ ih => exact .cons guard ok (ih hy)

theorem split {s'' : σ} {xs ys : List ε} (h : Path apply G s (xs ++ ys) s'') :
    ∃ s', Path apply G s xs s' ∧ Path apply G s' ys s'' := by
  induction xs generalizing s with
  | nil => exact ⟨s, .nil s, h⟩
  | cons x xs ih =>
    cases h with
    | cons guard ok rest =>
      obtain ⟨s', h1, h2⟩ := ih rest
      exact ⟨s', .cons guard ok h1, h2⟩

/-- What every guarded event is, in whatever state. -/
theorem all {P : ε → Prop} (hP : ∀ s e, G s e → P e) (h : Path apply G s evs s') :
    ∀ e ∈ evs, P e := by
  induction h with
  | nil s => exact fun _ he => (List.not_mem_nil he).elim
  | cons guard _ _ ih =>
    intro e he
    rcases List.mem_cons.1 he with rfl | he
    · exact hP _ _ guard
    · exact ih e he

theorem and_all {P : ε → Prop} (h : Path apply G s evs s') (hP : ∀ e ∈ evs, P e) :
    Path apply (fun s e => G s e ∧ P e) s evs s' := by
  induction h with
  | nil s => exact .nil s
  | cons guard ok _ ih => exact .cons ⟨guard, hP _ List.mem_cons_self⟩ ok (ih fun e he => hP e (List.mem_cons_of_mem _ he))

theorem mono (hGH : ∀ s e, G s e → H s e) (h : Path apply G s evs s') :
    Path apply H s evs s' := by
  induction h with
  | nil s => exact .nil s
  | cons guard ok _ ih => exact .cons (hGH _ _ guard) ok ih

/-- Two guards along the same events. -/
theorem and {t t' : σ} (h : Path apply G s evs t) (h' : Path apply H s evs t') :
    Path apply (fun s e => G s e ∧ H s e) s evs t := by
  induction h with
  | nil s => exact .nil s
  | cons guard ok _ ih =>
    cases h' with
    | cons guard' ok' rest' =>
      cases ok.symm.trans ok'
      exact .cons ⟨guard, guard'⟩ ok (ih rest')

theorem congr {R : σ → σ → Prop} (step : ∀ {s s' e t}, R s s' → apply s e = .ok t → ∃ t', apply s' e = .ok t' ∧ R t t')
    (hG : ∀ {s s' e}, R s s' → G s e → G s' e) {t : σ} (h : R s s') (hp : Path apply G s evs t) :
    ∃ t', Path apply G s' evs t' ∧ R t t' := by
  induction hp generalizing s' with
  | nil s => exact ⟨s', .nil s', h⟩
  | cons guard ok _ ih =>
    obtain ⟨s₁', ok', h₁⟩ := step h ok
    obtain ⟨t', hp', ht'⟩ := ih h₁
    exact ⟨t', .cons (hG h guard) ok' hp', ht'⟩

/-- An invariant every guarded event preserves holds wherever a path leads. -/
theorem invariant {I : σ → Prop} (step : ∀ s e s', I s → G s e → apply s e = .ok s' → I s')
    (h : Path apply G s evs s') (hs : I s) : I s' := by
  induction h with
  | nil s => exact hs
  | cons guard ok _ ih => exact ih (step _ _ _ hs guard ok)

/-- A guard that holds wherever an invariant does. -/
theorem sharpen {I : σ → Prop} (step : ∀ s e s', I s → G s e → apply s e = .ok s' → I s') (hG : ∀ s e, I s → G s e → H s e)
    (h : Path apply G s evs s') (hs : I s) : Path apply H s evs s' := by
  induction h with
  | nil s => exact .nil s
  | cons guard ok _ ih => exact .cons (hG _ _ hs guard) ok (ih (step _ _ _ hs guard ok))

/-- The same for a relation between the log written so far and the state: every guarded event
extends the log by itself. -/
theorem logInvariant {I : List ε → σ → Prop}
    (step : ∀ l s e s', I l s → G s e → apply s e = .ok s' → I (l ++ [e]) s')
    (h : Path apply G s evs s') {l : List ε} (hs : I l s) : I (l ++ evs) s' := by
  induction h generalizing l with
  | nil s => simpa using hs
  | cons guard ok _ ih => simpa using ih (step l _ _ _ hs guard ok)

end Path

/-! ## Conditions and readings along a replay -/

/-- Every event meets `C` in the state it is applied to. -/
def Throughout (apply : σ → ε → Except η σ) (C : σ → ε → Prop) : σ → List ε → Prop
  | _, [] => True
  | s, e :: es =>
    C s e ∧
      match apply s e with
      | .ok s' => Throughout apply C s' es
      | .error _ => True

instance Throughout.decidable {C : σ → ε → Prop} [∀ s e, Decidable (C s e)] :
    (s : σ) → (evs : List ε) → Decidable (Throughout apply C s evs)
  | _, [] => isTrue trivial
  | s, e :: es =>
    have : Decidable (match apply s e with | .ok s' => Throughout apply C s' es | .error _ => True) :=
      match apply s e with
      | .ok s' => Throughout.decidable s' es
      | .error _ => isTrue trivial
    inferInstanceAs (Decidable (C s e ∧ _))

theorem Path.throughout {C : σ → ε → Prop} {evs : List ε} (h : Path apply G s evs s')
    (hC : Throughout apply C s evs) : Path apply (fun s e => G s e ∧ C s e) s evs s' := by
  induction h with
  | nil s => exact .nil s
  | cons guard ok _ ih =>
    rw [Throughout, ok] at hC
    exact .cons ⟨guard, hC.1⟩ ok (ih hC.2)

/-- What `out` reads off each event in the state it is applied to, in order. -/
def collect {β : Type} (apply : σ → ε → Except η σ) (out : σ → ε → List β) : σ → List ε → List β
  | _, [] => []
  | s, e :: es =>
    out s e ++
      match apply s e with
      | .ok s' => collect apply out s' es
      | .error _ => []

theorem collect_append {β : Type} {out : σ → ε → List β} {xs ys : List ε}
    (hx : replay apply s xs = .ok s') : collect apply out s (xs ++ ys) = collect apply out s xs ++ collect apply out s' ys := by
  induction xs generalizing s with
  | nil => cases hx; rfl
  | cons x xs ih =>
    simp only [replay] at hx
    cases hs : apply s x with
    | error e => rw [hs] at hx; cases hx
    | ok s₁ =>
      rw [hs] at hx
      simp only [List.cons_append, collect, hs, ih hx, List.append_assoc]

end Replay
