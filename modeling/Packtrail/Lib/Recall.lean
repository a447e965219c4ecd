import Mathlib

/-!
# Memories that forget

A memory holds keys, each with the time it was recorded at. Recording a key may drop others: those that are too late
by its time, and, beyond a capacity, those that as many others are not older than. Times need not increase.

`Accepts` is a run in which every key recorded is new to the memory; **`Accepts.not_held`** and
**`Accepts.not_again`** say how long a key cannot be recorded again.
-/

namespace Recall

variable {κ τ : Type} [DecidableEq κ] [LinearOrder τ]

/-- Recording `e` turns memory `m` into `m'`; `late u t` says that by time `t` an entry of time `u` may be dropped. -/
structure Records (late : τ → τ → Prop) (cap : Nat) (m : κ → Option τ) (e : κ × τ) (m' : κ → Option τ) : Prop where
  known : ∀ k u, m' k = some u → (k, u) = e ∨ m k = some u
  kept : ∀ k u, (k, u) = e ∨ k ≠ e.1 ∧ m k = some u → ¬ late u e.2 →
    m' k = some u ∨ ∃ S : Finset κ, cap ≤ S.card ∧ ∀ j ∈ S, j ≠ k ∧ ∃ w, u ≤ w ∧ m' j = some w

/-- Recording the entries `acc` one after the other, each under a key the memory does not hold. -/
inductive Accepts (late : τ → τ → Prop) (cap : Nat) : (κ → Option τ) → List (κ × τ) → (κ → Option τ) → Prop
  | nil (m : κ → Option τ) : Accepts late cap m [] m
  | cons {acc : List (κ × τ)} {m m₁ m' : κ → Option τ} {e : κ × τ} (hnew : m e.1 = none) (hrec : Records late cap m e m₁)
      (h : Accepts late cap m₁ acc m') : Accepts late cap m (e :: acc) m'

/-- The keys other than `k` recorded with a time not before `t`. -/
def others (l : List (κ × τ)) (k : κ) (t : τ) : Finset κ := ((l.filter fun e => e.1 ≠ k ∧ t ≤ e.2).map Prod.fst).toFinset

/-- What excuses the memory for having dropped key `k` of time `t`: with the entries `base` before, those of `after`
were recorded after it. -/
def Excused (late : τ → τ → Prop) (cap : Nat) (base : List (κ × τ)) (k : κ) (t : τ) (after : List (κ × τ)) : Prop :=
  (∃ e ∈ after, late t e.2) ∨ cap ≤ (others (base ++ after) k t).card

variable {late : τ → τ → Prop} {cap : Nat} {m m₁ m' : κ → Option τ} {base acc before after : List (κ × τ)} {k : κ} {t : τ}
variable {e : κ × τ} {rest : List (κ × τ)}

theorem mem_others {l : List (κ × τ)} {j : κ} : j ∈ others l k t ↔ j ≠ k ∧ ∃ w, t ≤ w ∧ (j, w) ∈ l := by
  simp only [others, List.mem_toFinset, List.mem_map, List.mem_filter, decide_eq_true_eq, Prod.exists]
  constructor
  · rintro ⟨_, w, ⟨hmem, hne, hle⟩, rfl⟩
    exact ⟨hne, w, hle, hmem⟩
  · rintro ⟨hne, w, hle, hmem⟩
    exact ⟨j, w, ⟨hmem, hne, hle⟩, rfl⟩

/-- As many others as the capacity are an excuse, once they all were recorded. -/
theorem Excused.of_others {S : Finset κ} (hcard : cap ≤ S.card) (hS : ∀ j ∈ S, j ≠ k ∧ ∃ w, t ≤ w ∧ (j, w) ∈ base ++ after) :
    Excused late cap base k t after := by
  refine Or.inr (hcard.trans (Finset.card_le_card ?_))
  intro j hj
  exact mem_others.mpr (hS j hj)

/-- An excuse stays one when more entries are known, and the key itself is no other. -/
theorem Excused.mono {base' after' : List (κ × τ)} (h : Excused late cap base k t after) (hafter : after ⊆ after')
    (hall : ∀ j w, j ≠ k → (j, w) ∈ base ++ after → (j, w) ∈ base' ++ after') : Excused late cap base' k t after' := by
  rcases h with ⟨f, hf, hlate⟩ | hcard
  · exact Or.inl ⟨f, hafter hf, hlate⟩
  · refine Excused.of_others hcard ?_
    intro j hj
    obtain ⟨hne, w, hle, hmem⟩ := mem_others.mp hj
    exact ⟨hne, w, hle, hall j w hne hmem⟩

omit [DecidableEq κ] in
theorem Accepts.append {l l' : List (κ × τ)} (h : Accepts late cap m l m₁) (h' : Accepts late cap m₁ l' m') :
    Accepts late cap m (l ++ l') m' := by
  induction h with
  | nil m => exact h'
  | cons hnew hrec _ ih => exact .cons hnew hrec (ih h')

omit [DecidableEq κ] in
/-- A run in two parts. -/
theorem Accepts.split (h : Accepts late cap m (before ++ after) m') :
    ∃ m₁, Accepts late cap m before m₁ ∧ Accepts late cap m₁ after m' := by
  induction before generalizing m with
  | nil => exact ⟨m, .nil m, h⟩
  | cons e before ih =>
    cases h with
    | cons hnew hrec h =>
      obtain ⟨m₁, hfst, hsnd⟩ := ih h
      exact ⟨m₁, .cons hnew hrec hfst, hsnd⟩

omit [DecidableEq κ] in
/-- The memory holds nothing but what was recorded. -/
theorem Accepts.known (h : Accepts late cap m acc m') (hbase : ∀ k u, m k = some u → (k, u) ∈ base) (k : κ) (u : τ)
    (hk : m' k = some u) : (k, u) ∈ base ++ acc := by
  induction h generalizing base with
  | nil m => simpa using hbase k u hk
  | @cons acc m m₁ m' e hnew hrec h ih =>
    have hbase' : ∀ k u, m₁ k = some u → (k, u) ∈ base ++ [e] := by
      intro k u hk
      rcases hrec.known k u hk with heq | hold
      · simp [heq]
      · exact List.mem_append_left _ (hbase k u hold)
    have := ih hbase' hk
    rwa [List.append_assoc] at this

/-- A key the memory holds stays in it with its time, or there is an excuse. -/
theorem Accepts.held (h : Accepts late cap m acc m') (hbase : ∀ k u, m k = some u → (k, u) ∈ base) (hk : m k = some t) :
    m' k = some t ∨ Excused late cap base k t acc := by
  induction h generalizing base with
  | nil m => exact Or.inl hk
  | @cons acc m m₁ m' e hnew hrec h ih =>
    have hbase' : ∀ k u, m₁ k = some u → (k, u) ∈ base ++ [e] :=
      (Accepts.cons hnew hrec (.nil m₁)).known hbase
    have hne : k ≠ e.1 := by
      rintro rfl
      rw [hnew] at hk
      cases hk
    by_cases hl : late t e.2
    · exact Or.inr (Or.inl ⟨e, List.mem_cons_self, hl⟩)
    · rcases hrec.kept k t (Or.inr ⟨hne, hk⟩) hl with hm | ⟨S, hcard, hS⟩
      · refine (ih hbase' hm).imp_right fun hexc => hexc.mono (List.subset_cons_self _ _) ?_
        intro j w _ hmem
        rwa [List.append_assoc] at hmem
      · refine Or.inr (Excused.of_others hcard ?_)
        intro j hj
        obtain ⟨hjk, w, hle, hw⟩ := hS j hj
        have := hbase' j w hw
        refine ⟨hjk, w, hle, ?_⟩
        simp only [List.mem_append, List.mem_cons] at this ⊢
        tauto

/-- **A key the memory holds is not recorded** while nothing excuses that the memory dropped it. -/
theorem Accepts.not_held (h : Accepts late cap m (after ++ e :: rest) m') (hbase : ∀ k u, m k = some u → (k, u) ∈ base)
    (hk : m k = some t) (hexc : ¬ Excused late cap base k t after) : e.1 ≠ k := by
  obtain ⟨m₁, hrun, hnext⟩ := h.split
  cases hnext with
  | cons hnew _ _ =>
    rintro rfl
    rcases hrun.held hbase hk with hsome | hexc'
    · rw [hnew] at hsome
      cases hsome
    · exact hexc hexc'

/-- **A key recorded in a run is not recorded again** while nothing excuses that the memory dropped it. -/
theorem Accepts.not_again (h : Accepts late cap m (before ++ (k, t) :: (after ++ e :: rest)) m')
    (hbase : ∀ k u, m k = some u → (k, u) ∈ base) (hlate : ∀ t, ¬ late t t)
    (hexc : ¬ Excused late cap (base ++ before) k t after) : e.1 ≠ k := by
  obtain ⟨m₁, hrun, hnext⟩ := h.split
  cases hnext with
  | @cons _ _ m₂ _ _ hnew hrec hsnd =>
    have hknown : ∀ j u, m₂ j = some u → (j, u) ∈ base ++ before ++ [(k, t)] :=
      (Accepts.cons hnew hrec (.nil m₂)).known (hrun.known hbase)
    have hless : ∀ {l : List (κ × τ)} (j : κ) (w : τ), j ≠ k → (j, w) ∈ base ++ before ++ [(k, t)] ++ l →
        (j, w) ∈ base ++ before ++ l := by
      intro l j w hjk hw
      have hne : (j, w) ≠ (k, t) := fun he => hjk (Prod.mk.inj he).1
      simp only [List.mem_append, List.mem_singleton, hne, or_false] at hw ⊢
      exact hw
    -- the memory drops a key as it records it only for as many others
    have hkept : m₂ k = some t := by
      refine (hrec.kept k t (Or.inl rfl) (hlate t)).resolve_right ?_
      rintro ⟨S, hcard, hS⟩
      refine hexc (Excused.of_others hcard ?_)
      intro j hj
      obtain ⟨hjk, w, hle, hw⟩ := hS j hj
      exact ⟨hjk, w, hle, hless j w hjk (List.mem_append_left _ (hknown j w hw))⟩
    exact hsnd.not_held hknown hkept fun hexc' => hexc (hexc'.mono (List.Subset.refl _) hless)

end Recall
