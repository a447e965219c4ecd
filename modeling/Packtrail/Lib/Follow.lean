import Mathlib

/-!
# A set of marks that follows a sequence

A value that changes is looked up through a mark: `f n` is its value after `n` changes, and `K` holds the
marks set. A change sets the mark of the new value and then takes away that of the old one. A follower
that is stopped between the two leaves both, and one that starts over behind where it was sets marks that
have been taken away already. `Trails f lo hi K` says what `K` may hold while everything from `lo` on may
be followed again and nothing after `hi` has been followed yet: once the follower has caught up, the mark
of the value is the only one (`Trails.exact`).
-/

namespace Follow

variable {α : Type} {f g : ℕ → α} {K K' : Set α} {lo lo' hi hi' j : ℕ}

structure Trails (f : ℕ → α) (lo hi : ℕ) (K : Set α) : Prop where
  within : ∀ v ∈ K, ∃ j, lo ≤ j ∧ j ≤ hi ∧ v = f j
  /-- A mark is set, or will be set by a change that is to be followed. -/
  alive : K.Nonempty ∨ ∃ j, lo ≤ j ∧ j < hi ∧ f (j + 1) ≠ f j

namespace Trails

theorem exact (h : Trails f lo lo K) : K = {f lo} := by
  have hall : ∀ v ∈ K, v = f lo := by
    intro v hv
    obtain ⟨j, hlo, hhi, rfl⟩ := h.within v hv
    rw [show j = lo by omega]
  rcases h.alive with ⟨v, hv⟩ | ⟨j, hlo, hhi, -⟩
  · ext u
    constructor
    · exact hall u
    · intro hu
      rw [Set.mem_singleton_iff] at hu
      rw [hu, ← hall v hv]
      exact hv
  · omega

/-- There is more to follow, or to follow again. -/
theorem widen (h : Trails f lo hi K) (hlo : lo' ≤ lo) (hhi : hi ≤ hi') : Trails f lo' hi' K := by
  constructor
  · intro v hv
    obtain ⟨j, h₁, h₂, rfl⟩ := h.within v hv
    exact ⟨j, by omega, by omega, rfl⟩
  · rcases h.alive with hne | ⟨j, h₁, h₂, hj⟩
    · exact .inl hne
    · exact .inr ⟨j, by omega, by omega, hj⟩

theorem congr (h : Trails f lo hi K) (hfg : ∀ j, lo ≤ j → j ≤ hi → f j = g j) : Trails g lo hi K := by
  constructor
  · intro v hv
    obtain ⟨j, h₁, h₂, rfl⟩ := h.within v hv
    exact ⟨j, h₁, h₂, hfg j h₁ h₂⟩
  · rcases h.alive with hne | ⟨j, h₁, h₂, hj⟩
    · exact .inl hne
    · refine .inr ⟨j, h₁, h₂, ?_⟩
      rwa [← hfg j h₁ (by omega), ← hfg (j + 1) (by omega) (by omega)]

theorem put (h : Trails f lo hi K) (hlo : lo ≤ j) (hhi : j ≤ hi) : Trails f lo hi (insert (f j) K) := by
  refine ⟨fun v hv => ?_, .inl ⟨f j, Set.mem_insert _ _⟩⟩
  rcases hv with rfl | hv
  · exact ⟨j, hlo, hhi, rfl⟩
  · exact h.within v hv

/-- The change after `j` is followed, again or ahead of the others. -/
theorem swap (h : Trails f lo hi K) (hlo : lo ≤ j) (hhi : j < hi) (hne : f (j + 1) ≠ f j) :
    Trails f lo hi (insert (f (j + 1)) K \ {f j}) := by
  refine ⟨fun v hv => (h.put (by omega) hhi).within v hv.1, .inl ⟨f (j + 1), Set.mem_insert _ _, hne⟩⟩

/-- The first change that is left is followed. -/
theorem move (h : Trails f lo hi K) (hhi : lo < hi) (hne : f (lo + 1) ≠ f lo) :
    Trails f (lo + 1) hi (insert (f (lo + 1)) K \ {f lo}) := by
  refine ⟨fun v hv => ?_, .inl ⟨f (lo + 1), Set.mem_insert _ _, hne⟩⟩
  obtain ⟨j, h₁, h₂, rfl⟩ := (h.put (by omega) hhi).within v hv.1
  have hj : j ≠ lo := by
    rintro rfl
    exact hv.2 rfl
  exact ⟨j, by omega, h₂, rfl⟩

/-- The first step that is left is no change. -/
theorem stay (h : Trails f lo hi K) (hhi : lo < hi) (heq : f (lo + 1) = f lo) : Trails f (lo + 1) hi K := by
  have hnext : ∀ j, lo ≤ j → j ≤ hi → ∃ i, lo + 1 ≤ i ∧ i ≤ hi ∧ f j = f i := by
    intro j h₁ h₂
    by_cases hj : j = lo
    · exact ⟨lo + 1, le_rfl, hhi, by rw [hj, heq]⟩
    · exact ⟨j, by omega, h₂, rfl⟩
  constructor
  · intro v hv
    obtain ⟨j, h₁, h₂, rfl⟩ := h.within v hv
    exact hnext j h₁ h₂
  · rcases h.alive with hne | ⟨j, h₁, h₂, hj⟩
    · exact .inl hne
    · have hlo : j ≠ lo := by
        rintro rfl
        exact hj heq
      exact .inr ⟨j, by omega, h₂, hj⟩

/-- Marks may be taken away while a change is left to be followed. -/
theorem drop (h : Trails f lo hi K) (hsub : K' ⊆ K) (hlo : lo ≤ j) (hhi : j < hi) (hne : f (j + 1) ≠ f j) : Trails f lo hi K' :=
  ⟨fun v hv => h.within v (hsub hv), .inr ⟨j, hlo, hhi, hne⟩⟩

end Trails

end Follow
