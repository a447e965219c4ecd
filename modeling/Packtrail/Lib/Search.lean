import Mathlib.Logic.Relation
import Mathlib.Data.List.Nodup
import Mathlib.Data.List.Perm.Subperm

/-
# Worklist search

A search keeps the values it has seen and a stack of those whose successors it has not looked at yet. It takes
the top of the stack, marks the successors that are new and pushes them. `Explored` is what every round keeps, and
**`mem_run_iff`** says that within a finite universe the search sees exactly what can be reached from the start,
given as many rounds as the universe is large.
-/

namespace Search

open Relation

variable {α : Type} [BEq α] [LawfulBEq α]

/-- Marks and pushes the values not seen yet, in order. -/
def push (seen stack : List α) : List α → List α × List α
  | [] => (seen, stack)
  | a :: as => if seen.contains a then push seen stack as else push (a :: seen) (a :: stack) as

def run (succ : α → List α) : Nat → List α → List α → List α
  | 0, seen, _ => seen
  | _ + 1, seen, [] => seen
  | fuel + 1, seen, a :: stack => run succ fuel (push seen stack (succ a)).1 (push seen stack (succ a)).2

/-- The new values `l` go in front of both lists. -/
theorem push_eq : ∀ (seen stack as : List α), ∃ l : List α, push seen stack as = (l ++ seen, l ++ stack) ∧ l.Nodup ∧
    ∀ a, a ∈ l ↔ a ∈ as ∧ a ∉ seen
  | seen, stack, [] => ⟨[], rfl, List.nodup_nil, by simp⟩
  | seen, stack, b :: as => by
    by_cases hb : b ∈ seen
    · obtain ⟨l, hl, hnd, hmem⟩ := push_eq seen stack as
      refine ⟨l, by rw [push, if_pos (by simpa using hb), hl], hnd, fun a => ?_⟩
      rw [hmem, List.mem_cons]
      constructor
      · exact fun h => ⟨.inr h.1, h.2⟩
      · rintro ⟨rfl | ha, hn⟩
        · exact absurd hb hn
        · exact ⟨ha, hn⟩
    · obtain ⟨l, hl, hnd, hmem⟩ := push_eq (b :: seen) (b :: stack) as
      refine ⟨l ++ [b], by rw [push, if_neg (by simpa using hb), hl]; simp, ?_, fun a => ?_⟩
      · refine List.nodup_append.2 ⟨hnd, List.nodup_singleton b, fun a ha c hc => ?_⟩
        rw [List.mem_singleton.1 hc]
        exact fun he => ((hmem a).1 ha).2 (by simp [he])
      · rw [List.mem_append, hmem, List.mem_singleton, List.mem_cons, List.mem_cons]
        constructor
        · rintro (⟨ha, hn⟩ | rfl)
          · exact ⟨.inr ha, fun h => hn (.inr h)⟩
          · exact ⟨.inl rfl, hb⟩
        · rintro ⟨rfl | ha, hn⟩
          · exact .inr rfl
          · by_cases he : a = b
            · exact .inr he
            · exact .inl ⟨ha, fun h => h.elim he hn⟩

section
variable {succ : α → List α} {start : α} {U seen stack : List α} {fuel : Nat}

/-- `b` is a successor of `a`. -/
def Step (succ : α → List α) (a b : α) : Prop := b ∈ succ a

/-- What has been seen is reachable and in the universe, and is on the stack or has its successors seen. -/
structure Explored (succ : α → List α) (U : List α) (start : α) (seen stack : List α) : Prop where
  begun : start ∈ seen
  found : ∀ a ∈ seen, ReflTransGen (Step succ) start a
  queued : ∀ a ∈ stack, a ∈ seen
  closed : ∀ a ∈ seen, a ∈ stack ∨ ∀ b ∈ succ a, b ∈ seen
  within : ∀ a ∈ seen, a ∈ U
  once : seen.Nodup

/-- One round keeps it, and has one value less to look at. -/
theorem Explored.step {a : α} (hU : ∀ a ∈ U, ∀ b ∈ succ a, b ∈ U) (h : Explored succ U start seen (a :: stack)) :
    ∃ seen' stack', push seen stack (succ a) = (seen', stack') ∧ Explored succ U start seen' stack' ∧
      stack'.length + seen.length = stack.length + seen'.length := by
  obtain ⟨l, hl, hnd, hmem⟩ := push_eq seen stack (succ a)
  have ha : a ∈ seen := h.queued a List.mem_cons_self
  refine ⟨_, _, hl, ⟨List.mem_append_right _ h.begun, fun b hb => ?_, fun b hb => ?_, fun b hb => ?_, fun b hb => ?_, ?_⟩, ?_⟩
  · rcases List.mem_append.1 hb with hb | hb
    · exact (h.found a ha).tail ((hmem b).1 hb).1
    · exact h.found b hb
  · rcases List.mem_append.1 hb with hb | hb
    · exact List.mem_append_left _ hb
    · exact List.mem_append_right _ (h.queued b (List.mem_cons_of_mem _ hb))
  · have hsucc : ∀ c ∈ succ a, c ∈ l ++ seen := fun c hc => by
      by_cases hs : c ∈ seen
      · exact List.mem_append_right _ hs
      · exact List.mem_append_left _ ((hmem c).2 ⟨hc, hs⟩)
    rcases List.mem_append.1 hb with hb | hb
    · exact .inl (List.mem_append_left _ hb)
    · rcases h.closed b hb with hstack | hclosed
      · rcases List.mem_cons.1 hstack with rfl | hstack
        · exact .inr hsucc
        · exact .inl (List.mem_append_right _ hstack)
      · exact .inr fun c hc => List.mem_append_right _ (hclosed c hc)
  · rcases List.mem_append.1 hb with hb | hb
    · exact hU a (h.within a ha) b ((hmem b).1 hb).1
    · exact h.within b hb
  · refine List.nodup_append.2 ⟨hnd, h.once, fun b hb c hc he => ?_⟩
    exact ((hmem b).1 hb).2 (he ▸ hc)
  · simp only [List.length_append]
    omega

theorem Explored.run_iff (hU : ∀ a ∈ U, ∀ b ∈ succ a, b ∈ U) : ∀ {fuel : Nat} {seen stack : List α},
    Explored succ U start seen stack → stack.length + U.length ≤ fuel + seen.length → ∀ b,
      b ∈ run succ fuel seen stack ↔ ReflTransGen (Step succ) start b
  | fuel, seen, [], h, _, b => by
    have hrun : run succ fuel seen [] = seen := by cases fuel <;> rfl
    rw [hrun]
    refine ⟨h.found b, fun hb => ?_⟩
    induction hb with
    | refl => exact h.begun
    | tail _ hstep ih => exact ((h.closed _ ih).resolve_left List.not_mem_nil) _ hstep
  | 0, seen, a :: stack, h, hfuel, b => by
    -- everything has been seen, and there is nothing more to look at
    have hle : seen.length ≤ U.length := (h.once.subperm h.within).length_le
    simp only [List.length_cons] at hfuel
    omega
  | fuel + 1, seen, a :: stack, h, hfuel, b => by
    obtain ⟨seen', stack', hpush, h', hlen⟩ := h.step hU
    rw [run, hpush]
    refine Explored.run_iff hU h' ?_ b
    simp only [List.length_cons] at hfuel
    omega

/-- **A search of enough rounds sees exactly what can be reached.** -/
theorem mem_run_iff (hU : ∀ a ∈ U, ∀ b ∈ succ a, b ∈ U) (hstart : start ∈ U) (hfuel : U.length ≤ fuel) (b : α) :
    b ∈ run succ fuel [start] [start] ↔ ReflTransGen (Step succ) start b := by
  have h : Explored succ U start [start] [start] :=
    ⟨by simp, fun a ha => by rw [List.mem_singleton.1 ha], fun a ha => ha, fun a ha => .inl ha,
      fun a ha => List.mem_singleton.1 ha ▸ hstart, List.nodup_singleton start⟩
  exact h.run_iff hU (by simp only [List.length_singleton]; omega) b

end

end Search
