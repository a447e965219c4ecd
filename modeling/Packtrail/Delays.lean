import Packtrail.Validate

/-
# Retry delays

`Node.Backoff` (`flow/flow.go:464-511`) multiplies or shifts the base delay in 64 bits and takes the cap instead
of a product that is not positive or too long. A product of the linear backoff is checked by dividing it again;
a shift of the exponential one is not, and one that wraps to a positive value below the cap goes unnoticed
(`Retry.Caught`). **`backoff_bounded_iff`**: the delays stay between base and cap and never fall exactly when no
shift does.
-/

namespace Packtrail

/-- Delays before the attempts 2 to 64: at least the base, at most the cap, and never shorter than the one before. -/
def Node.BackoffBounded (n : Node) (r : Retry) : Prop :=
  ∀ attempt, 2 ≤ attempt → attempt ≤ 64 →
    r.base ≤ n.backoff attempt ∧ n.backoff attempt ≤ r.cap ∧ n.backoff (attempt - 1) ≤ n.backoff attempt

/-- Delay and cap are 64-bit numbers of nanoseconds. -/
structure Retry.InRange (r : Retry) : Prop where
  delay : r.delay < 2 ^ 63
  maxDelay : r.maxDelay < 2 ^ 63

/-- Every shift of the base that overflows wraps to what the check after it replaces by the cap. -/
def Retry.Caught (r : Retry) : Prop :=
  r.backoff = .exponential → ∀ k < maxBackoffShift, 2 ^ 63 ≤ r.base * 2 ^ k →
    wrap64 (r.base * 2 ^ k) ≤ 0 ∨ r.cap ≤ wrap64 (r.base * 2 ^ k)

/-! ## Wrapping -/

theorem wrap64_of_lt {v : Int} (h0 : 0 ≤ v) (h : v < 2 ^ 63) : wrap64 v = v := by
  unfold wrap64
  rw [Int.bmod_eq_of_le] <;> omega

theorem wrap64_lt (v : Int) : wrap64 v < 2 ^ 63 := by
  unfold wrap64
  have := @Int.bmod_lt v (2 ^ 64) (by decide)
  omega

/-- The first overflow is negative. -/
theorem wrap64_once {v : Int} (h : 2 ^ 63 ≤ v) (h' : v < 2 ^ 64) : wrap64 v < 0 := by
  have hv : wrap64 v = v - 2 ^ 64 := by
    unfold wrap64
    have hsub : v.bmod (2 ^ 64) = (v - 2 ^ 64).bmod (2 ^ 64) := by
      rw [show (2 : Int) ^ 64 = ((2 ^ 64 : Nat) : Int) from rfl, Int.sub_bmod_right]
    rw [hsub, Int.bmod_eq_of_le] <;> omega
  omega

section
variable {r : Retry}

theorem Retry.InRange.base_lt (h : r.InRange) : r.base < 2 ^ 63 := by
  have := h.delay
  unfold Retry.base defaultRetryDelay
  split <;> omega

theorem Retry.InRange.cap_lt (h : r.InRange) : r.cap < 2 ^ 63 := by
  have := h.base_lt
  have := h.maxDelay
  unfold Retry.cap defaultRetryMaxDelay
  split <;> omega

theorem Retry.base_le_cap (r : Retry) : r.base ≤ r.cap := le_max_left _ _

theorem Retry.clamp_of_pos {d : Int} (h : 0 < d) : r.clamp d = min r.cap d := by
  unfold Retry.clamp
  split <;> omega

theorem Retry.clamp_eq_cap {d : Int} (h : d ≤ 0 ∨ r.cap ≤ d) : r.clamp d = r.cap := by
  unfold Retry.clamp
  split <;> omega

/-! ## The linear product is checked -/

theorem Retry.InRange.linear (h : r.InRange) {m : Nat} (hm : 0 < m) :
    r.clamp (if (wrap64 (r.base * m)).tdiv m ≠ r.base then r.cap else wrap64 (r.base * m)) = min r.cap (r.base * m) := by
  have hpos : 0 < r.base * m := Int.mul_pos r.base_pos (by omega)
  by_cases hlt : r.base * m < 2 ^ 63
  · rw [wrap64_of_lt hpos.le hlt, Int.mul_tdiv_cancel _ (by omega), if_neg (by simp), Retry.clamp_of_pos hpos]
  · have hcap : min r.cap (r.base * m) = r.cap := by
      have := h.cap_lt
      omega
    rw [hcap]
    split
    · exact Retry.clamp_eq_cap (.inr le_rfl)
    · -- dividing a wrapped product never gives the base back
      rename_i hdiv
      have hdiv : (wrap64 (r.base * m)).tdiv m = r.base := by simpa using hdiv
      have hlt' := wrap64_lt (r.base * m)
      by_cases hneg : wrap64 (r.base * m) ≤ 0
      · exact Retry.clamp_eq_cap (.inl hneg)
      · rw [Int.tdiv_eq_ediv_of_nonneg (by omega)] at hdiv
        have hle := Int.ediv_mul_le (wrap64 (r.base * m)) (b := (m : Int)) (by omega)
        rw [hdiv] at hle
        omega

/-! ## The exponential shift -/

/-- The delay after `k` shifts. -/
def Retry.shifted (r : Retry) (k : Nat) : Int := if maxBackoffShift ≤ k then r.cap else r.clamp (wrap64 (r.base * 2 ^ k))

theorem Retry.base_le_shift (r : Retry) (k : Nat) : r.base ≤ r.base * 2 ^ k := by
  have hb := r.base_pos
  have hk : (1 : Int) ≤ 2 ^ k := one_le_pow₀ (by norm_num)
  nlinarith

theorem Retry.InRange.shifted (h : r.InRange) (he : r.backoff = .exponential) (hc : r.Caught) {k : Nat} (hk : k < maxBackoffShift) :
    r.shifted k = min r.cap (r.base * 2 ^ k) := by
  have hpos : 0 < r.base * 2 ^ k := lt_of_lt_of_le r.base_pos (r.base_le_shift k)
  unfold Retry.shifted
  rw [if_neg (by omega)]
  by_cases hlt : r.base * 2 ^ k < 2 ^ 63
  · rw [wrap64_of_lt hpos.le hlt, Retry.clamp_of_pos hpos]
  · rw [Retry.clamp_eq_cap (hc he k hk (by omega))]
    have := h.cap_lt
    omega

/-- A shift that overflows and is not caught is shorter than the one before, which was. -/
theorem Retry.InRange.caught (h : r.InRange) (hmono : ∀ k, k + 1 < maxBackoffShift → r.shifted k ≤ r.shifted (k + 1)) : r.Caught := by
  intro _ k
  induction k with
  | zero =>
    intro _ hover
    have := h.base_lt
    omega
  | succ k ih =>
    intro hk hover
    have hdouble : r.base * 2 ^ (k + 1) = 2 * (r.base * 2 ^ k) := by ring
    by_cases hlt : r.base * 2 ^ k < 2 ^ 63
    · left
      rw [hdouble] at hover ⊢
      exact (wrap64_once hover (by omega)).le
    · have hcap : r.shifted k = r.cap := by
        unfold Retry.shifted
        rw [if_neg (by omega), Retry.clamp_eq_cap (ih (by omega) (by omega))]
      have hle := hmono k hk
      rw [hcap] at hle
      by_contra hnot
      push Not at hnot
      unfold Retry.shifted Retry.clamp at hle
      rw [if_neg (by omega), if_neg (by omega)] at hle
      omega

end

/-! ## All policies -/

section
variable {n : Node} {r : Retry}

/-- A backoff that grows with every retry, cut off at the cap. -/
theorem bounded_of_min {f : Nat → Int} (hf : ∀ k, r.base ≤ f (k + 1)) (hmono : ∀ k, f k ≤ f (k + 1))
    (h : ∀ attempt, n.backoff attempt = min r.cap (f (max (attempt - 1) 1))) : n.BackoffBounded r := by
  intro attempt h2 _
  obtain ⟨k, rfl⟩ : ∃ k, attempt = k + 2 := ⟨attempt - 2, by omega⟩
  have hcap := r.base_le_cap
  have hbase := hf k
  have hstep : f (max k 1) ≤ f (k + 1) := monotone_nat_of_le_succ hmono (by omega)
  have hnow : n.backoff (k + 2) = min r.cap (f (k + 1)) := by rw [h, show max (k + 2 - 1) 1 = k + 1 by omega]
  have hbefore : n.backoff (k + 2 - 1) = min r.cap (f (max k 1)) := by rw [h, show k + 2 - 1 - 1 = k by omega]
  rw [hnow, hbefore]
  omega

theorem bounded_exponential (hn : n.retry = some r) (hr : r.InRange) (he : r.backoff = .exponential) (hc : r.Caught) :
    n.BackoffBounded r := by
  have hexp : ∀ attempt, n.backoff attempt = r.shifted (max (attempt - 1) 1 - 1) := fun attempt => by
    simp only [Node.backoff, hn, he, Retry.shifted]
  have hcap := r.base_le_cap
  have hlast : ∀ k, maxBackoffShift ≤ k → r.shifted k = r.cap := fun k hk => if_pos hk
  intro attempt h2 _
  rw [hexp, hexp]
  have hbefore : max (attempt - 1 - 1) 1 - 1 ≤ max (attempt - 1) 1 - 1 := by omega
  generalize max (attempt - 1) 1 - 1 = k at hbefore ⊢
  generalize max (attempt - 1 - 1) 1 - 1 = j at hbefore ⊢
  by_cases hlt : k < maxBackoffShift
  · have hshift : r.base * 2 ^ j ≤ r.base * 2 ^ k :=
      Int.mul_le_mul_of_nonneg_left (pow_le_pow_right₀ (by norm_num) hbefore) r.base_pos.le
    have hbase := r.base_le_shift k
    rw [hr.shifted he hc hlt, hr.shifted he hc (lt_of_le_of_lt hbefore hlt)]
    omega
  · rw [hlast k (by omega)]
    refine ⟨hcap, le_rfl, ?_⟩
    by_cases hj : j < maxBackoffShift
    · rw [hr.shifted he hc hj]
      omega
    · rw [hlast j (by omega)]

end

/-- **Delays are bounded and never fall exactly when every overflow of the shift is caught.** -/
theorem backoff_bounded_iff {n : Node} {r : Retry} (hn : n.retry = some r) (hr : r.InRange) :
    n.BackoffBounded r ↔ r.Caught := by
  cases hb : r.backoff with
  | exponential =>
    refine ⟨fun h => hr.caught fun k hk => ?_, bounded_exponential hn hr hb⟩
    have := (h (k + 3) (by omega) (by unfold maxBackoffShift at hk; omega)).2.2
    simp only [Node.backoff, hn, hb] at this
    simpa [Retry.shifted] using this
  | linear =>
    refine iff_of_true (bounded_of_min (f := fun m => r.base * m) (fun k => ?_) (fun k => ?_) fun attempt => ?_) fun h => by simp [hb] at h
    · have := r.base_pos
      push_cast
      nlinarith
    · have := r.base_pos
      push_cast
      nlinarith
    · simp only [Node.backoff, hn, hb]
      exact hr.linear (by omega)
  | _ =>
    refine iff_of_true (bounded_of_min (f := fun _ => r.base) (fun _ => le_rfl) (fun _ => le_rfl) fun attempt => ?_) fun h => by simp [hb] at h
    simp only [Node.backoff, hn, hb]
    exact Retry.clamp_of_pos r.base_pos

/-- An exponential backoff from a delay of 2^62 + 1 nanoseconds. -/
def lateRetry : Retry := { maxAttempts := 64, backoff := .exponential, delay := 2 ^ 62 + 1 }

def lateTask : Node := { id := "draft", type := .task, kind := "write", retry := some lateRetry }

/-- Its fourth attempt waits 4 nanoseconds. -/
theorem shift_wraps_short : (∀ x, retryProblems x lateTask lateRetry = []) ∧ lateRetry.InRange ∧ lateTask.backoff 4 = 4 ∧
    lateTask.backoff 4 < lateRetry.base ∧ lateTask.backoff 4 < lateTask.backoff 3 := by
  refine ⟨fun x => ?_, ⟨by decide +kernel, by decide +kernel⟩, by decide +kernel, by decide +kernel, by decide +kernel⟩
  simp [retryProblems, lateRetry, problemIf, maxRetryAttempts, Backoff.known]

/-- Doubling from one second up to an hour. -/
def hourlyRetry : Retry := { maxAttempts := 64, backoff := .exponential, delay := 1000000000, maxDelay := 3600000000000 }

def hourlyNode : Node := { lateTask with retry := some hourlyRetry }

theorem hourlyNode_bounded : hourlyNode.BackoffBounded hourlyRetry :=
  (backoff_bounded_iff rfl ⟨by decide +kernel, by decide +kernel⟩).mpr (by unfold Retry.Caught; decide +kernel)

end Packtrail
