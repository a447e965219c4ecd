import Mathlib.Data.List.Induction
import Mathlib.Data.List.Nodup

/-
# Readiness of the current run

| here | there |
| --- | --- |
| `Signal`                   | `Signal` (`internal/ready/ready.go:21-27`); channels are numbered as they are made, runs are counted without an end |
| `Run`                      | what the callbacks of one `Begin` capture: `run` and `called` (`:58-66`) |
| `Process`                  | the signal, the callbacks handed out so far and the channels closed so far |
| `Process.openCh`, `Process.reset` | `open`, `reset` (`:96-110`) |
| `Process.begin`, `Process.part`, `Process.finish` | `Begin` and the callbacks it returns (`:44-93`) |

Every call holds the lock, so a history is a list of calls. `Ready` says of a history that the run begun last has not
ended and each of its parts has called back. **`ready_iff`**: the channel handed out is closed exactly then.
-/

namespace Packtrail.Readiness

structure Signal where
  ch : Nat := 0
  up : Bool := false
  run : Nat := 0
  left : Int := 0

structure Run where
  run : Nat
  called : List Bool

structure Process where
  sig : Signal := {}
  runs : List Run := []
  closed : List Nat := []

/-- A call: `part k i` and `finish k` are callbacks of the run begun as number `k`. -/
inductive Call
  | begin (n : Nat)
  | part (k i : Nat)
  | finish (k : Nat)
  deriving DecidableEq

namespace Process

def openCh (p : Process) : Process :=
  if p.sig.up then p
  else { p with sig := { p.sig with up := true }, closed := p.closed ++ [p.sig.ch] }

def reset (p : Process) : Process :=
  if p.sig.up then { p with sig := { p.sig with up := false, ch := p.sig.ch + 1 } } else p

/-- The signal of a run of `n` parts that begins. -/
def renew (p : Process) (n : Nat) : Process :=
  { p.reset with sig := { p.reset.sig with run := p.reset.sig.run + 1, left := n } }

def begin (p : Process) (n : Nat) : Process :=
  let q := if n = 0 then (p.renew n).openCh else p.renew n
  { q with runs := q.runs ++ [⟨(p.renew n).sig.run, List.replicate n false⟩] }

/-- The callback of a part that counts. -/
def count (p : Process) (k i : Nat) (r : Run) : Process :=
  { p with sig := { p.sig with left := p.sig.left - 1 }, runs := p.runs.set k { r with called := r.called.set i true } }

def part (p : Process) (k i : Nat) : Process :=
  match p.runs[k]? with
  | none => p
  | some r =>
    match r.called[i]? with
    | none => p
    | some called =>
      if p.sig.run ≠ r.run ∨ called = true then p
      else if (p.count k i r).sig.left = 0 then (p.count k i r).openCh
      else p.count k i r

def finish (p : Process) (k : Nat) : Process :=
  match p.runs[k]? with
  | none => p
  | some r =>
    if p.sig.run ≠ r.run then p
    else reset { p with sig := { p.sig with run := p.sig.run + 1 } }

def step (p : Process) : Call → Process
  | .begin n => p.begin n
  | .part k i => p.part k i
  | .finish k => p.finish k

def after (p : Process) (calls : List Call) : Process := calls.foldl step p

end Process

/-- The process after a history of calls. -/
def run (calls : List Call) : Process := ({} : Process).after calls

/-! ## What a history says -/

def Call.isBegin : Call → Bool
  | .begin _ => true
  | _ => false

def begun (calls : List Call) : Nat := calls.countP Call.isBegin

/-- The run begun last is number `k`, has `n` parts and was followed by the calls `since`. -/
def Current (calls : List Call) (k n : Nat) (since : List Call) : Prop :=
  ∃ before, calls = before ++ .begin n :: since ∧ begun before = k ∧ begun since = 0

/-- The run begun last has not ended, and each of its parts has called back since it began. -/
def Ready (calls : List Call) : Prop :=
  ∃ k n since, Current calls k n since ∧ .finish k ∉ since ∧ ∀ i < n, .part k i ∈ since

/-- The run begun last is replaced or ended by `call`. -/
def Replaced (calls : List Call) (call : Call) : Prop :=
  call.isBegin = true ∨ ∃ k, call = .finish k ∧ begun calls = k + 1

theorem run_snoc (calls : List Call) (call : Call) : run (calls ++ [call]) = (run calls).step call := by
  simp [run, Process.after]

theorem begun_snoc (calls : List Call) (call : Call) : begun (calls ++ [call]) = begun calls + begun [call] := by
  simp [begun]

/-- The last call is the one singled out, or among those after it. -/
theorem snoc_split {calls before since : List Call} {call c : Call} (h : calls ++ [call] = before ++ c :: since) :
    (since = [] ∧ before = calls ∧ c = call) ∨ ∃ l, since = l ++ [call] ∧ calls = before ++ c :: l := by
  rcases List.eq_nil_or_concat since with rfl | ⟨l, d, rfl⟩
  · obtain ⟨rfl, hc⟩ := List.append_inj' h rfl
    cases hc
    exact .inl ⟨rfl, rfl, rfl⟩
  · rw [List.concat_eq_append, ← List.cons_append, ← List.append_assoc] at h
    obtain ⟨hcalls, hd⟩ := List.append_inj' h rfl
    cases hd
    exact .inr ⟨l, List.concat_eq_append, hcalls⟩

theorem current_begin {calls since : List Call} {n k m : Nat} (h : Current (calls ++ [.begin n]) k m since) :
    k = begun calls ∧ m = n ∧ since = [] := by
  obtain ⟨before, he, rfl, hs⟩ := h
  rcases snoc_split he with ⟨rfl, rfl, hc⟩ | ⟨l, rfl, -⟩
  · cases hc
    exact ⟨rfl, rfl, rfl⟩
  · simp [begun, Call.isBegin] at hs

theorem current_snoc {calls since : List Call} {call : Call} {k n : Nat} (hc : call.isBegin = false)
    (h : Current (calls ++ [call]) k n since) : ∃ l, since = l ++ [call] ∧ Current calls k n l := by
  obtain ⟨before, he, rfl, hs⟩ := h
  rcases snoc_split he with ⟨-, -, rfl⟩ | ⟨l, rfl, hcalls⟩
  · cases hc
  · refine ⟨l, rfl, before, hcalls, rfl, ?_⟩
    rw [begun_snoc] at hs
    omega

theorem exists_current {calls : List Call} (h : begun calls ≠ 0) : ∃ k n since, Current calls k n since := by
  induction calls using List.reverseRecOn with
  | nil => exact absurd rfl h
  | append_singleton calls call ih =>
    by_cases hc : call.isBegin = true
    · cases call with
      | begin n => exact ⟨begun calls, n, [], calls, rfl, rfl, rfl⟩
      | part k i => cases hc
      | finish k => cases hc
    · have hone : begun [call] = 0 := by simp [begun, hc]
      rw [begun_snoc, hone] at h
      obtain ⟨k, n, since, before, rfl, hk, hs⟩ := ih h
      exact ⟨k, n, since ++ [call], before, by simp, hk, by rw [begun_snoc, hs, hone]⟩

/-! ## What a callback does -/

namespace Process

variable {p : Process} {k i : Nat}

/-- A part counts when its run is the current one and it was not called before. -/
theorem part_cases (p : Process) (k i : Nat) :
    (∃ r, p.runs[k]? = some r ∧ r.called[i]? = some false ∧ p.sig.run = r.run ∧
      p.part k i = if (p.count k i r).sig.left = 0 then (p.count k i r).openCh else p.count k i r) ∨
    (∀ r, p.runs[k]? = some r → r.called[i]? = some false → p.sig.run ≠ r.run) ∧ p.part k i = p := by
  unfold part
  cases hr : p.runs[k]? with
  | none => exact .inr ⟨nofun, rfl⟩
  | some r =>
    cases hc : r.called[i]? with
    | none =>
      refine .inr ⟨fun r' hr' hc' => ?_, by simp only [hc]⟩
      rw [← Option.some.inj hr', hc] at hc'
      cases hc'
    | some called =>
      by_cases hskip : p.sig.run ≠ r.run ∨ called = true
      · refine .inr ⟨fun r' hr' hc' => ?_, by simp only [hc, if_pos hskip]⟩
        rw [← Option.some.inj hr'] at hc' ⊢
        rw [hc, Option.some.injEq] at hc'
        exact hskip.resolve_right (by simp [hc'])
      · simp only [not_or, not_not, Bool.not_eq_true] at hskip
        exact .inl ⟨r, rfl, by rw [hc, hskip.2], hskip.1, by simp [hc, hskip]⟩

theorem finish_cases (p : Process) (k : Nat) :
    (∃ r, p.runs[k]? = some r ∧ p.sig.run = r.run ∧ p.finish k = reset { p with sig := { p.sig with run := p.sig.run + 1 } }) ∨
    (∀ r, p.runs[k]? = some r → p.sig.run ≠ r.run) ∧ p.finish k = p := by
  unfold finish
  cases hr : p.runs[k]? with
  | none => exact .inr ⟨nofun, rfl⟩
  | some r =>
    by_cases hrun : p.sig.run = r.run
    · exact .inl ⟨r, rfl, hrun, by simp [hrun]⟩
    · exact .inr ⟨fun r' hr' => Option.some.inj hr' ▸ hrun, by simp [hrun]⟩

end Process

/-! ## Channels -/

/-- Channels closed are not newer than the one handed out, which is closed when the signal is up. -/
structure Process.Channels (p : Process) : Prop where
  once : p.closed.Nodup
  older : ∀ c ∈ p.closed, c ≤ p.sig.ch
  up : p.sig.up = true ↔ p.sig.ch ∈ p.closed

namespace Process

variable {p : Process}

theorem Channels.openCh (h : p.Channels) : p.openCh.Channels := by
  unfold Process.openCh
  split
  · exact h
  · rename_i hup
    have hnew : p.sig.ch ∉ p.closed := fun hc => hup (h.up.2 hc)
    refine ⟨?_, fun c hc => ?_, by simp⟩
    · rw [List.nodup_append]
      refine ⟨h.once, by simp, fun a ha b hb he => ?_⟩
      rw [List.mem_singleton.1 hb] at he
      exact hnew (he ▸ ha)
    · rcases List.mem_append.1 hc with hc | hc
      · exact h.older c hc
      · exact Nat.le_of_eq (List.mem_singleton.1 hc)

theorem Channels.reset (h : p.Channels) : p.reset.Channels := by
  unfold Process.reset
  split
  · refine ⟨h.once, fun c hc => Nat.le_succ_of_le (h.older c hc), ?_⟩
    have hnew : p.sig.ch + 1 ∉ p.closed := fun hc => by have := h.older _ hc; omega
    simp [hnew]
  · exact h

/-- The channels read of the signal only its own. -/
theorem Channels.congr {q : Process} (h : p.Channels) (hc : q.closed = p.closed) (hch : q.sig.ch = p.sig.ch) (hup : q.sig.up = p.sig.up) :
    q.Channels :=
  ⟨hc ▸ h.once, by rw [hc, hch]; exact h.older, by rw [hc, hch, hup]; exact h.up⟩

theorem Channels.step (h : p.Channels) (call : Call) : (p.step call).Channels := by
  cases call with
  | begin n =>
    have hr : (p.renew n).Channels := h.reset.congr rfl rfl rfl
    simp only [Process.step, Process.begin]
    split
    · exact hr.openCh.congr rfl rfl rfl
    · exact hr.congr rfl rfl rfl
  | part k i =>
    show (p.part k i).Channels
    rcases p.part_cases k i with ⟨r, -, -, -, he⟩ | ⟨-, he⟩
    · have hr : (p.count k i r).Channels := h.congr rfl rfl rfl
      rw [he]
      split
      · exact hr.openCh
      · exact hr
    · rw [he]
      exact h
  | finish k =>
    show (p.finish k).Channels
    rcases p.finish_cases k with ⟨r, -, -, he⟩ | ⟨-, he⟩
    · rw [he]
      exact Channels.reset (h.congr rfl rfl rfl)
    · rw [he]
      exact h

end Process

theorem run_channels (calls : List Call) : (run calls).Channels := by
  induction calls using List.reverseRecOn with
  | nil => exact ⟨List.nodup_nil, by simp [run, Process.after], by simp [run, Process.after]⟩
  | append_singleton calls call ih =>
    rw [run_snoc]
    exact ih.step call

/-! ## What a process knows of its history -/

/-- Run `r`, which was begun as number `k` and followed by `since`, goes on. -/
structure Pending (p : Process) (k : Nat) (r : Run) (since : List Call) : Prop where
  run : p.sig.run = r.run
  called : ∀ i < r.called.length, r.called[i]? = some true ↔ .part k i ∈ since
  left : p.sig.left = r.called.count false
  up : p.sig.up = true ↔ p.sig.left = 0

/-- Run `r` has ended. -/
structure Over (p : Process) (r : Run) : Prop where
  run : r.run < p.sig.run
  up : p.sig.up = false

structure Follows (calls : List Call) (p : Process) : Prop where
  length : p.runs.length = begun calls
  down : begun calls = 0 → p.sig.up = false
  bound : ∀ r ∈ p.runs, r.run ≤ p.sig.run
  past : ∀ {k r}, p.runs[k]? = some r → k + 1 < p.runs.length → r.run < p.sig.run
  current : ∀ {k n since}, Current calls k n since → ∃ r, p.runs[k]? = some r ∧ r.called.length = n ∧
    (.finish k ∈ since → Over p r) ∧ (.finish k ∉ since → Pending p k r since)

theorem Current.begun {calls since : List Call} {k n : Nat} (h : Current calls k n since) : begun calls = k + 1 := by
  obtain ⟨before, rfl, rfl, hs⟩ := h
  simp only [Readiness.begun, List.countP_append, List.countP_cons] at hs ⊢
  rw [hs]
  rfl

section
variable {calls : List Call} {p : Process}

/-- Only the run begun last can be the current one. -/
theorem Follows.last (h : Follows calls p) {k : Nat} {r : Run} (hr : p.runs[k]? = some r) (hrun : p.sig.run = r.run) :
    begun calls = k + 1 := by
  have hk : k < p.runs.length := (List.getElem?_eq_some_iff.1 hr).1
  rw [← h.length]
  by_contra hne
  have := h.past hr (by omega)
  omega

theorem begin_eq (p : Process) (n : Nat) : (p.begin n).runs = p.runs ++ [⟨p.sig.run + 1, List.replicate n false⟩] ∧
    (p.begin n).sig.run = p.sig.run + 1 ∧ (p.begin n).sig.left = n ∧ ((p.begin n).sig.up = true ↔ n = 0) := by
  have hreset : p.reset.runs = p.runs ∧ p.reset.sig.run = p.sig.run ∧ p.reset.sig.up = false := by
    unfold Process.reset
    split
    · exact ⟨rfl, rfl, rfl⟩
    · rename_i hup
      exact ⟨rfl, rfl, by simpa using hup⟩
  unfold Process.begin
  by_cases hn : n = 0 <;> simp [hn, Process.openCh, Process.renew, hreset]

theorem Follows.begin (h : Follows calls p) (n : Nat) : Follows (calls ++ [.begin n]) (p.begin n) := by
  obtain ⟨hruns, hrun, hleft, hup⟩ := begin_eq p n
  have hbegun : begun (calls ++ [.begin n]) = begun calls + 1 := begun_snoc _ _
  refine ⟨?_, fun h0 => ?_, fun r hr => ?_, fun {k r} hr hk => ?_, fun {k m since} hc => ?_⟩
  · rw [hruns, hbegun, List.length_append, h.length]
    rfl
  · omega
  · rw [hruns, List.mem_append, List.mem_singleton] at hr
    rw [hrun]
    rcases hr with hr | rfl
    · exact Nat.le_succ_of_le (h.bound r hr)
    · exact Nat.le_refl _
  · rw [hruns, List.length_append, List.length_singleton] at hk
    rw [hruns, List.getElem?_append_left (by omega)] at hr
    rw [hrun]
    exact Nat.lt_succ_of_le (h.bound r (List.mem_of_getElem? hr))
  · obtain ⟨rfl, rfl, rfl⟩ := current_begin hc
    refine ⟨⟨p.sig.run + 1, List.replicate m false⟩, ?_, by simp, by simp, fun _ => ⟨hrun, ?_, ?_, ?_⟩⟩
    · rw [hruns, ← h.length, List.getElem?_concat_length]
    · intro i hi
      simp [List.getElem?_replicate]
    · rw [hleft]
      simp
    · rw [hup, hleft]
      omega

theorem counted_eq (p : Process) (k i : Nat) (r : Run) {q : Process}
    (hq : q = if (p.count k i r).sig.left = 0 then (p.count k i r).openCh else p.count k i r) :
    q.runs = p.runs.set k { r with called := r.called.set i true } ∧ q.sig.run = p.sig.run ∧ q.sig.left = p.sig.left - 1 ∧
      (q.sig.up = true ↔ p.sig.up = true ∨ p.sig.left - 1 = 0) := by
  subst hq
  split
  · rename_i hleft
    have hleft : p.sig.left - 1 = 0 := hleft
    unfold Process.openCh
    split
    · exact ⟨rfl, rfl, rfl, by simp [hleft]; assumption⟩
    · exact ⟨rfl, rfl, rfl, by simp [hleft]⟩
  · rename_i hleft
    have hleft : ¬p.sig.left - 1 = 0 := hleft
    exact ⟨rfl, rfl, rfl, by simp [hleft, Process.count]⟩

/-- A part that is called for the first time leaves one less to wait for. -/
theorem Pending.count {k i : Nat} {r : Run} {since : List Call} {q : Process} (h : Pending p k r since) (hc : r.called[i]? = some false)
    (hrun : q.sig.run = p.sig.run) (hleft : q.sig.left = p.sig.left - 1)
    (hup : q.sig.up = true ↔ p.sig.up = true ∨ p.sig.left - 1 = 0) :
    Pending q k { r with called := r.called.set i true } (since ++ [.part k i]) := by
  obtain ⟨hi, hget⟩ := List.getElem?_eq_some_iff.1 hc
  have hcount : r.called.count false = (r.called.set i true).count false + 1 := by
    have hpos : 0 < r.called.count false := List.count_pos_iff.2 (hget ▸ List.getElem_mem hi)
    rw [List.count_set hi, hget]
    have hset : (if (true == false) = true then 1 else 0) = 0 := rfl
    simp only [BEq.rfl, if_true, hset]
    omega
  refine ⟨hrun.trans h.run, fun a ha => ?_, ?_, ?_⟩
  · rw [List.length_set] at ha
    simp only [List.mem_append, List.mem_singleton, Call.part.injEq, true_and]
    by_cases he : i = a
    · simp [← he, hi]
    · rw [List.getElem?_set_ne he, h.called a ha]
      exact ⟨.inl, fun hm => hm.resolve_right fun h => he h.symm⟩
  · have := h.left
    simp only
    omega
  · have := h.left
    rw [hup, hleft, h.up]
    omega

/-- A call of another run or of a part that was called before tells nothing new. -/
theorem Pending.skip {k : Nat} {r : Run} {since : List Call} {call : Call} (h : Pending p k r since)
    (hc : ∀ i < r.called.length, call = .part k i → r.called[i]? = some true) : Pending p k r (since ++ [call]) := by
  refine ⟨h.run, fun i hi => ?_, h.left, h.up⟩
  rw [h.called i hi, List.mem_append, List.mem_singleton]
  refine ⟨.inl, fun hm => hm.elim id fun he => ?_⟩
  exact (h.called i hi).1 (hc i hi he.symm)

theorem Follows.part (h : Follows calls p) (k i : Nat) : Follows (calls ++ [.part k i]) (p.part k i) := by
  have hbegun : begun (calls ++ [.part k i]) = begun calls := begun_snoc _ _
  rcases p.part_cases k i with ⟨r, hr, hc, hrun, he⟩ | ⟨hskip, he⟩
  · obtain ⟨hruns, hqrun, hleft, hup⟩ := counted_eq p k i r he
    have hlast := h.last hr hrun
    refine ⟨?_, fun h0 => ?_, fun r' hr' => ?_, fun {k' r'} hr' hk' => ?_, fun {k' n since} hcur => ?_⟩
    · rw [hruns, List.length_set, h.length, hbegun]
    · omega
    · rw [hruns] at hr'
      rw [hqrun]
      rcases List.mem_or_eq_of_mem_set hr' with hr' | rfl
      · exact h.bound r' hr'
      · exact h.bound r (List.mem_of_getElem? hr)
    · rw [hruns, List.length_set] at hk'
      have hne : k ≠ k' := by
        have := h.length
        omega
      rw [hruns, List.getElem?_set_ne hne] at hr'
      rw [hqrun]
      exact h.past hr' hk'
    · obtain ⟨l, rfl, hold⟩ := current_snoc rfl hcur
      obtain rfl : k' = k := by
        have := hold.begun
        omega
      obtain ⟨r', hr', hn, hover, hpending⟩ := h.current hold
      obtain rfl : r' = r := Option.some.inj (hr'.symm.trans hr)
      have hgoing : .finish k' ∉ l := fun hf => by
        have := (hover hf).run
        omega
      refine ⟨{ r' with called := r'.called.set i true }, ?_, by simpa using hn, fun hf => absurd hf ?_, fun _ => ?_⟩
      · rw [hruns, List.getElem?_set_self (List.getElem?_eq_some_iff.1 hr).1]
      · simpa using hgoing
      · exact (hpending hgoing).count hc hqrun hleft hup
  · rw [he]
    refine ⟨by rw [h.length, hbegun], by rw [hbegun]; exact h.down, h.bound, h.past, fun {k' n since} hcur => ?_⟩
    obtain ⟨l, rfl, hold⟩ := current_snoc rfl hcur
    obtain ⟨r, hr, hn, hover, hpending⟩ := h.current hold
    refine ⟨r, hr, hn, fun hf => hover (by simpa using hf), fun hf => ?_⟩
    have hgoing := hpending (by simpa using hf)
    refine hgoing.skip fun a ha hcall => ?_
    cases hcall
    have hget : r.called[i]? = some r.called[i] := List.getElem?_eq_getElem ha
    cases hval : r.called[i] with
    | true => rw [hget, hval]
    | false => exact absurd hgoing.run (hskip r hr (by rw [hget, hval]))

theorem Follows.finish (h : Follows calls p) (k : Nat) : Follows (calls ++ [.finish k]) (p.finish k) := by
  have hbegun : begun (calls ++ [.finish k]) = begun calls := begun_snoc _ _
  rcases p.finish_cases k with ⟨r, hr, hrun, he⟩ | ⟨hskip, he⟩
  · have hq : (p.finish k).runs = p.runs ∧ (p.finish k).sig.run = p.sig.run + 1 ∧ (p.finish k).sig.up = false := by
      rw [he]
      unfold Process.reset
      split
      · exact ⟨rfl, rfl, rfl⟩
      · rename_i hup
        exact ⟨rfl, rfl, by simpa using hup⟩
    obtain ⟨hruns, hqrun, hup⟩ := hq
    have hlast := h.last hr hrun
    refine ⟨by rw [hruns, h.length, hbegun], fun _ => hup, fun r' hr' => ?_, fun {k' r'} hr' _ => ?_, fun {k' n since} hcur => ?_⟩
    · rw [hruns] at hr'
      have := h.bound r' hr'
      omega
    · rw [hruns] at hr'
      have := h.bound r' (List.mem_of_getElem? hr')
      omega
    · obtain ⟨l, rfl, hold⟩ := current_snoc rfl hcur
      obtain rfl : k' = k := by
        have := hold.begun
        omega
      obtain ⟨r', hr', hn, -, -⟩ := h.current hold
      have := h.bound r' (List.mem_of_getElem? hr')
      exact ⟨r', by rw [hruns, hr'], hn, fun _ => ⟨by omega, hup⟩, fun hf => absurd (by simp) hf⟩
  · rw [he]
    refine ⟨by rw [h.length, hbegun], by rw [hbegun]; exact h.down, h.bound, h.past, fun {k' n since} hcur => ?_⟩
    obtain ⟨l, rfl, hold⟩ := current_snoc rfl hcur
    obtain ⟨r, hr, hn, hover, hpending⟩ := h.current hold
    refine ⟨r, hr, hn, fun hf => ?_, fun hf => ?_⟩
    · -- an end that does nothing comes after one that did
      by_contra hnot
      have hl : .finish k' ∉ l := fun hl => hnot (hover hl)
      have hk : k' = k := by simpa [hl] using hf
      exact hskip r (hk ▸ hr) (hpending hl).run
    · exact (hpending fun hl => hf (by simp [hl])).skip fun i _ hcall => nomatch hcall

end

theorem run_follows (calls : List Call) : Follows calls (run calls) := by
  induction calls using List.reverseRecOn with
  | nil =>
    refine ⟨rfl, fun _ => rfl, by simp [run, Process.after], by simp [run, Process.after], fun hc => ?_⟩
    have := hc.begun
    cases this
  | append_singleton calls call ih =>
    rw [run_snoc]
    cases call with
    | begin n => exact ih.begin n
    | part k i => exact ih.part k i
    | finish k => exact ih.finish k

/-! ## Main results -/

theorem up_iff (calls : List Call) : (run calls).sig.up = true ↔ Ready calls := by
  have h := run_follows calls
  constructor
  · intro hup
    have hne : begun calls ≠ 0 := fun h0 => by
      rw [h.down h0] at hup
      cases hup
    obtain ⟨k, n, since, hcur⟩ := exists_current hne
    obtain ⟨r, -, rfl, hover, hpending⟩ := h.current hcur
    have hgoing : .finish k ∉ since := fun hf => by
      rw [(hover hf).up] at hup
      cases hup
    refine ⟨k, _, since, hcur, hgoing, fun i hi => ((hpending hgoing).called i hi).1 ?_⟩
    have hzero : r.called.count false = 0 := by
      have hl := (hpending hgoing).left
      rw [(hpending hgoing).up.1 hup] at hl
      omega
    rw [List.getElem?_eq_getElem hi, Option.some.injEq]
    by_contra hfalse
    exact List.count_eq_zero.1 hzero (Bool.eq_false_iff.2 hfalse ▸ List.getElem_mem hi)
  · rintro ⟨k, n, since, hcur, hgoing, hall⟩
    obtain ⟨r, -, rfl, -, hpending⟩ := h.current hcur
    refine (hpending hgoing).up.2 ?_
    rw [(hpending hgoing).left, List.count_eq_zero.2]
    · rfl
    · intro hmem
      obtain ⟨i, hi, hget⟩ := List.getElem_of_mem hmem
      have := ((hpending hgoing).called i hi).2 (hall i hi)
      rw [List.getElem?_eq_getElem hi, hget] at this
      cases this

namespace Process

theorem openCh_ch (p : Process) : p.openCh.sig.ch = p.sig.ch := by
  unfold openCh
  split <;> rfl

theorem ch_le_reset (p : Process) : p.sig.ch ≤ p.reset.sig.ch := by
  unfold reset
  split
  · exact Nat.le_succ _
  · exact Nat.le_refl _

theorem reset_up {p : Process} (h : p.sig.up = true) : p.reset.sig.ch = p.sig.ch + 1 := by
  unfold reset
  rw [if_pos h]

theorem begin_ch (p : Process) (n : Nat) : (p.begin n).sig.ch = p.reset.sig.ch := by
  unfold Process.begin
  by_cases hn : n = 0
  · simp only [if_pos hn, openCh_ch]
    rfl
  · simp only [if_neg hn]
    rfl

theorem ch_le_step (p : Process) (call : Call) : p.sig.ch ≤ (p.step call).sig.ch := by
  cases call with
  | begin n =>
    show p.sig.ch ≤ (p.begin n).sig.ch
    rw [begin_ch]
    exact p.ch_le_reset
  | part k i =>
    show p.sig.ch ≤ (p.part k i).sig.ch
    rcases p.part_cases k i with ⟨r, -, -, -, he⟩ | ⟨-, he⟩
    · rw [he]
      split
      · rw [openCh_ch]
        exact Nat.le_refl _
      · exact Nat.le_refl _
    · exact Nat.le_of_eq (by rw [he])
  | finish k =>
    show p.sig.ch ≤ (p.finish k).sig.ch
    rcases p.finish_cases k with ⟨r, -, -, he⟩ | ⟨-, he⟩
    · rw [he]
      exact ch_le_reset { p with sig := { p.sig with run := p.sig.run + 1 } }
    · exact Nat.le_of_eq (by rw [he])

theorem ch_le_after (p : Process) (calls : List Call) : p.sig.ch ≤ (p.after calls).sig.ch := by
  induction calls generalizing p with
  | nil => exact Nat.le_refl _
  | cons call calls ih => exact Nat.le_trans (p.ch_le_step call) (ih _)

end Process

theorem run_append (calls more : List Call) : run (calls ++ more) = (run calls).after more := by
  simp [run, Process.after]

/-- Replacing or ending a run that is ready hands out another channel. -/
theorem ch_lt_of_replaced {calls : List Call} {call : Call} (hr : Replaced calls call) (hup : (run calls).sig.up = true) :
    (run calls).sig.ch < ((run calls).step call).sig.ch := by
  cases call with
  | begin n =>
    show _ < ((run calls).begin n).sig.ch
    rw [Process.begin_ch, Process.reset_up hup]
    exact Nat.lt_succ_self _
  | part k i => rcases hr with h | ⟨k, h, -⟩ <;> cases h
  | finish k =>
    obtain ⟨k', n, since, hcur, hgoing, -⟩ := (up_iff calls).1 hup
    obtain ⟨r, hget, -, -, hpending⟩ := (run_follows calls).current hcur
    obtain rfl : k' = k := by
      have := hcur.begun
      rcases hr with h | ⟨k', h, hb⟩
      · cases h
      · cases h
        omega
    show _ < ((run calls).finish k').sig.ch
    rcases (run calls).finish_cases k' with ⟨r, -, -, he⟩ | ⟨hskip, -⟩
    · have hch : ((run calls).finish k').sig.ch = (run calls).sig.ch + 1 := by
        rw [he]
        exact Process.reset_up hup
      omega
    · exact absurd (hpending hgoing).run (hskip r hget)

/-- **The channel handed out is closed exactly while the run begun last is ready**, no channel is closed twice, and
one that was closed is not handed out again once its run was replaced or ended. -/
theorem ready_iff (calls : List Call) :
    ((run calls).sig.ch ∈ (run calls).closed ↔ Ready calls) ∧ (run calls).closed.Nodup ∧
    ∀ before call later, calls = before ++ call :: later → Replaced before call →
      ∀ c ∈ (run before).closed, c ≠ (run calls).sig.ch := by
  have h := run_channels calls
  refine ⟨h.up.symm.trans (up_iff calls), h.once, ?_⟩
  rintro before call later rfl hr c hc
  have hb := run_channels before
  have hle : ((run before).step call).sig.ch ≤ (run (before ++ call :: later)).sig.ch := by
    rw [run_append]
    exact Process.ch_le_after _ later
  have hold := hb.older c hc
  by_cases hup : (run before).sig.up = true
  · have := ch_lt_of_replaced hr hup
    omega
  · have hne : c ≠ (run before).sig.ch := fun he => hup (hb.up.2 (he ▸ hc))
    have := (run before).ch_le_step call
    omega

-- callbacks of a run that was replaced do not count
example : (run [.begin 1, .part 0 0, .begin 1, .part 0 0, .finish 0]).sig.up = false := by decide

end Packtrail.Readiness
